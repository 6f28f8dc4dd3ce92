import Settle.Config.Value
import Settle.Payload

/-! References in transit.

A reference travels as an integer below 2^32, the largest of which stands for no
node. A list of references travels as an object with the field `nodes`, or bare,
as the only item of a list. -/
namespace Settle.Wire

/-- The code that stands for no node. -/
def noNode : Nat := UInt32.size - 1

def ofCode (code : Nat) : Ref := if code = noNode then none else some code

def code : Ref → Nat
  | some i => i
  | none => noNode

def readRef? : Value → Option Ref
  | .integer value => if 0 ≤ value ∧ value ≤ noNode then some (ofCode value.toNat) else none
  | _ => none

def readItems? : Value → Option (List Ref)
  | .list items => items.mapM readRef?
  | _ => none

def readRefs? : Value → Option (List Ref)
  | .list [items] => readItems? items
  | value => (value.field? "nodes").bind readItems?

def writeRefs (refs : List Ref) : Value :=
  .object [("nodes", .list (refs.map fun ref => .integer (code ref)))]

end Settle.Wire
