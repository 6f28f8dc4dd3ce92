import Settle.Payload

/-! Faults: why an operation on a program stops.

An operation that stops keeps what it has changed so far, so a fault always comes
together with the program it left. -/
namespace Settle

inductive Fault where
  /-- A node that was asked for does not exist, or has lost its payload. -/
  | missingNode (node : NodeId)
  /-- Only functions and try expressions can be lowered. -/
  | unexpectedKind (found : Kind)
  | unknownHelper (name : String)
  | missingRoot
  /-- The tree goes deeper than a walk follows; `node` is where it gave up. -/
  | depthLimit (node : NodeId)
  | incompatibleHost (required actual : UInt32)
  deriving DecidableEq, Repr

namespace Fault

private def nodeText (node : NodeId) : String := "NodeIndex(" ++ node.repr ++ ")"

def message : Fault → String
  | missingNode node => "node " ++ nodeText node ++ " does not exist in the arena"
  | unexpectedKind found => "expected function or try expression, found " ++ found.name
  | unknownHelper name => "unknown helper `" ++ name ++ "`"
  | missingRoot => "compilation unit root is not a source file"
  | depthLimit node => "tree nesting exceeds the depth limit at node " ++ nodeText node
  | incompatibleHost required actual =>
    "requires host API version " ++ required.toNat.repr ++ ", but was loaded by version " ++
      actual.toNat.repr

end Fault
end Settle
