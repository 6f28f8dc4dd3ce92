import Settle.Store.Basic

/-! Deep copies.

A copy of a node is a new node of the same kind, flags and span, whose slots hold
copies of the children, made in source order before it. A node of a kind that
carries a payload, but that has none, cannot be copied, and neither can a node
that does not exist: the slot stays empty. A node of a kind without payload
becomes a bare token.

The store is read as the copy goes on. A reference that names no node at the
start may name one by the time it is followed, if the copy has made it meanwhile;
it is then copied like any other. A node that contains itself has no copy: what is
made of it here is cut off at a depth that no other copy gets to. -/
namespace Settle.Edit
variable [Placing]

/-- Copies a node and what is below it, following no chain of more than `depth` nodes. -/
def copyWithin : (depth : Nat) → NodeId → Edit Ref
  | 0, _ => return none
  | depth + 1, i => do
    let s ← get
    match s.header? i with
    | none => return none
    | some header =>
      if header.kind.form?.isNone then
        return some (← addToken header.kind header.flags header.span)
      match s.payload? i with
      | none => return none
      | some payload =>
        let payload ← payload.mapSlotsM fun
          | some child => copyWithin depth child
          | none => return none
        return some (← add header.kind header.flags header.span payload)

/-- Ids are 32-bit words, so no store has more nodes than this, also while a copy adds to it. -/
def idBound : Nat := UInt32.size

/-- A deep copy of a node. A tree has no chain longer than its number of nodes, and one that
runs into nodes the copy makes stays below `idBound` besides. -/
def copy (i : NodeId) : Edit Ref := do
  copyWithin ((← get).size + idBound) i

end Settle.Edit
