import Settle.Store.Basic

/-! Changes in place.

A node's payload is changed through `revise`: the new payload is worked out from
the one the node carries, and written over it. `setBody` and `insertStatement`
also point the new child to its parent; `setStatements` and `overwrite` leave
every parent link alone. `becomeSuspension` gives a node another kind and a new
payload, while flags, span and parent stay. Each operation answers whether it
applied; one that did not has changed nothing. -/
namespace Settle.Store

/-- Writes a payload, of the form that a node carries, at the node's address. -/
def write (s : Store) (i : NodeId) (payload : Payload Ref) : Store :=
  match s.address? i with
  | some (_, place) => {s with pools := s.pools.set place payload}
  | none => s

/-- Gives a node a kind and the place of its payload; all else in its header stays. -/
def retarget (s : Store) (i : NodeId) (kind : Kind) (place : Option Nat) : Store :=
  {s with headers := s.headers.modify i fun header => {header with kind, place}}

theorem headers_write (s : Store) (i : NodeId) (payload : Payload Ref) :
    (s.write i payload).headers = s.headers := by
  unfold write
  split <;> rfl

theorem parents_write (s : Store) (i : NodeId) (payload : Payload Ref) :
    (s.write i payload).parents = s.parents := by
  unfold write
  split <;> rfl

theorem address?_write (s : Store) (i j : NodeId) (payload : Payload Ref) :
    (s.write i payload).address? j = s.address? j := by
  simp only [address?, header?, headers_write]

/-- What is written at a node is seen at the nodes of the same address, and nowhere else. -/
theorem payload?_write {s : Store} {i : NodeId} {old payload : Payload Ref}
    (h : s.payload? i = some old) (hf : payload.form = old.form) (j : NodeId) :
    (s.write i payload).payload? j =
      if s.address? j = s.address? i then some payload else s.payload? j := by
  obtain ⟨place, hi, hp⟩ := payload?_eq_some_iff.mp h
  have hlt : place < s.pools.size old.form := Pools.get?_isSome_iff.mp (by rw [hp]; rfl)
  have hpools : (s.write i payload).pools = s.pools.set place payload := by
    rw [write, hi]
  rw [payload?, address?_write, hpools, payload?, hi]
  cases hj : s.address? j with
  | none => rfl
  | some address =>
    obtain ⟨form, k⟩ := address
    show (s.pools.set place payload).get? form k = _
    rw [Pools.get?_set, hf]
    by_cases hform : old.form = form
    · subst hform
      by_cases hk : k = place <;> simp [hk, hlt]
    · have hform' : ¬ form = old.form := fun he => hform he.symm
      simp [hform, hform']

end Settle.Store

namespace Settle.Edit

/-- Replaces a node's payload by what `change` makes of it, if it makes anything of it. The new
payload is of the form of the old one. -/
def revise (i : NodeId) (change : Payload Ref → Option (Payload Ref)) : Edit Bool :=
  modifyGet fun s =>
    match (s.payload? i).bind change with
    | some payload => (true, s.write i payload)
    | none => (false, s)

/-- Writes a whole payload over a node's payload of the same form. -/
def overwrite (i : NodeId) (payload : Payload Ref) : Edit Bool :=
  revise i fun old => if old.form = payload.form then some payload else none

def adopt (parent : NodeId) (child : Ref) : Edit Unit :=
  modify (·.adopt parent [child])

/-- Gives a function another body. -/
def setBody (i : NodeId) (body : Ref) : Edit Bool := do
  let done ← revise i fun
    | .function parts => some (.function {parts with body})
    | _ => none
  if done then adopt i body
  return done

/-- Changes the statements of a source file or block. -/
def reviseStatements (i : NodeId) (change : List Ref → List Ref) : Edit Bool :=
  revise i fun
    | .sourceFile parts => some (.sourceFile {parts with statements := change parts.statements})
    | .block statements => some (.block (change statements))
    | _ => none

def setStatements (i : NodeId) (statements : List Ref) : Edit Bool :=
  reviseStatements i fun _ => statements

/-- Puts a statement into a source file or block; a position past the end means the end. -/
def insertStatement (i : NodeId) (position : Nat) (statement : Ref) : Edit Bool := do
  let done ← reviseStatements i fun statements =>
    statements.take position ++ statement :: statements.drop position
  if done then adopt i statement
  return done

/-- Turns an existing node into one of the given kind that carries a new suspension payload. -/
def becomeSuspension [Placing] (i : NodeId) (kind : Kind) (parts : SuspensionParts Ref) :
    Edit Bool :=
  modifyGet fun s =>
    match s.header? i with
    | some _ =>
      let place := Placing.place (s.pools.size .suspension)
      let pooled := {s with pools := s.pools.add (.suspension parts)}
      (true, (pooled.retarget i kind place).adopt i [parts.operand])
    | none => (false, s)

end Settle.Edit
