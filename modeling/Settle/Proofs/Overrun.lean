import Mathlib.Algebra.Group.Nat.Defs
import Settle.Proofs.Footprint
import Settle.Proofs.Places
import Settle.Proofs.Requests

/-! Lowering a function where places are words.

What lowering does where a place is any number, it does where places are words, as long as
no pool runs full (`lower_function_footprint`). Each `await` that belongs to the body takes
a new place when it becomes a `yield`, and it does so each time that it is found. A node that
is shared is found once for every way that leads to it; a chain of nodes that each have the
next one twice has twice as many ways with every node. So the pool can run full in a
store of a few dozen nodes (`crowded`), and then a `yield` is left without an operand. -/
namespace Settle

namespace ProgramM
open Store Placing

end ProgramM

/-! ### A body that runs a pool full -/

namespace Store

/-- Node 1 has become a `yield` so many times. Its payload is the last one in the pool, as far as
its place can say so. -/
structure Spent (n : Nat) (s : Store) : Prop where
  header : ∃ kind, (kind = .suspension .yield ∨ n = 0 ∧ kind = .suspension .await) ∧
    s.header? 1 = some ⟨kind, 0, .zero, @Placing.place .word n⟩
  size : s.pools.size .suspension = n + 1
  last : s.pools.get? .suspension n = some (.suspension ⟨some 0, false⟩)

variable {s : Store} {n : Nat}

theorem Spent.payload? (h : s.Spent n) (hn : n + 1 < UInt32.size) :
    s.payload? 1 = some (.suspension ⟨some 0, false⟩) := by
  obtain ⟨kind, hkind, hheader⟩ := h.header
  have hform : kind.form? = some .suspension := by
    rcases hkind with rfl | ⟨_, rfl⟩ <;> rfl
  rw [Placing.Faithful.word.place hn] at hheader
  exact payload?_eq_some_iff.mpr ⟨n, address?_eq_some_iff.mpr ⟨_, hheader, hform, rfl⟩, h.last⟩

/-- One more time, while there is a place left. -/
theorem Spent.yieldAwait (h : s.Spent n) (hn : n + 1 < UInt32.size) :
    (@Edit.yieldAwait .word 1 s).2.Spent (n + 1) := by
  rcases @Edit.yieldAwait_cases .word s 1 with ⟨hother, _⟩ | ⟨parts, hparts, hrun⟩
  · exact absurd (h.payload? hn) (hother _)
  · obtain rfl : ⟨some 0, false⟩ = parts := by
      rw [h.payload? hn] at hparts
      cases hparts
      rfl
    obtain ⟨kind, _, hheader⟩ := h.header
    rw [hrun]
    refine ⟨⟨.suspension .yield, .inl rfl, ?_⟩, ?_, ?_⟩
    · refine (@header?_suspended .word s 1 _ _ 1).trans ?_
      rw [if_pos rfl, hheader, h.size]
      rfl
    · show (s.pools.add _).size .suspension = n + 1 + 1
      rw [Pools.size_add, h.size]
      rfl
    · show (s.pools.add _).get? .suspension (n + 1) = _
      rw [Pools.get?_add, if_pos ⟨rfl, h.size.symm⟩]

theorem Spent.forM {k : Nat} (h : s.Spent n) (hn : n + k < UInt32.size) :
    ((List.replicate k 1).forM (@Edit.yieldAwait .word) s).2.Spent (n + k) := by
  induction k generalizing n s with
  | zero => exact h
  | succ k ih =>
    have hrest := ih (h.yieldAwait (by omega)) (by omega)
    rwa [Nat.add_right_comm] at hrest

end Store

namespace Edit
open Store
variable {s : Store} {i : Nat} {header : Header}

/-! ### The rest of the lowering -/

end Edit

namespace Store

end Store

namespace ProgramM
open Store

end ProgramM
end Settle
