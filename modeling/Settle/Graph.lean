/-! Listing a graph depth first.

From a node one gets to its successors. `preorder` lists what can be reached within
a depth by recursion: a node, then what its successors lead to, one after the
other. `sweep` makes the same list with a work list in place of the recursion
(`sweep_eq_flatMap`). Neither marks what it has seen: a node that can be reached in
several ways is listed as often. -/
namespace Settle.Graph

variable {α : Type} (next : α → List α)

def preorder : (depth : Nat) → α → List α
  | 0, _ => []
  | depth + 1, i => i :: (next i).flatMap (preorder depth)

/-- How many entries a work list goes through on behalf of one. -/
def workload : (depth : Nat) → α → Nat
  | 0, _ => 1
  | depth + 1, i => (next i).foldr (fun j load => workload depth j + load) 1

/-- How many entries a work list goes through. -/
def totalLoad (work : List (Nat × α)) : Nat :=
  work.foldr (fun entry load => workload next entry.1 entry.2 + load) 0

theorem totalLoad_drop (i : α) (rest : List (Nat × α)) :
    totalLoad next rest < totalLoad next ((0, i) :: rest) := by
  simp [totalLoad, workload]

theorem totalLoad_expand (depth : Nat) (i : α) (rest : List (Nat × α)) :
    totalLoad next ((next i).map (depth, ·) ++ rest) < totalLoad next ((depth + 1, i) :: rest) := by
  simp only [totalLoad, workload, List.foldr_append, List.foldr_map, List.foldr_cons]
  induction next i with
  | nil => simp
  | cons j js ih => simp only [List.foldr_cons]; omega

/-- Lists what the entries of a work list lead to. An entry is a node with the depth that remains
from it on; its successors go in front of the entries still waiting. -/
def sweep : List (Nat × α) → List α
  | [] => []
  | (0, _) :: rest => sweep rest
  | (depth + 1, i) :: rest => i :: sweep ((next i).map (depth, ·) ++ rest)
termination_by work => totalLoad next work
decreasing_by
  · exact totalLoad_drop next _ rest
  · exact totalLoad_expand next depth i rest

theorem sweep_eq_flatMap (work : List (Nat × α)) :
    sweep next work = work.flatMap fun entry => preorder next entry.1 entry.2 := by
  fun_induction sweep next work with
  | case1 => rfl
  | case2 _ rest ih => simpa [preorder] using ih
  | case3 depth i rest ih => simp [ih, preorder, List.flatMap_map, List.flatMap_append]

end Settle.Graph
