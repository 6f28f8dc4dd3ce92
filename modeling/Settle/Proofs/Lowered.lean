import Mathlib.Data.List.ModifyLast
import Settle.Proofs.Tree

/-! The lowerings on trees.

What the lowerings do to a store, said of trees: `Tree.suspend` makes a body pause a
generator, `Tree.trampoline` is the code that starts one, `Tree.lowerFunction` and
`Tree.lowerTry` put them together at one node. New nodes get their tags from a
numbering, in the order in which they are made. -/
namespace Settle

/-! ### Marks -/

namespace Mark

/-- Marked `async`, and not a generator. -/
def isAsyncFunction (mark : Mark) : Bool :=
  mark.kind.isFunction && mark.detail == some (.function true false)

/-- Written `try await e`. -/
def isAsyncTry (mark : Mark) : Bool :=
  mark.kind == .tryExpression && mark.detail == some (.tryExpression true false)

/-- A suspension point of an async function as one of a generator; other marks as they are. -/
def byYield (mark : Mark) : Mark :=
  if mark.kind = .suspension .await then
    {mark with kind := .suspension .yield, detail := some (.suspension false)}
  else if mark.detail = some (.tryExpression true false) then
    {mark with detail := some (.tryExpression false true)}
  else
    mark

/-- A function no longer async. -/
def plain (mark : Mark) : Mark :=
  match mark.detail with
  | some (.function _ isGenerator) => {mark with detail := some (.function false isGenerator)}
  | _ => mark

theorem isFunction_of_isAsyncFunction {mark : Mark} (h : mark.isAsyncFunction) :
    mark.kind.isFunction := by
  rw [isAsyncFunction, Bool.and_eq_true] at h
  exact h.1

theorem isAsyncFunction_plain (mark : Mark) : mark.plain.isAsyncFunction = false := by
  unfold plain
  split
  · simp [isAsyncFunction]
  · rename_i h
    cases hd : mark.detail with
    | none => simp [isAsyncFunction, hd]
    | some detail => cases detail <;> simp_all [isAsyncFunction]

theorem kind_plain (mark : Mark) : mark.plain.kind = mark.kind := by
  unfold plain
  split <;> rfl

/-- Pausing a generator makes no function of a node, nor a node of a function. -/
theorem isFunction_byYield (mark : Mark) :
    mark.byYield.kind.isFunction = mark.kind.isFunction := by
  unfold byYield
  split
  · rename_i h
    simp [h, Kind.isFunction]
  · split <;> rfl

theorem byYield_kind_eq_block {mark : Mark} : mark.byYield.kind = .block ↔ mark.kind = .block := by
  unfold byYield
  split
  · rename_i h
    simp [h]
  · split <;> exact Iff.rfl

end Mark

namespace Tree
variable {α β : Type}

/-! ### Bodies that pause a generator -/

mutual
/-- Makes the suspension points that belong to a body pause a generator. Those of the functions in
it belong to them. -/
def suspend : Tree α → Tree α
  | .empty => .empty
  | .node tag mark slots =>
    if mark.kind.isFunction then .node tag mark slots
    else .node tag mark.byYield (suspendAll slots)
def suspendAll : List (Tree α) → List (Tree α)
  | [] => []
  | t :: rest => suspend t :: suspendAll rest
end

theorem suspendAll_eq (slots : List (Tree α)) : suspendAll slots = slots.map suspend := by
  induction slots with
  | nil => rfl
  | cons t rest ih => rw [suspendAll, ih, List.map_cons]

theorem suspend_function {tag : α} {mark : Mark} {slots : List (Tree α)}
    (h : mark.kind.isFunction) : (node tag mark slots).suspend = .node tag mark slots := by
  rw [suspend, if_pos h]

theorem suspend_node {tag : α} {mark : Mark} {slots : List (Tree α)}
    (h : mark.kind.isFunction = false) :
    (node tag mark slots).suspend = .node tag mark.byYield (slots.map suspend) := by
  rw [suspend, h, suspendAll_eq]
  rfl

mutual
/-- The nodes that belong to a body, in source order. -/
def owned : Tree α → List α
  | .empty => []
  | .node tag mark slots => tag :: if mark.kind.isFunction then [] else ownedAll slots
def ownedAll : List (Tree α) → List α
  | [] => []
  | t :: rest => owned t ++ ownedAll rest
end

theorem ownedAll_eq (slots : List (Tree α)) : ownedAll slots = slots.flatMap owned := by
  induction slots with
  | nil => rfl
  | cons t rest ih => rw [ownedAll, ih, List.flatMap_cons]

theorem owned_subset (t : Tree α) : t.owned ⊆ t.tags := by
  induction t with
  | empty => exact fun _ h => h
  | node tag mark slots ih =>
    rw [owned, ownedAll_eq, tags_node]
    refine List.cons_subset_cons _ ?_
    split
    · exact List.nil_subset _
    · intro i hi
      obtain ⟨t, ht, hi⟩ := List.mem_flatMap.mp hi
      exact List.mem_flatMap.mpr ⟨t, ht, ih t ht hi⟩

theorem tags_suspend (t : Tree α) : t.suspend.tags = t.tags := by
  induction t with
  | empty => rfl
  | node tag mark slots ih =>
    by_cases h : mark.kind.isFunction
    · rw [suspend_function h]
    · rw [suspend_node (by simpa using h), tags_node, tags_node, List.flatMap_map]
      exact congrArg _ (List.flatMap_congr ih)

/-! ### Use of `arguments` -/

mutual
/-- Whether a tree reads the `arguments` of the function around it. -/
def mentionsArguments : Tree α → Bool
  | .empty => false
  | .node _ mark slots =>
    !mark.kind.bindsArguments &&
      (mark.detail == some (.identifier "arguments") ||
        if mark.detail = some (.plain .access) then mentionsFirst slots else mentionsAny slots)
def mentionsFirst : List (Tree α) → Bool
  | [] => false
  | t :: _ => mentionsArguments t
def mentionsAny : List (Tree α) → Bool
  | [] => false
  | t :: rest => mentionsArguments t || mentionsAny rest
end

theorem mentionsAny_eq (slots : List (Tree α)) :
    mentionsAny slots = slots.any mentionsArguments := by
  induction slots with
  | nil => rfl
  | cons t rest ih => rw [mentionsAny, ih, List.any_cons]

/-! ### Lowered nodes -/

/-- A new identifier. -/
def identifier (tag : α) (text : String) : Tree α := made tag .identifier (.identifier text)

/-- A new `this`. -/
def this (tag : α) : Tree α := .node tag ⟨.thisKeyword, 0, .zero, none⟩ []

/-- A function body as a block: a block as it is, an expression as `{ return e; }`, none as `{}`. -/
def asBlock (fresh : Nat → α) : Tree α → Tree α
  | .empty => made (fresh 0) .block (.block [])
  | .node tag mark slots =>
    if mark.kind = .block then .node tag mark slots
    else
      made (fresh 1) .block
        (.block [made (fresh 0) .returnStatement (.returnStatement (.node tag mark slots))])

/-- `{ return helper(function* () body).apply(this, arguments); }`, or `.call(this)`. -/
def trampoline (fresh : Nat → α) (helper body : Tree α) (forwards : Bool) : Tree α :=
  let generator :=
    made (fresh 0) (.function .expression) (.function ⟨.empty, [], body, false, true⟩)
  let wrapped := made (fresh 1) .call (.call ⟨helper, [generator]⟩)
  let receiver := this (fresh 2)
  let rest := if forwards then [identifier (fresh 3) "arguments"] else []
  let next := 3 + forwards.toNat
  let method := identifier (fresh next) (if forwards then "apply" else "call")
  let callee := made (fresh (next + 1)) .access (.access ⟨wrapped, method⟩)
  let invoke := made (fresh (next + 2)) .call (.call ⟨callee, receiver :: rest⟩)
  let result := made (fresh (next + 3)) .returnStatement (.returnStatement invoke)
  made (fresh (next + 4)) .block (.block [result])

/-- The body of a lowered function, for a function that binds `arguments` or does not. -/
def loweredBody (forBlock fresh : Nat → α) (helper : Tree α) (binds : Bool) (body : Tree α) :
    Tree α :=
  trampoline fresh helper (asBlock forBlock body).suspend (binds || body.mentionsArguments)

/-- A function as a plain one whose body, in its last slot, runs as a generator. -/
def lowerFunction (forBlock fresh : Nat → α) (helper : Tree α) : Tree α → Tree α
  | .empty => .empty
  | .node tag mark slots =>
    .node tag mark.plain
      (slots.modifyLast (loweredBody forBlock fresh helper (mark.kind != .function .arrow)))

/-- `try await e` as `await helper(e)`. -/
def lowerTry (fresh : α) (helper : Tree α) : Tree α → Tree α
  | .empty => .empty
  | .node tag mark slots =>
    .node tag {mark with kind := .suspension .await, detail := some (.suspension false)}
      [made fresh .call (.call ⟨helper, slots⟩)]

theorem asBlock_of_block (fresh : Nat → α) {t : Tree α} (h : t.kind? = some .block) :
    asBlock fresh t = t := by
  cases t with
  | empty => cases h
  | node tag mark slots => rw [asBlock, if_pos (Option.some.inj h)]

theorem asBlock_of_ne_block (fresh : Nat → α) {t : Tree α} {kind : Kind} (h : t.kind? = some kind)
    (hne : kind ≠ .block) :
    asBlock fresh t =
      made (fresh 1) .block (.block [made (fresh 0) .returnStatement (.returnStatement t)]) := by
  cases t with
  | empty => cases h
  | node tag mark slots =>
    obtain rfl := Option.some.inj h
    rw [asBlock, if_neg hne]

theorem kind?_asBlock (fresh : Nat → α) (t : Tree α) : (asBlock fresh t).kind? = some .block := by
  cases t with
  | empty => rfl
  | node tag mark slots =>
    rw [asBlock]
    split
    · rename_i h
      rw [kind?, h]
    · rfl

/-! ### Their nodes -/

/-- How many nodes make a block of a body. -/
def blockCount : Tree α → Nat
  | .empty => 1
  | .node _ mark _ => if mark.kind = .block then 0 else 2

theorem tags_asBlock (fresh : Nat → α) (t : Tree α) :
    (asBlock fresh t).tags.Perm ((List.range t.blockCount).map fresh ++ t.tags) := by
  cases t with
  | empty => exact .refl _
  | node tag mark slots =>
    rw [asBlock, blockCount]
    split
    · exact .refl _
    · simp only [made, Payload.slots, tags_node, List.flatMap_singleton]
      exact .swap _ _ _

theorem tags_trampoline [DecidableEq α] (fresh : Nat → α) (helper body : Tree α) (forwards : Bool) :
    (trampoline fresh helper body forwards).tags.Perm
      ((List.range (8 + forwards.toNat)).map fresh ++ (helper.tags ++ body.tags)) := by
  rw [List.perm_iff_count]
  intro i
  cases forwards <;>
    simp [trampoline, made, this, identifier, Payload.slots, List.count_cons, List.range_succ] <;>
    omega

/-- A lowered function has its old nodes, those of the reference to the helper, and new ones. -/
theorem tags_lowerFunction [DecidableEq α] (forBlock fresh : Nat → α) (helper : Tree α) (tag : α)
    (mark : Mark) (init : List (Tree α)) (body : Tree α) :
    ∃ count, (lowerFunction forBlock fresh helper (node tag mark (init ++ [body]))).tags.Perm
      ((node tag mark (init ++ [body])).tags ++ (helper.tags ++
        ((List.range body.blockCount).map forBlock ++ (List.range count).map fresh))) := by
  refine ⟨8 + ((mark.kind != .function .arrow) || body.mentionsArguments).toNat, ?_⟩
  rw [List.perm_iff_count]
  intro i
  have hblock := (tags_asBlock forBlock body).count_eq i
  have htrampoline := (tags_trampoline fresh helper (asBlock forBlock body).suspend
    ((mark.kind != .function .arrow) || body.mentionsArguments)).count_eq i
  simp only [tags_suspend, List.count_append] at hblock htrampoline
  simp only [lowerFunction, List.modifyLast_concat, loweredBody, tags_node, List.flatMap_append,
    List.flatMap_singleton, List.count_cons, List.count_append]
  omega

theorem tags_lowerTry [DecidableEq α] (fresh : α) (helper : Tree α) (tag : α) (mark : Mark)
    (slots : List (Tree α)) :
    (lowerTry fresh helper (node tag mark slots)).tags.Perm
      ((node tag mark slots).tags ++ (helper.tags ++ [fresh])) := by
  rw [List.perm_iff_count]
  intro i
  simp only [lowerTry, made, Payload.slots, tags_node, List.flatMap_cons, List.flatMap_nil,
    List.count_cons, List.count_append, List.count_nil]
  omega

end Tree
end Settle
