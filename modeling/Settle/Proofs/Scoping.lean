import Settle.Proofs.LocalExpression
import Settle.Proofs.WholeFunction

/-! Where a program may pause.

`await` and `try await` belong to the body of an async function or to the top level,
`yield` and `try yield` to the body of a generator. A lowering takes the word
`async` from a function, moves its body into a generator and turns the suspension
points in it; one that it missed, or one too many, would make a program that cannot be
read. None of this happens (`settle_wellScoped`), neither in a run that goes through nor
where one is stopped: the visit of each node keeps the tree well scoped
(`Wraps.keepsScopes`, `Awaits.keepsScopes`), so every walk does (`Walked.keepsScopes`). -/
namespace Settle

/-! ### Scopes -/

/-- What the nearest function around a place lets the code there do. -/
inductive Scope where
  /-- There is no function around. -/
  | file
  /-- In the name or the parameters of the function. -/
  | head
  /-- In the body of a function. -/
  | body (isAsync isGenerator : Bool)
  deriving DecidableEq, Repr

namespace Mark

/-- Pauses an async function: `await`, or `try await`. -/
def awaits (mark : Mark) : Bool := mark.kind == .suspension .await || mark.isAsyncTry

/-- Pauses a generator: `yield`, or `try yield`. -/
def yields (mark : Mark) : Bool :=
  mark.kind == .suspension .yield || mark.kind == .tryExpression &&
    (mark.detail == some (.tryExpression true true) ||
      mark.detail == some (.tryExpression false true))

/-- The scope in the body of a function. -/
def bodyScope (mark : Mark) : Scope :=
  match mark.detail with
  | some (.function isAsync isGenerator) => .body isAsync isGenerator
  | _ => .body false false

end Mark

namespace Scope

def mayAwait : Scope → Bool
  | file => true
  | head => false
  | body isAsync _ => isAsync

def mayYield : Scope → Bool
  | file | head => false
  | body _ isGenerator => isGenerator

/-- Whether a node may stand in a scope. -/
def admits (scope : Scope) (mark : Mark) : Bool :=
  (!mark.awaits || scope.mayAwait) && (!mark.yields || scope.mayYield)

/-- The scope in one of so many slots of a node: a function has its body in the last one. -/
def below (scope : Scope) (mark : Mark) (count k : Nat) : Scope :=
  if mark.kind.isFunction then if k + 1 = count then mark.bodyScope else .head else scope

end Scope

namespace Tree
variable {α : Type}

mutual
/-- Whether each suspension point of a tree belongs to a function that it can pause, with the tree
standing in a scope. -/
def wellScoped (scope : Scope) : Tree α → Bool
  | .empty => true
  | .node _ mark slots =>
    scope.admits mark &&
      if mark.kind.isFunction then wellScopedParts mark.bodyScope slots
      else wellScopedAll scope slots
def wellScopedAll (scope : Scope) : List (Tree α) → Bool
  | [] => true
  | t :: rest => wellScoped scope t && wellScopedAll scope rest
/-- The slots of a function: the last one is its body. -/
def wellScopedParts (inner : Scope) : List (Tree α) → Bool
  | [] => true
  | [body] => wellScoped inner body
  | t :: t' :: rest => wellScoped .head t && wellScopedParts inner (t' :: rest)
end

theorem wellScopedAll_iff {scope : Scope} {slots : List (Tree α)} :
    wellScopedAll scope slots ↔ ∀ (k : Nat) (t : Tree α), slots[k]? = some t → t.wellScoped scope := by
  induction slots with
  | nil => simp [wellScopedAll]
  | cons t rest ih =>
    rw [wellScopedAll, Bool.and_eq_true, ih]
    constructor
    · rintro ⟨ht, hrest⟩ k u hk
      cases k with
      | zero => exact (Option.some.inj hk) ▸ ht
      | succ k => exact hrest k u hk
    · exact fun h => ⟨h 0 t rfl, fun k u hk => h (k + 1) u hk⟩

theorem wellScopedParts_iff {inner : Scope} {slots : List (Tree α)} :
    wellScopedParts inner slots ↔ ∀ (k : Nat) (t : Tree α), slots[k]? = some t →
      t.wellScoped (if k + 1 = slots.length then inner else .head) := by
  induction slots with
  | nil => simp [wellScopedParts]
  | cons t rest ih =>
    cases rest with
    | nil =>
      rw [wellScopedParts]
      constructor
      · intro ht k u hk
        cases k with
        | zero => exact (Option.some.inj hk) ▸ ht
        | succ k => cases hk
      · exact fun h => h 0 t rfl
    | cons t' rest =>
      rw [wellScopedParts, Bool.and_eq_true, ih]
      constructor
      · rintro ⟨ht, hrest⟩ k u hk
        cases k with
        | zero => exact (Option.some.inj hk) ▸ ht
        | succ k =>
          have := hrest k u hk
          simpa using this
      · intro h
        refine ⟨h 0 t rfl, fun k u hk => ?_⟩
        have := h (k + 1) u hk
        simpa using this

/-- A node is well scoped if it may stand in its scope, and so may what is in its slots. -/
theorem wellScoped_node {scope : Scope} {tag : α} {mark : Mark} {slots : List (Tree α)} :
    (node tag mark slots).wellScoped scope ↔ scope.admits mark ∧
      ∀ (k : Nat) (t : Tree α), slots[k]? = some t →
        t.wellScoped (scope.below mark slots.length k) := by
  rw [wellScoped, Bool.and_eq_true]
  refine and_congr_right fun _ => ?_
  cases h : mark.kind.isFunction with
  | true => simp only [if_true, wellScopedParts_iff, Scope.below, h]
  | false => simp only [Bool.false_eq_true, if_false, wellScopedAll_iff, Scope.below, h]

theorem wellScoped_of_not_function {scope : Scope} {tag : α} {mark : Mark} {slots : List (Tree α)}
    (h : mark.kind.isFunction = false) :
    (node tag mark slots).wellScoped scope ↔
      scope.admits mark ∧ ∀ t ∈ slots, t.wellScoped scope := by
  rw [wellScoped_node]
  refine and_congr_right fun _ => ?_
  simp only [Scope.below, h, Bool.false_eq_true, if_false, List.mem_iff_getElem?]
  exact ⟨fun hall t ⟨k, hk⟩ => hall k t hk, fun hall k t hk => hall t ⟨k, hk⟩⟩

end Tree

/-! ### Suspension points that are turned -/

theorem Scope.admits_function {mark : Mark} (scope : Scope) (h : mark.kind.isFunction = true) :
    scope.admits mark = true := by
  cases hk : mark.kind with
  | function kind => simp [admits, Mark.awaits, Mark.yields, Mark.isAsyncTry, hk]
  | _ => rw [hk] at h; cases h

/-- What is turned may pause a generator. -/
theorem Scope.admits_byYield (mark : Mark) : (Scope.body false true).admits mark.byYield = true := by
  have hawaits : mark.byYield.awaits = false := by
    unfold Mark.byYield
    split
    · rfl
    · rename_i hawait
      split
      · simp [Mark.awaits, Mark.isAsyncTry, hawait]
      · rename_i htry
        simp [Mark.awaits, Mark.isAsyncTry, hawait, htry]
  simp [admits, hawaits, mayYield]

namespace Tree
variable {α : Type} {scope : Scope}

/-- A function is well scoped in whatever scope it stands. -/
theorem wellScoped_function {tag : α} {mark : Mark} {slots : List (Tree α)}
    (h : mark.kind.isFunction = true) (hscoped : (node tag mark slots).wellScoped scope)
    (scope' : Scope) : (node tag mark slots).wellScoped scope' := by
  rw [wellScoped_node] at hscoped ⊢
  refine ⟨scope'.admits_function h, fun k t hk => ?_⟩
  have := hscoped.2 k t hk
  rwa [Scope.below, if_pos h] at this ⊢

theorem wellScoped_suspend {t : Tree α} (h : t.wellScoped scope) :
    t.suspend.wellScoped (.body false true) := by
  induction t with
  | empty => rfl
  | node tag mark slots ih =>
    cases hf : mark.kind.isFunction with
    | true =>
      rw [suspend_function hf]
      exact wellScoped_function hf h _
    | false =>
      rw [wellScoped_of_not_function hf] at h
      rw [suspend_node hf, wellScoped_of_not_function ((Mark.isFunction_byYield mark).trans hf)]
      refine ⟨Scope.admits_byYield mark, fun u hu => ?_⟩
      obtain ⟨t, ht, rfl⟩ := List.mem_map.mp hu
      exact ih t ht (h.2 t ht)

/-! ### Lowered nodes -/

theorem wellScoped_asBlock {fresh : Nat → α} {t : Tree α} (h : t.wellScoped scope) :
    (t.asBlock fresh).wellScoped scope := by
  cases t with
  | empty => rfl
  | node tag mark slots =>
    rw [asBlock]
    split
    · exact h
    · simpa [made, wellScoped, wellScopedAll, Payload.slots, Scope.admits, Mark.awaits, Mark.yields,
        Mark.isAsyncTry, Mark.made, Kind.isFunction] using h

/-- A trampoline may stand everywhere. -/
theorem wellScoped_trampoline {fresh : Nat → α} {tag : α} {text : String} {body : Tree α}
    {forwards : Bool} (h : body.wellScoped (.body false true)) (scope : Scope) :
    (trampoline fresh (.identifier tag text) body forwards).wellScoped scope := by
  cases forwards <;>
    simpa [trampoline, made, this, identifier, wellScoped, wellScopedAll, wellScopedParts,
      Payload.slots, Scope.admits, Mark.awaits, Mark.yields, Mark.isAsyncTry, Mark.made,
      Kind.isFunction, Mark.bodyScope, Payload.detail] using h

theorem wellScoped_lowerFunction {forBlock fresh : Nat → α} {reference tag : α} {text : String}
    {mark : Mark} {slots : List (Tree α)} (hmark : mark.isAsyncFunction = true)
    (h : (node tag mark slots).wellScoped scope) :
    (lowerFunction forBlock fresh (.identifier reference text)
      (node tag mark slots)).wellScoped scope := by
  have hfunction : mark.kind.isFunction = true := Mark.isFunction_of_isAsyncFunction hmark
  have hplain : mark.plain.kind.isFunction = true := by rw [mark.kind_plain, hfunction]
  rw [wellScoped_node] at h
  rw [lowerFunction, wellScoped_node]
  refine ⟨scope.admits_function hplain, fun k t hk => ?_⟩
  rcases List.eq_nil_or_concat slots with rfl | ⟨init, body, rfl⟩
  · cases hk
  · rw [List.concat_eq_append] at h hk ⊢
    rw [List.modifyLast_concat] at hk ⊢
    by_cases hlt : k < init.length
    · rw [List.getElem?_append_left hlt] at hk
      have hhead := h.2 k t (by rw [List.getElem?_append_left hlt, hk])
      have hne : k ≠ init.length := Nat.ne_of_lt hlt
      simpa [Scope.below, hfunction, hplain, hne] using hhead
    · rw [List.getElem?_append_right (Nat.le_of_not_lt hlt), List.getElem?_singleton] at hk
      split at hk
      · obtain rfl := Option.some.inj hk
        have hbody := h.2 init.length body (by simp)
        exact wellScoped_trampoline (wellScoped_suspend (wellScoped_asBlock hbody)) _
      · cases hk

/-- `await` may stand where `try await` may. -/
theorem wellScoped_lowerTry {fresh reference tag : α} {text : String} {mark : Mark}
    {slots : List (Tree α)} (hmark : mark.isAsyncTry = true)
    (h : (node tag mark slots).wellScoped scope) :
    (lowerTry fresh (.identifier reference text) (node tag mark slots)).wellScoped scope := by
  have hkind : mark.kind = .tryExpression := by
    rw [Mark.isAsyncTry, Bool.and_eq_true] at hmark
    exact beq_iff_eq.mp hmark.1
  rw [wellScoped_of_not_function (by rw [hkind]; rfl)] at h
  obtain ⟨hadmits, hslots⟩ := h
  have hawait : scope.mayAwait = true := by
    rw [Scope.admits, Mark.awaits, hmark, Bool.or_true, Bool.not_true, Bool.false_or,
      Bool.and_eq_true] at hadmits
    exact hadmits.1
  rw [lowerTry, wellScoped_of_not_function rfl]
  refine ⟨?_, List.forall_mem_singleton.mpr ?_⟩
  · simp [Scope.admits, hawait, Mark.yields]
  · rw [made, wellScoped_of_not_function rfl]
    exact ⟨rfl, List.forall_mem_cons.mpr ⟨rfl, hslots⟩⟩

end Tree

/-! ### Walks and runs -/

/-- What a visit does may be done in every scope. -/
def KeepsScopes (act : Tree NodeId → Tree NodeId → Prop) : Prop :=
  ∀ (scope : Scope) (t t' : Tree NodeId), act t t' → t.wellScoped scope → t'.wellScoped scope

theorem Wraps.keepsScopes (base : Nat) (localName : String) : KeepsScopes (Wraps base localName) := by
  intro scope t t' h hscoped
  cases h with
  | skip => exact hscoped
  | lower hasync => exact Tree.wellScoped_lowerFunction hasync hscoped

theorem Awaits.keepsScopes {base : Nat} {localName : String} :
    KeepsScopes (Awaits base localName) := by
  intro scope t t' h hscoped
  cases h with
  | skip => exact hscoped
  | lower hasync => exact Tree.wellScoped_lowerTry hasync hscoped

/-- **A walk keeps every scope that its visits keep**, wherever it ends. -/
theorem Walked.keepsScopes {act : Tree NodeId → Tree NodeId → Prop} (hact : KeepsScopes act)
    (complete : Bool) (depth : Nat) : KeepsScopes (Walked act complete depth) := by
  induction depth with
  | zero =>
    rintro scope t t' ⟨rfl, _⟩ hscoped
    exact hscoped
  | succ depth ih =>
    rintro scope t t' (⟨rfl, _⟩ | ⟨i, mark, slots, slots', hvisit, rfl, hslots⟩) hscoped
    · exact hscoped
    · obtain ⟨hadmits, hbelow⟩ := Tree.wellScoped_node.mp (hact scope _ _ hvisit hscoped)
      refine Tree.wellScoped_node.mpr ⟨hadmits, fun k u hk => ?_⟩
      obtain ⟨t, ht, hwalked⟩ := exists_of_forall₂ hslots.flip hk
      rw [← hslots.length_eq]
      exact ih _ t u hwalked (hbelow k t ht)

/-- **A run keeps a program well scoped**, with either strategy, whether it goes through or is
stopped by the depth limit. -/
theorem settle_wellScoped {store : Store} {root : NodeId} {p : Program}
    (hshape : store.TreeShaped root) (hp : Program.ofStore store root = .ok p) (options : Options) :
    ∃ complete p' t t', Ended p' complete (ProgramM.settle options p) ∧ p.tree? = some t ∧
      p'.tree? = some t' ∧ (t.wellScoped .file → t'.wellScoped .file) := by
  obtain ⟨mark, statements, h, _, htree⟩ := grounded_of_ofStore hshape hp
  have hfile : mark.kind.isFunction = false := by rw [h.kind]; rfl
  cases hstrategy : options.strategy with
  | wholeFunction method source =>
    obtain ⟨complete, w, statements', hended, hw, hgrown, hwalked⟩ := run_whole h method source
    rw [← hstrategy] at hended
    refine ⟨complete, w.program, _, _, settle_ended hended, htree, hw.tree h hgrown, fun hscoped => ?_⟩
    rw [Tree.wellScoped_of_not_function hfile] at hscoped ⊢
    refine ⟨hscoped.1, fun t ht => ?_⟩
    rcases mem_finalStatements.mp ht with ⟨_, rfl⟩ | ht
    · rfl
    · obtain ⟨k, hk⟩ := List.mem_iff_getElem?.mp ht
      obtain ⟨u, hu, hone⟩ := exists_of_forall₂ hwalked.flip hk
      exact Walked.keepsScopes (Wraps.keepsScopes _ _) complete (depthLimit - 1) .file u t hone
        (hscoped.2 u (List.mem_of_getElem? hu))
  | localExpression =>
    obtain ⟨complete, w, t', hended, htree', hwalked⟩ := run_local h
    rw [← hstrategy] at hended
    exact ⟨complete, w.program, _, t', settle_ended hended, htree, htree',
      Walked.keepsScopes Awaits.keepsScopes complete depthLimit .file _ t' hwalked⟩

theorem settle_wellScoped_nestedAsync :
    ∃ p complete p' t t', Program.ofStore .nestedAsync 8 = .ok p ∧
      Ended p' complete (ProgramM.settle ⟨some "wrap", some "runtime"⟩ p) ∧ p.tree? = some t ∧
      t.wellScoped .file ∧ p'.tree? = some t' ∧ t'.wellScoped .file := by
  obtain ⟨p, hp⟩ : ∃ p, Program.ofStore .nestedAsync 8 = .ok p := ⟨_, rfl⟩
  obtain ⟨complete, p', t, t', hended, ht, ht', hkept⟩ :=
    settle_wellScoped Store.treeShaped_nestedAsync hp ⟨some "wrap", some "runtime"⟩
  have hscoped : t.wellScoped .file := by
    cases hp
    cases ht
    decide
  exact ⟨p, complete, p', t, t', hp, hended, ht, hscoped, ht', hkept hscoped⟩

end Settle
