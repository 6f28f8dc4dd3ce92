import Settle.Proofs.WholeFunction

/-! What a complete walk makes of a tree when whole functions are lowered.

The walk goes top down: a function is lowered while the functions in its body are
still as they were, and its body is made to pause a generator before the walk
enters it. `Wrapped.induct` turns this into a recursion over the tree as it was:
what becomes of a tree is said in terms of what becomes of the trees in its
slots, some of them to be read with their suspension points turned. -/
namespace Settle

namespace Tree
variable {α : Type}

/-- A tree as it is, or with its own suspension points made to pause a generator. -/
def suspendIf (own : Bool) (t : Tree α) : Tree α := if own then t.suspend else t

@[simp]
theorem suspendIf_false (t : Tree α) : t.suspendIf false = t := rfl

@[simp]
theorem suspendIf_true (t : Tree α) : t.suspendIf true = t.suspend := rfl

theorem suspendIf_node (own : Bool) (tag : α) (mark : Mark) (slots : List (Tree α)) :
    (node tag mark slots).suspendIf own =
      .node tag (if own && !mark.kind.isFunction then mark.byYield else mark)
        (slots.map (suspendIf (own && !mark.kind.isFunction))) := by
  have hsame : slots.map (suspendIf false) = slots := List.map_id' slots
  cases own with
  | false => rw [suspendIf_false, Bool.false_and, hsame, if_neg Bool.false_ne_true]
  | true =>
    cases h : mark.kind.isFunction with
    | true => simp only [suspendIf_true, suspend_function h, Bool.not_true, Bool.and_false, hsame,
        Bool.false_eq_true, if_false]
    | false => simp only [suspendIf_true, suspend_node h, Bool.not_false, Bool.and_self, if_true,
        show (suspendIf true : Tree α → Tree α) = suspend from funext suspendIf_true]

end Tree

/-- What a complete walk makes of a tree whose suspension points may have been turned before. -/
def Wrapped (base : Nat) (localName : String) (own : Bool) (depth : Nat) (t t' : Tree NodeId) :
    Prop :=
  Walked (Wraps base localName) true depth (t.suspendIf own) t'

section Wrapped
variable {base : Nat} {localName : String} {depth : Nat} {i : NodeId} {mark : Mark}
  {slots : List (Tree NodeId)} {t t' : Tree NodeId}

/-! ### The walk over new nodes -/

theorem Walked.of_skip (h : Walked (Wraps base localName) true depth (.node i mark slots) t')
    (hmark : mark.isAsyncFunction = false) :
    ∃ depth' slots', depth = depth' + 1 ∧ t' = .node i mark slots' ∧
      List.Forall₂ (Walked (Wraps base localName) true depth') slots slots' := by
  cases depth with
  | zero => cases h.2 rfl
  | succ depth =>
    rcases h with ⟨_, hempty⟩ | ⟨j, mark', slots₁, slots', hact, rfl, hslots⟩
    · cases hempty rfl
    · generalize hresult : Tree.node j mark' slots₁ = result at hact
      cases hact with
      | skip _ =>
        cases hresult
        exact ⟨depth, slots', rfl, rfl, hslots⟩
      | lower hasync _ _ _ =>
        rw [hmark] at hasync
        cases hasync

theorem Walked.of_lower (h : Walked (Wraps base localName) true depth (.node i mark slots) t')
    (hmark : mark.isAsyncFunction = true) :
    ∃ depth' reference forBlock fresh slots', depth = depth' + 1 ∧
      t' = .node i mark.plain slots' ∧ base ≤ reference ∧ (∀ k, base ≤ forBlock k) ∧
      (∀ k, base ≤ fresh k) ∧
      List.Forall₂ (Walked (Wraps base localName) true depth')
        (slots.modifyLast (Tree.loweredBody forBlock fresh (.identifier reference localName)
          (mark.kind != .function .arrow))) slots' := by
  cases depth with
  | zero => cases h.2 rfl
  | succ depth =>
    rcases h with ⟨_, hempty⟩ | ⟨j, mark', slots₁, slots', hact, rfl, hslots⟩
    · cases hempty rfl
    · generalize hresult : Tree.node j mark' slots₁ = result at hact
      cases hact with
      | skip hsync =>
        rw [hmark] at hsync
        cases hsync
      | @lower _ reference _ _ forBlock fresh _ hr hb hf =>
        cases hresult
        exact ⟨depth, reference, forBlock, fresh, slots', rfl, rfl, hr, hb, hf, hslots⟩

/-- A new node over one tree. -/
theorem Walked.made_one {kind : Kind} {payload : Payload (Tree NodeId)}
    (h : Walked (Wraps base localName) true depth (.made i kind payload) t')
    (hslots : payload.slots = [t]) (hkind : kind.isFunction = false) :
    ∃ depth' u, depth = depth' + 1 ∧ t' = .node i (.made kind payload) [u] ∧
      Walked (Wraps base localName) true depth' t u := by
  obtain ⟨depth', slots', rfl, rfl, hall⟩ := h.of_skip (by
    rw [Mark.isAsyncFunction, Mark.made, hkind, Bool.false_and])
  rw [hslots] at hall
  obtain _ | ⟨hu, _ | _⟩ := hall
  exact ⟨depth', _, rfl, rfl, hu⟩

theorem Walked.leaf (h : Walked (Wraps base localName) true depth (.node i mark []) t')
    (hmark : mark.isAsyncFunction = false) : t' = .node i mark [] := by
  obtain ⟨_, slots', _, rfl, hall⟩ := h.of_skip hmark
  cases hall
  rfl

theorem Walked.empty_eq (h : Walked (Wraps base localName) true depth .empty t') : t' = .empty := by
  cases depth with
  | zero => exact h.1
  | succ depth =>
    rcases h with ⟨rfl, _⟩ | ⟨_, _, _, _, hact, _⟩
    · rfl
    · cases hact

/-- Of a trampoline only the body is not new. -/
theorem Walked.trampoline {fresh : Nat → NodeId} {reference : NodeId} {body : Tree NodeId}
    {forwards : Bool} (h : Walked (Wraps base localName) true depth
      (.trampoline fresh (.identifier reference localName) body forwards) t') :
    ∃ depth' body', depth' < depth ∧ Walked (Wraps base localName) true depth' body body' ∧
      t' = .trampoline fresh (.identifier reference localName) body' forwards := by
  obtain ⟨_, _, rfl, rfl, hresult⟩ := h.made_one rfl rfl
  obtain ⟨_, _, rfl, rfl, hinvoke⟩ := hresult.made_one rfl rfl
  obtain ⟨_, _, rfl, rfl, hparts⟩ := hinvoke.of_skip rfl
  obtain _ | ⟨hcallee, hpassed⟩ := hparts
  obtain ⟨_, _, rfl, rfl, hsides⟩ := hcallee.of_skip rfl
  obtain _ | ⟨hwrapped, _ | ⟨hmethod, _ | _⟩⟩ := hsides
  obtain ⟨_, _, rfl, rfl, hhelped⟩ := hwrapped.of_skip rfl
  obtain _ | ⟨hhelper, _ | ⟨hgenerator, _ | _⟩⟩ := hhelped
  obtain ⟨depth', _, rfl, rfl, hinner⟩ := hgenerator.of_skip rfl
  obtain _ | ⟨hname, _ | ⟨hbody, _ | _⟩⟩ := hinner
  obtain rfl := hname.empty_eq
  obtain rfl := hhelper.leaf rfl
  obtain rfl := hmethod.leaf rfl
  refine ⟨depth', _, by omega, hbody, ?_⟩
  obtain _ | ⟨hreceiver, hrest⟩ := hpassed
  obtain rfl := hreceiver.leaf rfl
  cases forwards with
  | true =>
    obtain _ | ⟨harguments, _ | _⟩ := hrest
    obtain rfl := harguments.leaf rfl
    rfl
  | false =>
    cases hrest
    rfl

/-! ### The walk over a body made a block -/

theorem Walked.kind? (h : Walked (Wraps base localName) true depth t t') : t'.kind? = t.kind? := by
  cases t with
  | empty => rw [h.empty_eq]
  | node i mark slots =>
    cases hmark : mark.isAsyncFunction with
    | false =>
      obtain ⟨_, _, _, rfl, _⟩ := h.of_skip hmark
      rfl
    | true =>
      obtain ⟨_, _, _, _, _, _, rfl, _⟩ := h.of_lower hmark
      exact congrArg some mark.kind_plain

theorem kind?_suspend_eq_block (t : Tree NodeId) :
    t.suspend.kind? = some .block ↔ t.kind? = some .block := by
  cases t with
  | empty => exact Iff.rfl
  | node i mark slots =>
    cases h : mark.kind.isFunction with
    | true => rw [Tree.suspend_function h]
    | false =>
      rw [Tree.suspend_node h, Tree.kind?, Tree.kind?, Option.some.injEq, Option.some.injEq]
      exact Mark.byYield_kind_eq_block

theorem Walked.asBlock {forBlock : Nat → NodeId} {body : Tree NodeId}
    (h : Walked (Wraps base localName) true depth (body.asBlock forBlock).suspend t') :
    ∃ depth' body', depth' ≤ depth ∧ Wrapped base localName true depth' body body' ∧
      t' = body'.asBlock forBlock := by
  cases body with
  | empty =>
    obtain rfl := Walked.leaf h rfl
    exact ⟨depth, .empty, Nat.le_refl _, .empty true depth, rfl⟩
  | node i mark slots =>
    by_cases hblock : mark.kind = .block
    · have hkind : (Tree.node i mark slots).kind? = some .block := congrArg some hblock
      rw [Tree.asBlock_of_block forBlock hkind] at h
      refine ⟨depth, t', Nat.le_refl _, h, (Tree.asBlock_of_block forBlock ?_).symm⟩
      rw [h.kind?]
      exact (kind?_suspend_eq_block _).mpr hkind
    · rw [Tree.asBlock_of_ne_block forBlock rfl hblock] at h
      have hsuspended : (Tree.made (forBlock 1) .block (.block [.made (forBlock 0) .returnStatement
          (.returnStatement (.node i mark slots))])).suspend = .made (forBlock 1) .block
            (.block [.made (forBlock 0) .returnStatement
              (.returnStatement (Tree.node i mark slots).suspend)]) := rfl
      rw [hsuspended] at h
      obtain ⟨_, _, rfl, rfl, hresult⟩ := h.made_one rfl rfl
      obtain ⟨depth', body', rfl, rfl, hbody⟩ := hresult.made_one rfl rfl
      refine ⟨depth', body', by omega, hbody, ?_⟩
      -- the result of the expression is no block either, so it is returned in the same way
      have hnot : body'.kind? ≠ some .block := fun hkind => by
        rw [hbody.kind?, kind?_suspend_eq_block] at hkind
        exact hblock (Option.some.inj hkind)
      cases hbody' : body'.kind? with
      | none =>
        have hsome := hbody.kind?
        rw [hbody', Tree.suspend] at hsome
        split at hsome <;> cases hsome
      | some kind =>
        rw [Tree.asBlock_of_ne_block forBlock hbody' (fun hk => hnot (hk ▸ hbody'))]
        rfl

/-! ### Induction over what becomes of a tree -/

theorem Wrapped.node_keep {own : Bool} (h : Wrapped base localName own depth (.node i mark slots) t')
    (hmark : mark.isAsyncFunction = false) :
    ∃ depth' slots', depth' < depth ∧
      t' = .node i (if own && !mark.kind.isFunction then mark.byYield else mark) slots' ∧
      List.Forall₂ (Wrapped base localName (own && !mark.kind.isFunction) depth') slots slots' := by
  rw [Wrapped, Tree.suspendIf_node] at h
  obtain ⟨depth', slots', rfl, rfl, hall⟩ := h.of_skip (by
    split
    · rename_i hown
      rw [Bool.and_eq_true, Bool.not_eq_true'] at hown
      rw [Mark.isAsyncFunction, Mark.isFunction_byYield, hown.2, Bool.false_and]
    · exact hmark)
  rw [List.forall₂_map_left_iff] at hall
  exact ⟨depth', slots', by omega, rfl, hall⟩

theorem Wrapped.node_lower {own : Bool} {init : List (Tree NodeId)} {body : Tree NodeId}
    (h : Wrapped base localName own depth (.node i mark (init ++ [body])) t')
    (hmark : mark.isAsyncFunction = true) :
    ∃ depth₁ depth₂ reference forBlock fresh init' body', depth₁ < depth ∧ depth₂ < depth ∧
      base ≤ reference ∧ (∀ k, base ≤ forBlock k) ∧ (∀ k, base ≤ fresh k) ∧
      t' = .node i mark.plain (init' ++ [.trampoline fresh (.identifier reference localName)
        (body'.asBlock forBlock) ((mark.kind != .function .arrow) || body.mentionsArguments)]) ∧
      List.Forall₂ (Wrapped base localName false depth₁) init init' ∧
      Wrapped base localName true depth₂ body body' := by
  have hfunction := Mark.isFunction_of_isAsyncFunction hmark
  have hsame : (Tree.node i mark (init ++ [body])).suspendIf own = .node i mark (init ++ [body]) := by
    cases own with
    | false => rfl
    | true => exact Tree.suspend_function hfunction
  rw [Wrapped, hsame] at h
  obtain ⟨depth₁, reference, forBlock, fresh, slots', rfl, rfl, hr, hb, hf, hall⟩ := h.of_lower hmark
  rw [List.modifyLast_concat] at hall
  obtain ⟨init', last, hinit, hlast, rfl⟩ := forall₂_append_left hall
  obtain _ | ⟨htrampoline, _ | _⟩ := hlast
  obtain ⟨depth₂, block, hlt, hblock, rfl⟩ := Walked.trampoline htrampoline
  obtain ⟨depth₃, body', hle, hbody, rfl⟩ := hblock.asBlock
  exact ⟨depth₁, depth₃, reference, forBlock, fresh, init', body', by omega, by omega, hr, hb, hf,
    rfl, hinit, hbody⟩

/-- **Induction over what becomes of a tree.** A node that is not lowered keeps its place, with what
becomes of its slots; a lowered function gets a trampoline for what becomes of its body. -/
theorem Wrapped.induct {motive : Bool → Tree NodeId → Tree NodeId → Prop}
    (empty : ∀ own, motive own .empty .empty)
    (keep : ∀ own i mark slots slots', mark.isAsyncFunction = false →
      List.Forall₂ (motive (own && !mark.kind.isFunction)) slots slots' →
      motive own (.node i mark slots)
        (.node i (if own && !mark.kind.isFunction then mark.byYield else mark) slots'))
    (bare : ∀ own i mark, mark.isAsyncFunction = true →
      motive own (.node i mark []) (.node i mark.plain []))
    (lower : ∀ own i mark init body init' body' reference forBlock fresh,
      mark.isAsyncFunction = true → base ≤ reference → (∀ k, base ≤ forBlock k) →
      (∀ k, base ≤ fresh k) → List.Forall₂ (motive false) init init' → motive true body body' →
      motive own (.node i mark (init ++ [body])) (.node i mark.plain
        (init' ++ [.trampoline fresh (.identifier reference localName) (body'.asBlock forBlock)
          ((mark.kind != .function .arrow) || body.mentionsArguments)])))
    {own : Bool} (h : Wrapped base localName own depth t t') : motive own t t' := by
  induction depth using Nat.strongRecOn generalizing own t t' with
  | _ depth ih =>
    cases t with
    | empty =>
      have hempty : t' = .empty := by
        cases own <;> exact Walked.empty_eq h
      rw [hempty]
      exact empty own
    | node i mark slots =>
      cases hmark : mark.isAsyncFunction with
      | false =>
        obtain ⟨depth', slots', hlt, rfl, hall⟩ := h.node_keep hmark
        exact keep own i mark slots slots' hmark (hall.imp fun _ _ => ih depth' hlt)
      | true =>
        rcases List.eq_nil_or_concat slots with rfl | ⟨init, body, rfl⟩
        · have hfunction := Mark.isFunction_of_isAsyncFunction hmark
          have hsame : (Tree.node i mark []).suspendIf own = .node i mark [] := by
            cases own with
            | false => rfl
            | true => exact Tree.suspend_function hfunction
          rw [Wrapped, hsame] at h
          obtain ⟨_, _, _, _, _, _, rfl, _, _, _, hall⟩ := h.of_lower hmark
          cases hall
          exact bare own i mark hmark
        · rw [List.concat_eq_append] at h ⊢
          obtain ⟨depth₁, depth₂, reference, forBlock, fresh, init', body', hlt₁, hlt₂, hr, hb, hf,
            rfl, hinit, hbody⟩ := h.node_lower hmark
          exact lower own i mark init body init' body' reference forBlock fresh hmark hr hb hf
            (hinit.imp fun _ _ => ih depth₁ hlt₁) (ih depth₂ hlt₂ hbody)

end Wrapped
end Settle
