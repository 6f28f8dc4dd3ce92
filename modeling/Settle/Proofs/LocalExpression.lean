import Settle.Proofs.WholeFunction

/-! Lowering try expressions where they stand, as a walk over trees.

A visit turns `try await e` into `await helper(e)` and leaves every other node
alone (`Awaits`). The helper is registered with the program and not imported, so
that the root is like any other node: the walk is one over the tree of the whole
file (`run_awaiting`). What a walk knows throughout (`Trying`) is that either nothing was
changed yet, or the helper is registered, under the same name for all references. -/
namespace Settle

/-- What a visit makes of the tree at a node, with new nodes from `base` on: an async try expression
is lowered through a reference to the helper, everything else stays. -/
inductive Awaits (base : Nat) (localName : String) : Tree NodeId → Tree NodeId → Prop where
  | skip {i : NodeId} {mark : Mark} {slots : List (Tree NodeId)} (h : mark.isAsyncTry = false) :
      Awaits base localName (.node i mark slots) (.node i mark slots)
  | lower {i reference fresh : NodeId} {mark : Mark} {slots : List (Tree NodeId)}
      (h : mark.isAsyncTry = true) (hr : base ≤ reference) (hf : base ≤ fresh) :
      Awaits base localName (.node i mark slots)
        (Tree.lowerTry fresh (.identifier reference localName) (.node i mark slots))

/-! ### The helper -/

namespace Program

/-- The local name of the try helper: the one it has, or the one it is about to get. -/
def tryName (p : Program) : String :=
  (p.localName? Helper.tryAwait.name).getD (p.names.fresh Helper.tryAwait.name).1

/-- The program with the try helper registered. -/
def withTry (p : Program) : Program :=
  if (p.localName? Helper.tryAwait.name).isSome then p
  else {p with
    helpers := p.helpers ++ [(.tryAwait, p.tryName)]
    names := (p.names.fresh Helper.tryAwait.name).2}

variable {p q : Program} {localName : String}

theorem withTry_of_some (h : p.localName? Helper.tryAwait.name = some localName) :
    p.withTry = p := by
  rw [withTry, h]
  rfl

theorem withTry_of_none (h : p.localName? Helper.tryAwait.name = none) :
    p.withTry = {p with
      helpers := p.helpers ++ [(.tryAwait, p.tryName)]
      names := (p.names.fresh Helper.tryAwait.name).2} := by
  rw [withTry, h]
  rfl

theorem localName?_withTry (p : Program) :
    p.withTry.localName? Helper.tryAwait.name = some p.tryName := by
  cases h : p.localName? Helper.tryAwait.name with
  | some localName => rw [withTry_of_some h, tryName, h, Option.getD_some]
  | none =>
    rw [withTry_of_none h]
    rw [localName?, Option.map_eq_none_iff] at h
    rw [localName?, List.find?_append, h]
    rfl

theorem root_withTry (p : Program) : p.withTry.root = p.root := by
  unfold withTry
  split <;> rfl

end Program

/-- Nothing was changed yet, or the try helper is registered. -/
def Helped (p q : Program) : Prop := q = p ∨ q = {p.withTry with store := q.store}

/-- A reference to the try helper goes by the same name throughout. -/
theorem Helped.reference_run {p q : Program} (h : Helped p q) (hs : q.store.Sound) :
    ∃ s', ProgramM.useHelper Helper.tryAwait.name q =
        .ok q.store.size {p.withTry with store := s'} ∧
      Store.Revision q.store s' Store.keep [ProgramM.identifierNode p.tryName] := by
  obtain ⟨s', localName, helpers, names, hrun, hrev, hname⟩ := ProgramM.useHelper_run hs
  rcases h with rfl | hq
  · rcases hname with ⟨hsome, rfl, rfl⟩ | ⟨hnone, rfl, hfresh⟩
    · have hlocal : q.tryName = localName := by rw [Program.tryName, hsome, Option.getD_some]
      rw [hlocal, Program.withTry_of_some hsome]
      exact ⟨s', hrun, hrev⟩
    · have hlocal : q.tryName = localName := by
        rw [Program.tryName, hnone, Option.getD_none, hfresh]
      rw [Program.withTry_of_none hnone, hlocal, hfresh]
      exact ⟨s', hrun, hrev⟩
  · have hlocal : q.localName? Helper.tryAwait.name = some p.tryName := by
      rw [hq]
      exact p.localName?_withTry
    rcases hname with ⟨hsome, rfl, rfl⟩ | ⟨hnone, _, _⟩
    · obtain rfl := Option.some.inj (hlocal.symm.trans hsome)
      refine ⟨s', hrun.trans ?_, hrev⟩
      rw [hq]
    · rw [hlocal] at hnone
      cases hnone

section Walks
open Store
variable {p : Program} {t : Tree NodeId} {σ : Type}

/-- What is known throughout a walk that uses the try helper and leaves the file itself alone. -/
structure Trying (p : Program) (w : Walk (Memo σ)) : Prop where
  sound : w.program.store.Sound
  helped : Helped p w.program
  grows : p.store.size ≤ w.program.store.size
  file : w.program.store.node? p.root = p.store.node? p.root
  wrapper : w.state.wrapper = none

theorem Trying.root {w : Walk (Memo σ)} (h : Trying p w) : w.program.root = p.root := by
  rcases h.helped with hsame | hhelped
  · rw [hsame]
  · rw [hhelped]
    exact p.root_withTry

theorem Trying.statements {w : Walk (Memo σ)} (h : Trying p w) :
    w.program.statements = p.statements := by
  rw [Program.statements, Program.statements, h.root, payload?_eq, h.file, ← payload?_eq]

theorem isEligible_of_try {s : Store} (hs : s.Sound) {i : NodeId} {mark : Mark}
    {slots : List (Tree NodeId)} (h : s.Holds (.node i mark slots))
    (hkind : mark.kind = .tryExpression) : s.isEligible i = mark.isAsyncTry := by
  obtain ⟨node, there, rfl, _, _⟩ := holds_node_iff.mp h
  obtain ⟨payload, hpayload, hform⟩ := hs.payload_of_node? there
    (by rw [show node.kind = .tryExpression from hkind]; rfl)
  rw [show node.kind = .tryExpression from hkind] at hform
  cases payload with
  | tryExpression parts =>
    rw [isEligible_of_node? there, Node.isEligible, hpayload, Mark.isAsyncTry, hkind]
    simp only [Node.mark, hpayload, Option.map_some, Payload.detail]
    cases parts.isAsync <;> cases parts.isGenerator <;> rfl
  | _ => cases hform

/-- **Each visit awaits** what was tried at its node. -/
theorem acts_awaits {parts : FileParts Ref} (hp : p.Ready parts) :
    Acts (Pass.ofStrategy .localExpression (Lowering.standard : Lowering Unit)) (fun _ => False)
      (Trying p) (Awaits p.store.size p.tryName) where
  visited := by
    intro w i mark slots visitor hw hplanted hvisitor
    have hheld := hplanted.holds _ List.mem_cons_self
    rw [visitor?_ofStrategy] at hvisitor
    split at hvisitor
    · rename_i hmem
      obtain rfl := Option.some.inj hvisitor
      have hkind : mark.kind = .tryExpression := by simpa [Strategy.kinds] using hmem
      have heligible := isEligible_of_try hw.sound hheld hkind
      cases hasync : mark.isAsyncTry with
      | false =>
        rw [hasync] at heligible
        exact ⟨w, mark, slots, Pass.visitTry_skip _ heligible, hw, .skip hasync, .refl hplanted⟩
      | true =>
        rw [hasync] at heligible
        obtain ⟨s₁, hrun, hrev⟩ := hw.helped.reference_run hw.sound
        have hframe : ∀ j : Nat, j < w.program.store.size → ¬False →
            s₁.node? j = w.program.store.node? j := fun j hj _ => hrev.old_of_keep hj
        have hhelper : Planted (fun _ => False) s₁
            [.identifier w.program.store.size p.tryName] :=
          ⟨List.forall_mem_singleton.mpr (holds_made (hrev.new 0 _ rfl) rfl rfl
            fun t ht => absurd ht List.not_mem_nil), List.nodup_singleton _, fun _ _ h => h⟩
        have hnew : ∀ j ∈ (Tree.identifier w.program.store.size p.tryName).tags,
            w.program.store.size ≤ j := fun j hj => (List.mem_singleton.mp hj) ▸ Nat.le_refl _
        have hbeside := hplanted.beside hframe hhelper hnew
        obtain ⟨tried, s', hpayload, hlower, hrebuilt⟩ :=
          lowerTry_tree hrev.sound hbeside (fun _ _ h => h) hkind
        have hkind₁ : s₁.kind? i = some .tryExpression :=
          ((hbeside.holds _ List.mem_cons_self).kind? rfl).trans (congrArg some hkind)
        obtain ⟨file, hfile, hkindfile, _⟩ := hp.exists_node
        have hfile₁ : s₁.node? p.root = some file := by
          rw [hrev.old_of_keep (Nat.lt_of_lt_of_le hp.root_lt hw.grows), hw.file, hfile]
        let named : Program := {p.withTry with store := s₁}
        refine ⟨{w with program := {named with store := s'}}, _, _,
          Pass.visitTry_ok heligible hrun
            (@ProgramM.lower_try named _ _ _ _ hkind₁ hpayload hlower),
          ⟨hrebuilt.sound, .inr rfl, ?_, ?_, hw.wrapper⟩,
          .lower hasync hw.grows (Nat.le_trans hw.grows hrev.grows),
          hrebuilt.grown hrev.grows hframe hnew rfl⟩
        · exact Nat.le_trans hw.grows (Nat.le_trans hrev.grows hrebuilt.grows)
        · exact (hrebuilt.inert p.root file hfile₁ (by rw [hkindfile]; rfl)).trans hfile.symm
    · cases hvisitor
  skipped := by
    intro i mark slots hvisitor
    rw [visitor?_ofStrategy] at hvisitor
    split at hvisitor
    · cases hvisitor
    · rename_i hmem
      refine .skip ?_
      have hkind : mark.kind ≠ .tryExpression := by simpa [Strategy.kinds] using hmem
      rw [Mark.isAsyncTry, beq_eq_false_iff_ne.mpr hkind, Bool.false_and]

/-- A run that lowers try expressions where they stand awaits the tree of the file. -/
theorem run_awaiting {mark : Mark} {statements : List (Tree NodeId)}
    (h : p.Grounded mark statements) :
    ∃ complete w t', Ended w complete
        ((Pass.ofStrategy .localExpression Lowering.standard).visit depthLimit p.root
          ⟨p, {inner := ()}⟩) ∧
      Trying p w ∧ w.program.tree? = some t' ∧ t'.tags.Nodup ∧
      Walked (Awaits p.store.size p.tryName) complete depthLimit (.node p.root mark statements)
        t' := by
  obtain ⟨parts, hready, _⟩ := h.exists_ready
  have hplanted : Planted (fun _ => False) p.store [.node p.root mark statements] :=
    ⟨List.forall_mem_singleton.mpr h.held, by simpa [-Tree.tags_node] using h.nodup, fun _ _ h => h⟩
  obtain ⟨complete, w, t', hended, hw, hgrown, hwalked⟩ := walk_node (acts_awaits hready)
    (walk_forest (acts_awaits hready) (depthLimit - 1)) (w := ⟨p, {inner := ()}⟩)
    ⟨h.sound, .inl rfl, Nat.le_refl _, rfl, rfl⟩ hplanted
  have hroot : t'.ref = some p.root := by simpa using hgrown.refs
  have hnodup := hgrown.planted.nodup
  rw [List.flatMap_singleton] at hnodup
  refine ⟨complete, w, t', hended, hw, ?_, hnodup, hwalked⟩
  rw [Program.tree?, hw.root, ← hroot]
  exact (hgrown.planted.holds t' List.mem_cons_self).tree?_size hnodup

theorem run_local {mark : Mark} {statements : List (Tree NodeId)} (h : p.Grounded mark statements) :
    ∃ complete w t', Ended w complete
        ((Pass.ofStrategy .localExpression Lowering.standard).visit depthLimit p.root
          ⟨p, {inner := ()}⟩) ∧
      w.program.tree? = some t' ∧
      Walked (Awaits p.store.size p.tryName) complete depthLimit (.node p.root mark statements)
        t' := by
  obtain ⟨complete, w, t', hended, _, htree, _, hwalked⟩ := run_awaiting h
  exact ⟨complete, w, t', hended, htree, hwalked⟩

end Walks
end Settle
