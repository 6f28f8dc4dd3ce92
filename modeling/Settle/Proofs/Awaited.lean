import Settle.Proofs.LocalExpression

/-! Lowering try expressions as a recursion.

The pass replaces a try expression while it stands on it, and then walks over what it
put there. What it comes to is one recursion over the tree of the file as it was
(`Tree.awaited`): every `try await e`, at whatever depth, becomes `await helper(e)` with
`e` treated alike. Old nodes are tagged with their ids in it and new ones with nothing, so
that the equation also says which node stays where (`settle_eq_awaited`). -/
namespace Settle

namespace Tree
variable {α β : Type}

/-! ### The recursion -/

mutual
/-- A tree in which what is tried is awaited through `localName`. New nodes get one tag. -/
def awaited (fresh : α) (localName : String) : Tree α → Tree α
  | .empty => .empty
  | .node tag mark slots =>
    if mark.isAsyncTry then
      lowerTry fresh (identifier fresh localName)
        (.node tag mark (awaitedAll fresh localName slots))
    else
      .node tag mark (awaitedAll fresh localName slots)
def awaitedAll (fresh : α) (localName : String) : List (Tree α) → List (Tree α)
  | [] => []
  | t :: rest => awaited fresh localName t :: awaitedAll fresh localName rest
end

/-- Whether there is a `try await e` in a tree. -/
def hasAsyncTry (t : Tree α) : Bool := t.nodes.any fun node => node.2.isAsyncTry

variable {fresh tag : α} {localName : String} {mark : Mark} {slots : List (Tree α)}

theorem awaitedAll_eq (fresh : α) (localName : String) (slots : List (Tree α)) :
    awaitedAll fresh localName slots = slots.map (awaited fresh localName) := by
  induction slots with
  | nil => rfl
  | cons t rest ih => rw [awaitedAll, ih, List.map_cons]

theorem awaited_of_asyncTry (h : mark.isAsyncTry = true) :
    (node tag mark slots).awaited fresh localName =
      lowerTry fresh (identifier fresh localName)
        (.node tag mark (slots.map (awaited fresh localName))) := by
  rw [awaited, if_pos h, awaitedAll_eq]

theorem awaited_of_not_asyncTry (h : mark.isAsyncTry = false) :
    (node tag mark slots).awaited fresh localName =
      .node tag mark (slots.map (awaited fresh localName)) := by
  rw [awaited, h, if_neg Bool.false_ne_true, awaitedAll_eq]

/-- The call that is awaited has the helper as it is, and what was tried treated alike. -/
theorem awaited_call (tag : α) (slots : List (Tree α)) :
    (made tag .call (.call ⟨identifier fresh localName, slots⟩)).awaited fresh localName =
      made tag .call (.call ⟨identifier fresh localName, slots.map (awaited fresh localName)⟩) := by
  rw [made, awaited_of_not_asyncTry rfl, Payload.slots, List.map_cons, identifier, made,
    awaited_of_not_asyncTry rfl]
  rfl

/-! ### Try expressions in trees -/

theorem hasAsyncTry_node (tag : α) (mark : Mark) (slots : List (Tree α)) :
    (node tag mark slots).hasAsyncTry = (mark.isAsyncTry || slots.any hasAsyncTry) := by
  rw [hasAsyncTry, nodes, nodesAll_eq, List.any_cons, List.any_flatMap]
  rfl

theorem hasAsyncTry_map (f : α → β) (t : Tree α) : (t.map f).hasAsyncTry = t.hasAsyncTry := by
  induction t with
  | empty => rfl
  | node tag mark slots ih =>
    rw [map_node, hasAsyncTry_node, hasAsyncTry_node, List.any_map]
    congr 1
    rw [Bool.eq_iff_iff, List.any_eq_true, List.any_eq_true]
    exact exists_congr fun t => and_congr_right fun ht => by rw [Function.comp_apply, ih t ht]

/-- Nothing is left to be awaited. -/
theorem hasAsyncTry_awaited (fresh : α) (localName : String) (t : Tree α) :
    (t.awaited fresh localName).hasAsyncTry = false := by
  induction t with
  | empty => rfl
  | node tag mark slots ih =>
    have hslots : (slots.map (awaited fresh localName)).any hasAsyncTry = false := by
      rw [List.any_map, List.any_eq_false]
      exact fun t ht => by simp [ih t ht]
    cases h : mark.isAsyncTry with
    | false => rw [awaited_of_not_asyncTry h, hasAsyncTry_node, h, hslots, Bool.false_or]
    | true =>
      rw [awaited_of_asyncTry h, lowerTry, hasAsyncTry_node, List.any_cons, made, hasAsyncTry_node,
        Payload.slots, List.any_cons, identifier, made, hasAsyncTry_node, hslots]
      rfl

/-! ### What becomes of a tree is what the recursion makes of it -/

/-- A node among those with ids below `base`. -/
def older (base : Nat) (i : NodeId) : Option NodeId := if i < base then some i else none

theorem older_of_le {base i : Nat} (h : base ≤ i) : older base i = none :=
  if_neg (Nat.not_lt_of_le h)

theorem older_of_lt {base i : Nat} (h : i < base) : older base i = some i := if_pos h

theorem map_congr {f g : α → β} {t : Tree α} (h : ∀ i ∈ t.tags, f i = g i) : t.map f = t.map g := by
  induction t with
  | empty => rfl
  | node tag mark slots ih =>
    rw [map_node, map_node, h tag (by simp)]
    refine congrArg _ (List.map_congr_left fun t ht => ih t ht fun i hi => h i ?_)
    rw [tags_node]
    exact List.mem_cons_of_mem _ (List.mem_flatMap.mpr ⟨t, ht, hi⟩)

end Tree

section Walked
variable {base depth : Nat} {localName : String} {t t' : Tree NodeId}

/-- A walk that goes through awaits every tree that it walks over. -/
theorem Walked.map_older (h : Walked (Awaits base localName) true depth t t') :
    t'.map (Tree.older base) = (t.map (Tree.older base)).awaited none localName := by
  induction depth generalizing t t' with
  | zero =>
    obtain ⟨rfl, hempty⟩ := h
    rw [hempty rfl]
    rfl
  | succ depth ih =>
    rcases h with ⟨rfl, hempty⟩ | ⟨i, mark, slots, slots', hact, rfl, hslots⟩
    · rw [hempty rfl]
      rfl
    · have hbelow := map_eq_map_map (hslots.imp fun _ _ => ih)
      cases hact with
      | skip hmark =>
        rw [Tree.map_node, Tree.map_node, Tree.awaited_of_not_asyncTry hmark, hbelow]
      | @lower _ reference fresh mark slots hmark hreference hfresh =>
        -- what was put in place of the tree has one slot, the call, and was walked over as well
        have hcall : (Tree.made fresh .call
            (.call ⟨.identifier reference localName, slots⟩)).map (Tree.older base) =
              .made none .call (.call ⟨.identifier none localName,
                slots.map (Tree.map (Tree.older base))⟩) := by
          rw [Tree.made, Tree.map_node, Tree.older_of_le hfresh, Payload.slots, List.map_cons,
            Tree.identifier, Tree.made, Tree.map_node, Tree.older_of_le hreference]
          rfl
        rw [List.map_singleton, hcall, List.map_singleton, Tree.awaited_call] at hbelow
        rw [Tree.map_node, hbelow, Tree.map_node, Tree.awaited_of_asyncTry hmark]
        rfl

end Walked

/-! ### Programs -/

section Run
open Store
variable {p p' : Program} {mark : Mark} {statements : List (Tree NodeId)}

/-- A file without `try await` is quiet. -/
theorem quiet_of_hasAsyncTry (h : p.Grounded mark statements)
    (htry : (Tree.node p.root mark statements).hasAsyncTry = false) :
    p.store.Quiet .localExpression p.root := by
  intro j hj kind hkind hmem
  obtain rfl : kind = .tryExpression := by simpa [Strategy.kinds] using hmem
  obtain ⟨mark', slots', hnode, hheld⟩ := h.held.subtree (h.held.mem_of_reaches (by simp) hj)
  have hmark : mark'.kind = .tryExpression :=
    Option.some.inj ((hheld.kind? rfl).symm.trans hkind)
  rw [isEligible_of_try h.sound hheld hmark]
  rw [Tree.hasAsyncTry, List.any_eq_false] at htry
  simpa using htry _ hnode

/-- The helper is registered by a run that goes through exactly if there is something to await. -/
theorem program_eq_of_hasAsyncTry (h : p.Grounded mark statements)
    (htree : p.tree? = some (.node p.root mark statements)) {w : Walk (Memo Unit)}
    {t' : Tree NodeId}
    (hended : Ended w true ((Pass.ofStrategy .localExpression Lowering.standard).visit depthLimit
      p.root ⟨p, {inner := ()}⟩))
    (hw : Trying p w) (htree' : w.program.tree? = some t')
    (hwalked : Walked (Awaits p.store.size p.tryName) true depthLimit (.node p.root mark statements)
      t') :
    w.program = {(if (Tree.node p.root mark statements).hasAsyncTry then p.withTry else p) with
      store := w.program.store} := by
  cases htry : (Tree.node p.root mark statements).hasAsyncTry with
  | false =>
    obtain ⟨complete, hquiet⟩ := @visit_quiet .localExpression ⟨p, {inner := ()}⟩ p.root depthLimit
      (quiet_of_hasAsyncTry h htry)
    generalize Pass.visit _ depthLimit p.root _ = result at hended hquiet
    cases hended
    cases hquiet
    rfl
  | true =>
    rcases hw.helped with hsame | hhelped
    · -- nothing was changed, so the file is what becomes of it, and that has nothing to await
      rw [hsame, htree] at htree'
      obtain rfl := Option.some.inj htree'
      have hnone := congrArg Tree.hasAsyncTry hwalked.map_older
      rw [Tree.hasAsyncTry_awaited, Tree.hasAsyncTry_map, htry] at hnone
      cases hnone
    · exact hhelped

/-- **A run that lowers try expressions leaves the tree that the recursion makes**, in the same
statements. Old nodes stand where they stood, new ones are pairwise different, and the helper is
registered if there is something to await. -/
theorem settle_eq_awaited {options : Options} {wrapper : Ref} (hshape : p.store.TreeShaped p.root)
    (hroot : p.store.kind? p.root = some .sourceFile) (hlocal : options.strategy = .localExpression)
    (hok : ProgramM.settle options p = .ok wrapper p') :
    p'.statements = p.statements ∧
      ∃ t t', p.tree? = some t ∧ p'.tree? = some t' ∧ t'.tags.Nodup ∧
        t'.map (Tree.older p.store.size) = (t.map some).awaited none p.tryName ∧
        (t.hasAsyncTry → p'.localName? Helper.tryAwait.name = some p.tryName) ∧
        (p.helpers = [] →
          p'.helpers = if t.hasAsyncTry then [(.tryAwait, p.tryName)] else []) := by
  obtain ⟨mark, statements, h, htree⟩ := grounded_of_treeShaped hshape hroot
  obtain ⟨complete, w, t', hended, hw, htree', hnodup, hwalked⟩ := run_awaiting h
  rw [settle_run, hlocal] at hok
  have hvisit := hended
  generalize Pass.visit _ depthLimit p.root _ = result at hvisit hok
  cases hvisit with
  | stopped => cases hok
  | whole =>
    cases hok
    have hprogram := program_eq_of_hasAsyncTry h htree hended hw htree' hwalked
    have hold : (Tree.node p.root mark statements).map (Tree.older p.store.size) =
        (Tree.node p.root mark statements).map some :=
      Tree.map_congr fun i hi => Tree.older_of_lt (h.held.lt_size i hi)
    refine ⟨hw.statements, _, t', htree, htree', hnodup,
      hold ▸ hwalked.map_older, fun htry => ?_, fun hnone => ?_⟩
    · rw [htry, if_pos rfl] at hprogram
      rw [hprogram]
      exact p.localName?_withTry
    · rw [hprogram]
      cases htry : (Tree.node p.root mark statements).hasAsyncTry with
      | false => simpa using hnone
      | true =>
        have hlocalName : p.localName? Helper.tryAwait.name = none := by
          rw [Program.localName?, hnone]
          rfl
        simp [Program.withTry_of_none hlocalName, hnone]

/-- `async () => try await g(try await a);`, whose file is node 7. -/
def Store.nestedTry : Store :=
  ({} : Store)
    |>.push .identifier 0 .zero (.identifier "a")
    |>.push .tryExpression 0 .zero (.tryExpression ⟨some 0, true, false⟩)
    |>.push .identifier 0 .zero (.identifier "g")
    |>.push .call 0 .zero (.call ⟨some 2, [some 1]⟩)
    |>.push .tryExpression 0 .zero (.tryExpression ⟨some 3, true, false⟩)
    |>.push (.function .arrow) 0 .zero (.function ⟨none, [], some 4, true, false⟩)
    |>.push .expressionStatement 0 .zero (.expressionStatement (some 5))
    |>.push .sourceFile 0 .zero (.sourceFile ⟨"f.js", [some 6]⟩)

theorem Store.treeShaped_nestedTry : nestedTry.TreeShaped 7 :=
  treeShaped_iff.mpr ⟨sound_empty.push 0 .zero rfl
    |>.push 0 .zero rfl |>.push 0 .zero rfl |>.push 0 .zero rfl |>.push 0 .zero rfl
    |>.push 0 .zero rfl |>.push 0 .zero rfl |>.push 0 .zero rfl, _, rfl, by decide⟩

theorem settle_eq_awaited_nestedTry :
    ∃ p wrapper p' t t', Program.ofStore .nestedTry 7 = .ok p ∧
      ProgramM.settle {} p = .ok wrapper p' ∧ p'.statements = p.statements ∧
      p.tree? = some t ∧ t.hasAsyncTry = true ∧ p'.tree? = some t' ∧ t'.tags.Nodup ∧
      t'.map (Tree.older p.store.size) = (t.map some).awaited none p.tryName ∧
      p'.helpers = [(.tryAwait, p.tryName)] := by
  obtain ⟨p, hp⟩ : ∃ p, Program.ofStore .nestedTry 7 = .ok p := ⟨_, rfl⟩
  obtain ⟨wrapper, p', hok⟩ : ∃ wrapper p', ProgramM.settle {} p = .ok wrapper p' := by
    cases hp
    exact exists_of_isOk (by decide +kernel)
  cases hp
  obtain ⟨hstatements, t, t', ht, ht', hnodup, hawaited, _, hhelpers⟩ :=
    settle_eq_awaited Store.treeShaped_nestedTry rfl rfl hok
  have htry : t.hasAsyncTry = true := by
    cases ht
    decide
  exact ⟨_, wrapper, p', t, t', rfl, hok, hstatements, ht, htry, ht', hnodup, hawaited,
    (hhelpers rfl).trans (by rw [htry]; rfl)⟩

end Run
end Settle
