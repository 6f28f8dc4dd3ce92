import Settle.Proofs.Wrapped

/-! Lowering whole functions as a recursion.

The pass changes a store in place, from the top down, and makes the import on the
way. What it comes to can be said without any of that: `Tree.lower` is a structural
recursion over the tree of the file as it was, and `Tree.settled` adds the import.
A run that does not stop leaves exactly that tree (`settle_eq_settled`). -/
namespace Settle

namespace Tree

/-! ### The recursion -/

mutual
/-- A tree with its async functions lowered through `localName`. Whether its own suspension points
pause a generator depends on the function they belong to. -/
def lower (localName : String) (own : Bool) : Tree Unit → Tree Unit
  | .empty => .empty
  | .node tag mark slots =>
    if mark.isAsyncFunction then
      .node tag mark.plain (lowerParts localName (mark.kind != .function .arrow) slots)
    else if mark.kind.isFunction then
      .node tag mark (lowerAll localName false slots)
    else
      .node tag (if own then mark.byYield else mark) (lowerAll localName own slots)
def lowerAll (localName : String) (own : Bool) : List (Tree Unit) → List (Tree Unit)
  | [] => []
  | t :: rest => lower localName own t :: lowerAll localName own rest
/-- The slots of an async function: the last one is its body. -/
def lowerParts (localName : String) (binds : Bool) : List (Tree Unit) → List (Tree Unit)
  | [] => []
  | [body] =>
    [trampoline (fun _ => ()) (identifier () localName)
      (asBlock (fun _ => ()) (lower localName true body)) (binds || body.mentionsArguments)]
  | t :: t' :: rest => lower localName false t :: lowerParts localName binds (t' :: rest)
end

/-- Whether there is an async function in a tree. -/
def hasAsyncFunction {α : Type} (t : Tree α) : Bool := t.nodes.any fun node => node.2.isAsyncFunction

/-- A file with its async functions lowered through an import, which stands after the imports that
the file begins with. Without async functions there is none. -/
def settled (method localName source : String) : Tree Unit → Tree Unit
  | .empty => .empty
  | .node tag mark statements =>
    .node tag mark
      (if (node tag mark statements).hasAsyncFunction then
        afterImports (importing (fun _ => ()) method localName source) statements
          (lowerAll localName false statements)
      else
        lowerAll localName false statements)

theorem lowerAll_eq (localName : String) (own : Bool) (slots : List (Tree Unit)) :
    lowerAll localName own slots = slots.map (lower localName own) := by
  induction slots with
  | nil => rfl
  | cons t rest ih => rw [lowerAll, ih, List.map_cons]

theorem lowerParts_concat (localName : String) (binds : Bool) (init : List (Tree Unit))
    (body : Tree Unit) :
    lowerParts localName binds (init ++ [body]) =
      init.map (lower localName false) ++
        [trampoline (fun _ => ()) (identifier () localName)
          (asBlock (fun _ => ()) (lower localName true body)) (binds || body.mentionsArguments)] := by
  induction init with
  | nil => rfl
  | cons t rest ih =>
    cases rest with
    | nil => rfl
    | cons t' rest =>
      rw [List.cons_append, List.cons_append, lowerParts, ← List.cons_append, ih, List.map_cons]
      rfl

/-! ### Trees without tags -/

variable {α : Type}

theorem mentionsArguments_erase (t : Tree α) : t.erase.mentionsArguments = t.mentionsArguments := by
  induction t with
  | empty => rfl
  | node tag mark slots ih =>
    have hany : (slots.map erase).any mentionsArguments = slots.any mentionsArguments := by
      rw [List.any_map, Bool.eq_iff_iff, List.any_eq_true, List.any_eq_true]
      exact exists_congr fun t => and_congr_right fun ht => by rw [Function.comp_apply, ih t ht]
    have hfirst : mentionsFirst (slots.map erase) = mentionsFirst slots := by
      cases slots with
      | nil => rfl
      | cons t rest => exact ih t List.mem_cons_self
    rw [erase_node, mentionsArguments, mentionsArguments, mentionsAny_eq, mentionsAny_eq, hany, hfirst]

theorem erase_asBlock (fresh : Nat → α) (t : Tree α) :
    (asBlock fresh t).erase = asBlock (fun _ => ()) t.erase := by
  cases hk : t.kind? with
  | none =>
    cases t with
    | empty => rfl
    | node => cases hk
  | some kind =>
    have hk' := (kind?_erase t).trans hk
    by_cases hb : kind = .block
    · subst hb
      rw [asBlock_of_block fresh hk, asBlock_of_block _ hk']
    · rw [asBlock_of_ne_block fresh hk hb, asBlock_of_ne_block _ hk' hb]
      rfl

theorem erase_trampoline (fresh : Nat → α) (helper body : Tree α) (forwards : Bool) :
    (trampoline fresh helper body forwards).erase =
      trampoline (fun _ => ()) helper.erase body.erase forwards := by
  cases forwards <;> rfl

theorem hasAsyncFunction_node (tag : α) (mark : Mark) (slots : List (Tree α)) :
    (node tag mark slots).hasAsyncFunction =
      (mark.isAsyncFunction || slots.any hasAsyncFunction) := by
  rw [hasAsyncFunction, nodes, nodesAll_eq, List.any_cons, List.any_flatMap]
  rfl

theorem hasAsyncFunction_erase (t : Tree α) : t.erase.hasAsyncFunction = t.hasAsyncFunction := by
  induction t with
  | empty => rfl
  | node tag mark slots ih =>
    rw [erase_node, hasAsyncFunction_node, hasAsyncFunction_node, List.any_map]
    congr 1
    rw [Bool.eq_iff_iff, List.any_eq_true, List.any_eq_true]
    exact exists_congr fun t => and_congr_right fun ht => by rw [Function.comp_apply, ih t ht]

theorem hasAsyncFunction_asBlock (fresh : Nat → α) (t : Tree α) :
    (asBlock fresh t).hasAsyncFunction = t.hasAsyncFunction := by
  cases hk : t.kind? with
  | none =>
    cases t with
    | empty => rfl
    | node => cases hk
  | some kind =>
    by_cases hb : kind = .block
    · subst hb
      rw [asBlock_of_block fresh hk]
    · rw [asBlock_of_ne_block fresh hk hb]
      simp [made, hasAsyncFunction_node, Payload.slots, Mark.made, Mark.isAsyncFunction,
        Kind.isFunction]

theorem hasAsyncFunction_trampoline (fresh : Nat → α) (helper body : Tree α) (forwards : Bool) :
    (trampoline fresh helper body forwards).hasAsyncFunction =
      (helper.hasAsyncFunction || body.hasAsyncFunction) := by
  have hempty : (empty : Tree α).hasAsyncFunction = false := rfl
  have hgenerator : (Detail.function false true == Detail.function true false) = false := rfl
  cases forwards <;>
    simp [trampoline, made, this, identifier, hasAsyncFunction_node, Payload.slots, Mark.made,
      Mark.isAsyncFunction, Kind.isFunction, Payload.detail, hempty, hgenerator]

theorem map_erase_afterImports (statement : Tree α) (before statements : List (Tree α)) :
    (afterImports statement before statements).map erase =
      afterImports statement.erase (before.map erase) (statements.map erase) := by
  have hleading : ((before.map erase).takeWhile fun t => t.kind? == some .importDeclaration).length =
      (before.takeWhile fun t => t.kind? == some .importDeclaration).length := by
    rw [List.takeWhile_map, List.length_map]
    refine congrArg List.length (takeWhile_congr fun t _ => ?_)
    rw [Function.comp_apply, kind?_erase]
  rw [afterImports, afterImports, hleading, List.map_append, List.map_cons, List.map_take,
    List.map_drop]

end Tree

/-! ### What becomes of a tree is what the recursion makes of it -/

section Wrapped
variable {base depth : Nat} {localName : String} {own : Bool} {t t' : Tree NodeId}

theorem Wrapped.erase_eq (h : Wrapped base localName own depth t t') :
    t'.erase = t.erase.lower localName own := by
  refine h.induct (motive := fun own t t' => t'.erase = t.erase.lower localName own)
    (fun _ => rfl) (fun own i mark slots slots' hmark hslots => ?_) (fun own i mark hmark => ?_)
    (fun own i mark init body init' body' reference forBlock fresh hmark _ _ _ hinit hbody => ?_)
  · rw [Tree.erase_node, Tree.erase_node, map_eq_map_map hslots, Tree.lower, hmark,
      if_neg Bool.false_ne_true, Tree.lowerAll_eq, Tree.lowerAll_eq]
    cases own <;> cases mark.kind.isFunction <;> rfl
  · rw [Tree.erase_node, Tree.erase_node, Tree.lower, hmark, if_pos rfl]
    rfl
  · rw [Tree.erase_node, Tree.erase_node, Tree.lower, hmark, if_pos rfl, List.map_append,
      List.map_append, map_eq_map_map hinit, List.map_singleton, List.map_singleton,
      Tree.erase_trampoline, Tree.erase_asBlock, hbody, Tree.lowerParts_concat,
      Tree.mentionsArguments_erase]
    rfl

/-- No async function is left. -/
theorem Wrapped.hasAsyncFunction_eq_false (h : Wrapped base localName own depth t t') :
    t'.hasAsyncFunction = false := by
  have hall : ∀ {ts ts' : List (Tree NodeId)},
      List.Forall₂ (fun _ t' => t'.hasAsyncFunction = false) ts ts' →
        ts'.any Tree.hasAsyncFunction = false := by
    intro ts ts' h
    induction h with
    | nil => rfl
    | cons hhead _ ih => rw [List.any_cons, hhead, ih, Bool.or_false]
  refine h.induct (motive := fun _ _ t' => t'.hasAsyncFunction = false)
    (fun _ => rfl) (fun own i mark slots slots' hmark hslots => ?_) (fun own i mark hmark => ?_)
    (fun own i mark init body init' body' reference forBlock fresh hmark _ _ _ hinit hbody => ?_)
  · rw [Tree.hasAsyncFunction_node, hall hslots, Bool.or_false]
    split
    · rename_i hown
      rw [Bool.and_eq_true, Bool.not_eq_true'] at hown
      rw [Mark.isAsyncFunction, Mark.isFunction_byYield, hown.2, Bool.false_and]
    · exact hmark
  · rw [Tree.hasAsyncFunction_node, Mark.isAsyncFunction_plain]
    rfl
  · rw [Tree.hasAsyncFunction_node, Mark.isAsyncFunction_plain, List.any_append, hall hinit,
      List.any_cons, Tree.hasAsyncFunction_trampoline, Tree.hasAsyncFunction_asBlock, hbody]
    rfl

end Wrapped

/-! ### Programs -/

section Run
variable {p : Program} {mark : Mark} {statements : List (Tree NodeId)} {method source : String}

/-- A file without async functions is quiet. -/
theorem quiet_of_hasAsyncFunction (h : p.Grounded mark statements)
    (hasync : (Tree.node p.root mark statements).hasAsyncFunction = false) (method source : String) :
    p.store.Quiet (.wholeFunction method source) p.root := by
  intro j hj kind hkind hmem
  obtain ⟨of, rfl⟩ := exists_functionKind hmem
  obtain ⟨mark', slots', hnode, hheld⟩ := h.held.subtree (h.held.mem_of_reaches (by simp) hj)
  have hmark : mark'.kind = .function of :=
    Option.some.inj ((hheld.kind? rfl).symm.trans hkind)
  rw [isEligible_of_holds h.sound hheld hmark]
  rw [Tree.hasAsyncFunction, List.any_eq_false] at hasync
  simpa using hasync _ hnode

/-- The wrapper is imported exactly if there is an async function. -/
theorem wrapper_isSome_iff (h : p.Grounded mark statements)
    (htree : p.tree? = some (.node p.root mark statements)) {w : Walk (Memo Unit)}
    {statements' : List (Tree NodeId)}
    (hended : Ended w true ((Pass.ofStrategy (.wholeFunction method source) Lowering.standard).visit
      depthLimit p.root ⟨p, {inner := ()}⟩))
    (hw : Wrapping p method source w)
    (hgrown : Grown p.aside p.store statements w.program.store statements')
    (hwrapped : List.Forall₂ (Wrapped p.store.size (p.names.fresh method).1 false (depthLimit - 1))
      statements statements') :
    w.state.wrapper.isSome = (Tree.node p.root mark statements).hasAsyncFunction := by
  have hfile : mark.isAsyncFunction = false := by
    rw [Mark.isAsyncFunction, h.kind]
    rfl
  rcases hw.cached with ⟨hnone, hsame⟩ | himported
  · -- nothing was changed, so the file is what becomes of it
    have htree' := hw.tree h hgrown
    rw [hsame, htree, hnone, finalStatements, if_neg (by simp)] at htree'
    obtain rfl : statements = statements' := by
      injection htree' with htree'
      injection htree'
    rw [hnone, Tree.hasAsyncFunction_node, hfile, Bool.false_or, Option.isSome_none, eq_comm,
      List.any_eq_false]
    intro t ht
    rw [List.forall₂_same] at hwrapped
    simp [(hwrapped t ht).hasAsyncFunction_eq_false]
  · rw [himported.wrapper, Option.isSome_some]
    cases hasync : (Tree.node p.root mark statements).hasAsyncFunction with
    | true => rfl
    | false =>
      obtain ⟨complete, hended'⟩ := @visit_quiet (.wholeFunction method source)
        ⟨p, {inner := ()}⟩ p.root depthLimit (quiet_of_hasAsyncFunction h hasync method source)
      generalize Pass.visit _ depthLimit p.root _ = result at hended hended'
      cases hended
      cases hended'
      cases himported.wrapper

theorem strategy_of_ne_empty (hmethod : method ≠ "") (hsource : source ≠ "") :
    Options.strategy ⟨some method, some source⟩ = .wholeFunction method source := by
  simp [Options.strategy, hmethod, hsource]

/-- **A run that lowers whole functions leaves the tree that the recursion makes.** The store is
tree shaped, and the run does not stop. -/
theorem settle_eq_settled {store : Store} {root : NodeId} {p p' : Program} {method source : String}
    {wrapper : Ref} (hshape : store.TreeShaped root) (hp : Program.ofStore store root = .ok p)
    (hmethod : method ≠ "") (hsource : source ≠ "")
    (hok : ProgramM.settle ⟨some method, some source⟩ p = .ok wrapper p') :
    ∃ t t', p.tree? = some t ∧ p'.tree? = some t' ∧ t'.ref = some root ∧
      t'.erase = t.erase.settled method (p.names.fresh method).1 source := by
  obtain ⟨mark, statements, h, hroot, htree⟩ := grounded_of_ofStore hshape hp
  obtain ⟨w, statements', rfl, hended, hw, hgrown, hwalked⟩ :=
    settle_whole h (strategy_of_ne_empty hmethod hsource) hok
  have himport := wrapper_isSome_iff h htree hended hw hgrown hwalked
  have hlowered : statements'.map Tree.erase =
      Tree.lowerAll (p.names.fresh method).1 false (statements.map Tree.erase) := by
    rw [Tree.lowerAll_eq]
    exact map_eq_map_map (hwalked.imp fun t t' (ht : Wrapped _ _ false _ t t') => ht.erase_eq)
  have hasync : (Tree.node () mark (statements.map Tree.erase)).hasAsyncFunction =
      w.state.wrapper.isSome := by
    rw [himport, ← Tree.hasAsyncFunction_erase (.node p.root mark statements), Tree.erase_node]
  refine ⟨_, _, htree, hw.tree h hgrown, congrArg some hroot, ?_⟩
  rw [Tree.erase_node, Tree.erase_node, Tree.settled, hasync, finalStatements]
  split
  · rw [Tree.map_erase_afterImports, hlowered]
    rfl
  · rw [hlowered]

theorem settle_eq_settled_nestedAsync :
    ∃ p wrapper p' t t', Program.ofStore .nestedAsync 8 = .ok p ∧
      ProgramM.settle ⟨some "wrap", some "runtime"⟩ p = .ok wrapper p' ∧
      p.tree? = some t ∧ p'.tree? = some t' ∧ t'.ref = some 8 ∧
      t'.erase = t.erase.settled "wrap" (p.names.fresh "wrap").1 "runtime" := by
  obtain ⟨p, hp⟩ : ∃ p, Program.ofStore .nestedAsync 8 = .ok p := ⟨_, rfl⟩
  obtain ⟨wrapper, p', hok⟩ : ∃ wrapper p',
      ProgramM.settle ⟨some "wrap", some "runtime"⟩ p = .ok wrapper p' := by
    cases hp
    exact exists_of_isOk (by decide +kernel)
  obtain ⟨t, t', ht, ht', href, heq⟩ := settle_eq_settled Store.treeShaped_nestedAsync hp
    (by decide) (by decide) hok
  exact ⟨p, wrapper, p', t, t', hp, hok, ht, ht', href, heq⟩

end Run
end Settle
