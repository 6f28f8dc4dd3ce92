import Settle.Proofs.Depth
import Settle.Proofs.LocalExpression

/-! What a pass hands to its lowering.

A dry run leaves the nodes below the file alone and lists what the pass would lower. The
list is the nodes to be taken up in depth first order, each once, and each comes with a
reference of its own to the helper (`dryRun_eq_preorder`). The walk over the statements is one
over nodes that look as they did when it began (`Inspects`), although references are made on
the way, and with the first of them an import is put in front of where the walk stands. -/
namespace Settle

open Store

/-! ### Depth first order -/

namespace Store
variable {s : Store} {depth : Nat} {i j : NodeId}

/-- For the strategy to take up: of one of its kinds, and eligible. -/
def takes (s : Store) (strategy : Strategy) (i : NodeId) : Bool :=
  (s.kind? i).any (strategy.kinds.contains ·) && s.isEligible i

theorem takes_of_kind? {strategy : Strategy} {kind : Kind} (h : s.kind? i = some kind) :
    s.takes strategy i = true ↔ kind ∈ strategy.kinds ∧ s.isEligible i = true := by
  simp [takes, h]

/-- What is listed to some depth are the ends of the shorter paths. -/
theorem mem_preorder_iff :
    j ∈ Graph.preorder s.children depth i ↔
      ∃ path, path.length < depth ∧ s.follow path i = some j := by
  induction depth generalizing i with
  | zero => simp [Graph.preorder]
  | succ depth ih =>
    rw [Graph.preorder, List.mem_cons, List.mem_flatMap]
    constructor
    · rintro (rfl | ⟨c, hc, hj⟩)
      · exact ⟨[], Nat.succ_pos depth, rfl⟩
      · obtain ⟨path, hlength, hpath⟩ := ih.mp hj
        obtain ⟨path', hlength', hpath'⟩ := exists_follow_of_mem_children hc hpath
        exact ⟨path', by omega, hpath'⟩
    · rintro ⟨path, hlength, hpath⟩
      cases path with
      | nil => exact .inl (Option.some.inj hpath).symm
      | cons k path =>
        obtain ⟨c, hc, hpath⟩ := Option.bind_eq_some_iff.mp hpath
        exact .inr ⟨c, mem_children_iff.mpr ⟨k, hc⟩,
          ih.mpr ⟨path, Nat.lt_of_succ_lt_succ hlength, hpath⟩⟩

/-- What is listed from the top of a held tree are its nodes in source order. -/
theorem Holds.preorder {mark : Mark} {slots : List (Tree NodeId)} (h : s.Holds (.node i mark slots))
    (hd : s.Shallow depth i) :
    Graph.preorder s.children depth i = (Tree.node i mark slots).tags := by
  induction depth generalizing i mark slots with
  | zero => exact hd.elim
  | succ depth ih =>
    obtain ⟨_, _, _, _, below⟩ := holds_node_iff.mp h
    have hslot : ∀ t ∈ slots, t.ref.toList.flatMap (Graph.preorder s.children depth) = t.tags := by
      intro t ht
      cases t with
      | empty => rfl
      | node j mark' slots' =>
        have hj : j ∈ s.children i := by
          rw [h.children]
          exact List.mem_filterMap.mpr ⟨_, ht, rfl⟩
        rw [Tree.ref_node, Option.toList_some, List.flatMap_singleton, ih (below _ ht) (hd j hj)]
    rw [Graph.preorder, Tree.tags_node, h.children, List.filterMap_eq_flatMap_toList,
      List.flatMap_assoc, List.flatMap_congr hslot]

end Store

/-! ### Walks over nodes that stay as they are -/

/-- A pass leaves the nodes inside as they were, and what is known of a walk accounts for those that
were seen. -/
structure Inspects {σ : Type} (pass : Pass σ) (s : Store) (inside : NodeId → Prop)
    (known : List NodeId → Walk σ → Prop) : Prop where
  exist : ∀ {i : Nat}, inside i → i < s.size
  closed : ∀ {i j : NodeId}, inside i → j ∈ s.children i → inside j
  same : ∀ {seen : List NodeId} {w : Walk σ} {i : NodeId}, known seen w → inside i →
    w.program.store.node? i = s.node? i
  visits : ∀ {seen : List NodeId} {w : Walk σ} {i : NodeId} {kind : Kind}, known seen w → inside i →
    s.kind? i = some kind →
    ∃ w', (∀ visitor, pass.visitor? kind = some visitor → visitor i w = .ok () w') ∧
      (pass.visitor? kind = none → w' = w) ∧ known (seen ++ [i]) w'

section Inspects
variable {σ : Type} {pass : Pass σ} {s : Store} {inside : NodeId → Prop}
  {known : List NodeId → Walk σ → Prop} {depth : Nat}

/-- A walk from a node sees everything below it in depth first order. -/
def SeesBelow (pass : Pass σ) (s : Store) (known : List NodeId → Walk σ → Prop) (depth : Nat)
    (i : NodeId) : Prop :=
  ∀ {seen : List NodeId} {w : Walk σ}, known seen w →
    ∃ w', pass.visit depth i w = .ok () w' ∧ known (seen ++ Graph.preorder s.children depth i) w'

theorem forM_seesBelow {is : List NodeId} (h : ∀ i ∈ is, SeesBelow pass s known depth i)
    {seen : List NodeId} {w : Walk σ} (hw : known seen w) :
    ∃ w', is.forM (pass.visit depth) w = .ok () w' ∧
      known (seen ++ is.flatMap (Graph.preorder s.children depth)) w' := by
  induction is generalizing seen w with
  | nil => exact ⟨w, rfl, by rwa [List.flatMap_nil, List.append_nil]⟩
  | cons i rest ih =>
    obtain ⟨w₁, hrun, hw₁⟩ := h i List.mem_cons_self hw
    obtain ⟨w', hrest, hw'⟩ := ih (fun j hj => h j (List.mem_cons_of_mem _ hj)) hw₁
    rw [List.append_assoc, ← List.flatMap_cons] at hw'
    exact ⟨w', (bind_ok hrun).trans hrest, hw'⟩

theorem Inspects.seesBelow (h : Inspects pass s inside known) {i : NodeId} (hi : inside i)
    (hd : s.Shallow depth i) : SeesBelow pass s known depth i := by
  induction depth generalizing i with
  | zero => exact hd.elim
  | succ depth ih =>
    intro seen w hw
    obtain ⟨node, there⟩ := node?_of_lt_size (h.exist hi)
    obtain ⟨w₁, hvisit, hskip, hw₁⟩ := h.visits hw hi (kind?_of_node? there)
    have hkind : w.program.store.kind? i = some node.kind :=
      kind?_of_node? ((h.same hw hi).trans there)
    have hchildren : w₁.program.store.children i = s.children i := by
      rw [children_eq, h.same hw₁ hi, ← children_eq]
    rw [visit_succ hkind hvisit hskip, hchildren]
    obtain ⟨w', hrun, hw'⟩ := forM_seesBelow
      (fun j hj => ih (h.closed hi hj) (hd j hj)) hw₁
    rw [List.append_assoc, List.singleton_append] at hw'
    exact ⟨w', hrun, hw'⟩

end Inspects

/-! ### Dry runs -/

section DryRun
variable {p : Program} {strategy : Strategy} {localName : String} {seen : List NodeId}
  {w w₁ : Walk (Memo (List (NodeId × Ref)))} {i : NodeId} {reference : Nat} {mark : Mark}
  {statements : List (Tree NodeId)} {upkeep : Walk (Memo (List (NodeId × Ref))) → Prop}

/-- The walk with one more entry in its list. -/
def Walk.record (w : Walk (Memo (List (NodeId × Ref)))) (i reference : NodeId) :
    Walk (Memo (List (NodeId × Ref))) :=
  {w with state := {w.state with inner := w.state.inner ++ [(i, some reference)]}}

/-- How far a dry run has come: of the nodes seen, those to be taken up are in the list, each with
an identifier of its own. -/
structure Recorded (p : Program) (strategy : Strategy) (localName : String) (seen : List NodeId)
    (w : Walk (Memo (List (NodeId × Ref)))) : Prop where
  nodes : w.state.inner.map Prod.fst = seen.filter (p.store.takes strategy)
  references : ∃ references : List Nat, w.state.inner.map Prod.snd = references.map some ∧
    references.Nodup ∧ ∀ reference ∈ references, p.store.size ≤ reference ∧
      w.program.store.node? reference = some (ProgramM.identifierNode localName)
  grows : p.store.size ≤ w.program.store.size
  frame : ∀ j : Nat, j < p.store.size → j ≠ p.root → w.program.store.node? j = p.store.node? j

/-- A reference to the helper was made, which is new, and all but the root was left as it was. -/
structure Fetched (p : Program) (localName : String) (w w₁ : Walk (Memo (List (NodeId × Ref))))
    (reference : Nat) : Prop where
  new : w.program.store.size ≤ reference
  identifier : w₁.program.store.node? reference = some (ProgramM.identifierNode localName)
  grows : w.program.store.size ≤ w₁.program.store.size
  frame : ∀ j : Nat, j < w.program.store.size → j ≠ p.root →
    w₁.program.store.node? j = w.program.store.node? j
  inner : w₁.state.inner = w.state.inner

theorem Recorded.start (p : Program) (strategy : Strategy) (localName : String) :
    Recorded p strategy localName [] ⟨p, {inner := []}⟩ :=
  ⟨rfl, ⟨[], rfl, List.nodup_nil, fun _ h => absurd h List.not_mem_nil⟩, Nat.le_refl _,
    fun _ _ _ => rfl⟩

/-- A node that is not taken up is seen and passed by. -/
theorem Recorded.skip (h : Recorded p strategy localName seen w)
    (hi : p.store.takes strategy i = false) : Recorded p strategy localName (seen ++ [i]) w :=
  ⟨by rw [h.nodes, List.filter_append, List.filter_cons_of_neg (by simp [hi]), List.filter_nil,
    List.append_nil], h.references, h.grows, h.frame⟩

theorem Recorded.record (h : Recorded p strategy localName seen w) (hroot : p.root < p.store.size)
    (hi : p.store.takes strategy i = true) (hf : Fetched p localName w w₁ reference) :
    Recorded p strategy localName (seen ++ [i]) (w₁.record i reference) where
  nodes := by
    rw [Walk.record, List.map_append, hf.inner, h.nodes, List.filter_append,
      List.filter_cons_of_pos hi]
    rfl
  references := by
    obtain ⟨references, hsnd, hnodup, hold⟩ := h.references
    refine ⟨references ++ [reference], ?_, ?_, fun r hr => ?_⟩
    · rw [Walk.record, List.map_append, hf.inner, hsnd, List.map_append]
      rfl
    · -- those made before were in the store when this one was made
      refine List.nodup_append'.mpr ⟨hnodup, List.nodup_singleton _, fun r hr hr' => ?_⟩
      have hlt := lt_size_of_node? (hold r hr).2
      rw [List.mem_singleton.mp hr'] at hlt
      exact Nat.not_lt_of_le hf.new hlt
    · rcases List.mem_append.mp hr with hr | hr
      · obtain ⟨hge, hnode⟩ := hold r hr
        refine ⟨hge, ?_⟩
        show w₁.program.store.node? r = _
        have hne : r ≠ p.root := Nat.ne_of_gt (Nat.lt_of_lt_of_le hroot hge)
        rw [hf.frame r (lt_size_of_node? hnode) hne, hnode]
      · rw [List.mem_singleton.mp hr]
        exact ⟨Nat.le_trans h.grows hf.new, hf.identifier⟩
  grows := Nat.le_trans h.grows hf.grows
  frame := fun j hj hne => (hf.frame j (Nat.lt_of_lt_of_le hj h.grows) hne).trans (h.frame j hj hne)

/-- What a strategy does at a node that it takes up, on a dry run: it gets a reference, and puts the
two in the list. Beside the list there is something else to be kept up. -/
structure Records (p : Program) (strategy : Strategy) (localName : String)
    (upkeep : Walk (Memo (List (NodeId × Ref))) → Prop) : Prop where
  start : upkeep ⟨p, {inner := []}⟩
  visits : ∀ {w : Walk (Memo (List (NodeId × Ref)))} {i : NodeId} {seen : List NodeId}, upkeep w →
    Recorded p strategy localName seen w → w.program.store.isEligible i = true →
    ∃ w₁ reference, Fetched p localName w w₁ reference ∧
      strategy.visitor Lowering.dryRun i w = .ok () (w₁.record i reference) ∧
      upkeep (w₁.record i reference)

theorem Records.inspects (h : Records p strategy localName upkeep)
    (hp : p.Grounded mark statements) :
    Inspects (Pass.ofStrategy strategy Lowering.dryRun) p.store
      (· ∈ statements.flatMap Tree.tags)
      (fun seen w => upkeep w ∧ Recorded p strategy localName seen w) := by
  obtain ⟨_, _, _, _, below⟩ := holds_node_iff.mp hp.held
  have hnodup := hp.nodup
  rw [Tree.tags_node, List.nodup_cons] at hnodup
  have hlt : ∀ i : Nat, i ∈ statements.flatMap Tree.tags → i < p.store.size :=
    fun i hi => hp.held.lt_size i (by simp [hi])
  have hframe : ∀ {seen w} {i : Nat}, Recorded p strategy localName seen w →
      i ∈ statements.flatMap Tree.tags → w.program.store.node? i = p.store.node? i :=
    fun hw hi => hw.frame _ (hlt _ hi) fun heq => hnodup.1 (heq ▸ hi)
  refine ⟨hlt _, fun hi hj => ?_, fun hw hi => hframe hw.2 hi, fun hw hi hkind => ?_⟩
  · obtain ⟨t, ht, hi⟩ := List.mem_flatMap.mp hi
    exact List.mem_flatMap.mpr ⟨t, ht, (below t ht).mem_of_mem_children hi hj⟩
  · rename_i seen w i kind
    have hsame := hframe hw.2 hi
    have heligible : w.program.store.isEligible i = p.store.isEligible i := by
      rw [Store.isEligible, payload?_eq, hsame, ← payload?_eq, Store.isEligible]
    rw [visitor?_ofStrategy]
    cases htakes : p.store.takes strategy i with
    | true =>
      obtain ⟨hmem, htrue⟩ := (takes_of_kind? hkind).mp htakes
      obtain ⟨w₁, reference, hf, hvisit, hup⟩ := h.visits hw.1 hw.2 (heligible.trans htrue)
      rw [if_pos hmem]
      refine ⟨_, fun visitor hv => ?_, fun hnone => absurd hnone (Option.some_ne_none _), hup,
        hw.2.record (hp.held.lt_size p.root (by simp)) htakes hf⟩
      rw [← Option.some.inj hv, hvisit]
    | false =>
      refine ⟨w, fun visitor hv => ?_, fun _ => rfl, hw.1, hw.2.skip htakes⟩
      split at hv
      · rename_i hmem
        have hfalse : p.store.isEligible i = false := by
          rw [← Bool.not_eq_true] at htakes ⊢
          exact fun htrue => htakes ((takes_of_kind? hkind).mpr ⟨hmem, htrue⟩)
        rw [← Option.some.inj hv]
        exact strategy.visitor_skip _ (heligible.trans hfalse)
      · cases hv

theorem takes_root (hp : p.Grounded mark statements) (strategy : Strategy) :
    p.store.takes strategy p.root = false := by
  rw [Store.takes, (hp.held.kind? rfl).trans (congrArg some hp.kind)]
  cases strategy <;> rfl

/-- **A dry run goes over the whole program**, and lists what is to be taken up in the order of the
walk. -/
theorem Records.run (h : Records p strategy localName upkeep) (hp : p.Grounded mark statements)
    (hd : p.store.Shallow depthLimit p.root) :
    ∃ w, (Pass.ofStrategy strategy Lowering.dryRun).visit depthLimit p.root ⟨p, {inner := []}⟩ =
        .ok () w ∧ upkeep w ∧
      Recorded p strategy localName (Graph.preorder p.store.children depthLimit p.root) w := by
  have hinspects := h.inspects hp
  have hchildren : p.store.children p.root = statements.filterMap Tree.ref := hp.held.children
  have hfile := visit_file hp strategy Lowering.dryRun {inner := []} (depthLimit - 1)
  rw [show depthLimit - 1 + 1 = depthLimit from rfl, ← hchildren] at hfile
  have hbelow : ∀ j ∈ p.store.children p.root, SeesBelow
      (Pass.ofStrategy strategy Lowering.dryRun) p.store
      (fun seen w => upkeep w ∧ Recorded p strategy localName seen w) (depthLimit - 1) j := by
    intro j hj
    refine hinspects.seesBelow ?_ (hd j hj)
    rw [hchildren] at hj
    obtain ⟨t, ht, href⟩ := List.mem_filterMap.mp hj
    cases t with
    | empty => cases href
    | node k mark' slots' =>
      obtain rfl := Option.some.inj href
      exact List.mem_flatMap.mpr ⟨_, ht, by simp⟩
  have hroot : Recorded p strategy localName [p.root] ⟨p, {inner := []}⟩ :=
    (Recorded.start p strategy localName).skip (takes_root hp strategy)
  obtain ⟨w, hrun, hup, hrecorded⟩ := forM_seesBelow hbelow ⟨h.start, hroot⟩
  exact ⟨w, hfile.trans hrun, hup, hrecorded⟩

/-! ### The two strategies -/

theorem Pass.handOver_dryRun (w : Walk (Memo (List (NodeId × Ref)))) (i reference : NodeId) :
    Pass.handOver Lowering.dryRun i reference w = .ok () (w.record i reference) := rfl

/-- The reference in the first entry. -/
def firstReference (w : Walk (Memo (List (NodeId × Ref)))) : Ref :=
  w.state.inner.head?.bind Prod.snd

theorem firstReference_eq {references : List Nat}
    (h : w.state.inner.map Prod.snd = references.map some) :
    firstReference w = references.head? := by
  have hhead := congrArg List.head? h
  rw [List.head?_map, List.head?_map] at hhead
  rw [firstReference]
  cases hentry : w.state.inner.head? with
  | none =>
    rw [hentry, Option.map_none] at hhead
    exact (Option.map_eq_none_iff.mp hhead.symm).symm
  | some entry =>
    rw [hentry, Option.map_some] at hhead
    obtain ⟨reference, hfirst, hentry'⟩ := Option.map_eq_some_iff.mp hhead.symm
    rw [Option.bind_some, hfirst, ← hentry']

/-- Where whole functions are to be lowered, the first reference is the one that is cached. -/
theorem records_whole {parts : FileParts Ref} (hp : p.Ready parts) (method source : String) :
    Records p (.wholeFunction method source) (p.names.fresh method).1
      (fun w => Wrapping p method source w ∧ w.state.wrapper = firstReference w) := by
  refine ⟨⟨⟨hp.sound, rfl, .inl ⟨rfl, rfl⟩⟩, rfl⟩, ?_⟩
  rintro w i seen ⟨hw, hfirst⟩ hrecorded heligible
  obtain ⟨reference, w₁, hrun, hreferred⟩ := reference_run hp hw
  have hinner : w₁.state.inner = w.state.inner := by rw [hreferred.memo]
  have himported := hreferred.imported
  refine ⟨w₁, reference, ⟨hreferred.new, hreferred.identifier, hreferred.grows, hreferred.frame,
    hinner⟩,
    (Pass.visitFunction_eligible _ heligible hrun).trans (Pass.handOver_dryRun w₁ i reference),
    ⟨hreferred.wrapping.sound, hreferred.wrapping.root, .inr ⟨himported.wrapper, himported.grows,
      himported.reference, himported.file, himported.nodes⟩⟩, ?_⟩
  obtain ⟨references, hsnd, _, _⟩ := hrecorded.references
  have hwrapper : w₁.state.wrapper = references.head?.or (some reference) := by
    rw [hreferred.memo, hfirst, firstReference_eq hsnd]
  have hsnd' : (w₁.record i reference).state.inner.map Prod.snd =
      (references ++ [reference]).map some := by
    rw [Walk.record, List.map_append, hinner, hsnd, List.map_append]
    rfl
  rw [firstReference_eq hsnd', List.head?_append]
  exact hwrapper

/-- Where try expressions are to be lowered, nothing is cached and the file stays as it is. -/
theorem records_local {parts : FileParts Ref} (hp : p.Ready parts) :
    Records p .localExpression p.tryName (Trying p) := by
  refine ⟨⟨hp.sound, .inl rfl, Nat.le_refl _, rfl, rfl⟩, ?_⟩
  intro w i seen hw _ heligible
  obtain ⟨s', hrun, hrev⟩ := hw.helped.reference_run hw.sound
  refine ⟨{w with program := {p.withTry with store := s'}}, w.program.store.size,
    ⟨Nat.le_refl _, hrev.new 0 _ rfl, hrev.grows, fun j hj _ => hrev.old_of_keep hj, rfl⟩,
    (Pass.visitTry_eligible _ heligible hrun).trans (Pass.handOver_dryRun _ i _),
    hrev.sound, .inr rfl, Nat.le_trans hw.grows hrev.grows, ?_, hw.wrapper⟩
  exact (hrev.old_of_keep (Nat.lt_of_lt_of_le hp.root_lt hw.grows)).trans hw.file

/-- The program after the import has the statements from before and one more. -/
theorem Imported.statements_eq {method source : String} {parts : FileParts Ref}
    (h : Imported p method source w) (hp : p.Ready parts) (hroot : w.program.root = p.root) :
    w.program.statements = p.statements.take p.leadingImports ++
      some (p.store.size + 4) :: p.statements.drop p.leadingImports := by
  obtain ⟨node, there, _, hpayload⟩ := hp.exists_node
  have hfile : w.program.store.node? p.root =
      some (node.withStatement p.leadingImports (some (p.store.size + 4))) := by
    rw [h.file, there, Option.map_some]
  rw [Program.statements, hroot, payload?_of_node? hfile, Program.statements, hp.file,
    Node.withStatement, hpayload]

/-- Where something is cached the import has been put in, and where not nothing has changed. -/
theorem Wrapping.statements_cases {method source : String} {parts : FileParts Ref}
    (h : Wrapping p method source w) (hp : p.Ready parts) :
    (w.state.wrapper = none → w.program.statements = p.statements) ∧
    (w.state.wrapper ≠ none → ∃ statement : NodeId, p.store.size ≤ statement ∧
      w.program.store.kind? statement = some .importDeclaration ∧
      w.program.statements = p.statements.take p.leadingImports ++
        some statement :: p.statements.drop p.leadingImports) := by
  rcases h.cached with ⟨hnone, hsame⟩ | himported
  · exact ⟨fun _ => by rw [hsame], fun hsome => absurd hnone hsome⟩
  · refine ⟨fun hnone => ?_, fun _ => ⟨p.store.size + 4, Nat.le_add_right _ _,
      kind?_of_node? (himported.nodes 4 _ rfl), himported.statements_eq hp h.root⟩⟩
    rw [himported.wrapper] at hnone
    cases hnone

/-- A dry run with either strategy. -/
theorem exists_dryRun (hp : p.Grounded mark statements) (hd : p.store.Shallow depthLimit p.root)
    (strategy : Strategy) :
    ∃ localName w, (Pass.ofStrategy strategy Lowering.dryRun).perform {inner := []} p =
        .ok w.state w.program ∧
      Recorded p strategy localName (Graph.preorder p.store.children depthLimit p.root) w ∧
      (∀ method source, strategy = .wholeFunction method source →
        Wrapping p method source w ∧ w.state.wrapper = firstReference w) ∧
      (strategy = .localExpression → Trying p w) := by
  obtain ⟨parts, hready, _⟩ := hp.exists_ready
  cases strategy with
  | wholeFunction method source =>
    obtain ⟨w, hrun, hw, hrecorded⟩ := (records_whole hready method source).run hp hd
    refine ⟨_, w, by rw [Pass.perform, Pass.run, hrun], hrecorded, fun method' source' heq => ?_,
      fun heq => by cases heq⟩
    cases heq
    exact hw
  | localExpression =>
    obtain ⟨w, hrun, hw, hrecorded⟩ := (records_local hready).run hp hd
    exact ⟨_, w, by rw [Pass.perform, Pass.run, hrun], hrecorded, fun _ _ heq => (by cases heq),
      fun _ => hw⟩

/-- Every node that is to be taken up is handed over **exactly once, in depth first order**, with a
reference of its own to one and the same name. With whole functions, the first reference is
remembered and comes with the one import. -/
theorem dryRun_eq_preorder (hshape : p.store.TreeShaped p.root)
    (hroot : p.store.kind? p.root = some .sourceFile)
    (hdepth : ∀ path i, p.store.follow path p.root = some i → path.length < depthLimit)
    (options : Options) :
    ∃ pass memo p' localName, ∃ references : List NodeId,
      Pass.declare requiredVersion options Lowering.dryRun = .ok pass ∧
      pass.perform {inner := []} p = .ok memo p' ∧
      memo.inner.map Prod.fst = (Graph.preorder p.store.children depthLimit p.root).filter
        (p.store.takes options.strategy) ∧
      (memo.inner.map Prod.fst).Nodup ∧
      (∀ i, i ∈ memo.inner.map Prod.fst ↔
        (∃ path, p.store.follow path p.root = some i) ∧ p.store.takes options.strategy i = true) ∧
      memo.inner.map Prod.snd = references.map some ∧
      references.Nodup ∧
      (∀ reference ∈ references, p.store.size ≤ reference ∧
        p'.store.node? reference = some (ProgramM.identifierNode localName)) ∧
      (∀ method source, options.strategy = .wholeFunction method source →
        memo.wrapper = references.head? ∧
        (references = [] → p'.statements = p.statements) ∧
        (references ≠ [] → ∃ statement : NodeId, p.store.size ≤ statement ∧
          p'.store.kind? statement = some .importDeclaration ∧
          p'.statements = p.statements.take p.leadingImports ++
            some statement :: p.statements.drop p.leadingImports)) ∧
      (options.strategy = .localExpression →
        memo.wrapper = none ∧ p'.statements = p.statements) := by
  obtain ⟨mark, statements, hp, _⟩ := grounded_of_treeShaped hshape hroot
  obtain ⟨parts, hready, _⟩ := hp.exists_ready
  have hshallow : p.store.Shallow depthLimit p.root := shallow_iff.mpr hdepth
  have hnodup : (Graph.preorder p.store.children depthLimit p.root).Nodup := by
    rw [hp.held.preorder hshallow]
    exact hp.nodup
  have hmem : ∀ i, i ∈ Graph.preorder p.store.children depthLimit p.root ↔
      ∃ path, p.store.follow path p.root = some i := fun i => by
    rw [mem_preorder_iff]
    exact exists_congr fun path => and_iff_right_of_imp (hdepth path i)
  obtain ⟨localName, w, hperform, hrecorded, hwhole, hlocal⟩ := exists_dryRun hp hshallow
    options.strategy
  obtain ⟨references, hsnd, hdistinct, hidentifiers⟩ := hrecorded.references
  refine ⟨_, w.state, w.program, localName, references, rfl, hperform, hrecorded.nodes,
    hrecorded.nodes ▸ hnodup.filter _, fun i => ?_, hsnd, hdistinct, hidentifiers,
    fun method source hstrategy => ?_, fun hstrategy => ?_⟩
  · rw [hrecorded.nodes, List.mem_filter, hmem]
  · obtain ⟨hw, hfirst⟩ := hwhole method source hstrategy
    rw [firstReference_eq hsnd] at hfirst
    have hnone : w.state.wrapper = none ↔ references = [] := by
      rw [hfirst, List.head?_eq_none_iff]
    obtain ⟨hunchanged, himport⟩ := hw.statements_cases hready
    exact ⟨hfirst, fun h => hunchanged (hnone.mpr h), fun h => himport fun hw => h (hnone.mp hw)⟩
  · exact ⟨(hlocal hstrategy).wrapper, (hlocal hstrategy).statements⟩

theorem dryRun_eq_preorder_nestedAsync :
    ∃ p pass memo p', ∃ references : List NodeId, Program.ofStore .nestedAsync 8 = .ok p ∧
      Pass.declare requiredVersion ⟨some "wrap", some "lib"⟩ Lowering.dryRun = .ok pass ∧
      pass.perform {inner := []} p = .ok memo p' ∧ memo.inner.map Prod.fst = [7, 3] ∧
      memo.inner.map Prod.snd = references.map some ∧ references.Nodup ∧
      memo.wrapper = references.head? ∧
      ∃ statement : NodeId, p.store.size ≤ statement ∧
        p'.store.kind? statement = some .importDeclaration ∧
        p'.statements = [some statement, some 7] := by
  have hdepth : ∀ path i, Store.nestedAsync.follow path 8 = some i → path.length < depthLimit :=
    fun path i h => Nat.lt_trans (Store.treeShaped_nestedAsync.length_lt h) (by decide)
  obtain ⟨pass, memo, p', _, references, hpass, hrun, hnodes, _, _, hsnd, hdistinct, _, hwhole,
    _⟩ := dryRun_eq_preorder
      (p := ⟨"f.js", .nestedAsync, 8, [], {inFile := Store.nestedAsync.identifierTexts}⟩)
      Store.treeShaped_nestedAsync rfl hdepth ⟨some "wrap", some "lib"⟩
  obtain ⟨hwrapper, _, himport⟩ := hwhole "wrap" "lib" rfl
  have hfst : memo.inner.map Prod.fst = [7, 3] := hnodes.trans (by decide +kernel)
  have hsome : references ≠ [] := by
    rintro rfl
    rw [List.map_eq_nil_iff.mp hsnd] at hfst
    cases hfst
  obtain ⟨statement, hnew, hkind, hstatements⟩ := himport hsome
  exact ⟨_, pass, memo, p', references, rfl, hpass, hrun, hfst, hsnd, hdistinct, hwrapper,
    statement, hnew, hkind, hstatements.trans (by rfl)⟩

end DryRun
end Settle
