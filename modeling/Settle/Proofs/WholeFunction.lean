import Settle.Proofs.Quiet
import Settle.Proofs.Replant

/-! Lowering whole functions, as a walk over trees.

A visit lowers an async function and leaves every other node alone (`Wraps`). The
wrapper is imported once, with the first function that is lowered; what a walk
knows throughout (`Wrapping`) is that either nothing was changed yet, or the import
stands in the file and the cached reference is an identifier of its local name. The
root and the nodes of the import are kept aside: they are in no tree that is
walked over. -/
namespace Settle

/-- What a visit makes of the tree at a node, with new nodes from `base` on: an async function is
lowered through a reference to the wrapper, everything else stays. -/
inductive Wraps (base : Nat) (localName : String) : Tree NodeId → Tree NodeId → Prop where
  | skip {i : NodeId} {mark : Mark} {slots : List (Tree NodeId)}
      (h : mark.isAsyncFunction = false) : Wraps base localName (.node i mark slots) (.node i mark slots)
  | lower {i reference : NodeId} {mark : Mark} {slots : List (Tree NodeId)}
      {forBlock fresh : Nat → NodeId} (h : mark.isAsyncFunction = true) (hr : base ≤ reference)
      (hb : ∀ k, base ≤ forBlock k) (hf : ∀ k, base ≤ fresh k) :
      Wraps base localName (.node i mark slots)
        (Tree.lowerFunction forBlock fresh (.identifier reference localName) (.node i mark slots))

/-- A program with a file at its root, all of whose statements are nodes. -/
structure Program.Ready (p : Program) (parts : FileParts Ref) : Prop where
  sound : p.store.Sound
  file : p.store.payload? p.root = some (.sourceFile parts)
  statements : ∀ c : Nat, some c ∈ parts.statements → c < p.store.size

/-- The root, and the nodes of an import that is yet to be made. -/
def Program.aside (p : Program) (i : Nat) : Prop :=
  i = p.root ∨ p.store.size ≤ i ∧ i < p.store.size + 5

section Wrapping
open Store
variable {p : Program} {parts : FileParts Ref} {method source : String} {σ : Type}
  {w : Walk (Memo σ)}

/-- The import stands in the file, and a reference to its local name is cached. -/
structure Imported (p : Program) (method source : String) (w : Walk (Memo σ)) : Prop where
  wrapper : w.state.wrapper = some (p.store.size + 5)
  grows : p.store.size + 6 ≤ w.program.store.size
  reference : w.program.store.node? (p.store.size + 5) =
    some (ProgramM.identifierNode (p.names.fresh method).1)
  file : w.program.store.node? p.root = (p.store.node? p.root).map
    (Node.withStatement p.leadingImports (some (p.store.size + 4)))
  nodes : ∀ (k : Nat) (node : Node),
    (ProgramM.importNodes p.store.size method (p.names.fresh method).1 source)[k]? = some node →
      w.program.store.node? (p.store.size + k) = some node

/-- What is known throughout a walk that began with program `p`. -/
structure Wrapping (p : Program) (method source : String) (w : Walk (Memo σ)) : Prop where
  sound : w.program.store.Sound
  root : w.program.root = p.root
  cached : w.state.wrapper = none ∧ w.program = p ∨ Imported p method source w

theorem Program.Ready.root_lt (h : p.Ready parts) : p.root < p.store.size := by
  cases hn : p.store.node? p.root with
  | none =>
    have hfile := h.file
    rw [payload?_eq, hn] at hfile
    cases hfile
  | some node => exact lt_size_of_node? hn

/-- What is made after the import is not aside. -/
theorem Program.Ready.not_aside (h : p.Ready parts) {j : Nat} (hj : p.store.size + 5 ≤ j) :
    ¬p.aside j := by
  rintro (rfl | ⟨_, hlt⟩)
  · exact Nat.not_lt_of_le (Nat.le_trans (Nat.le_add_right _ 5) hj) h.root_lt
  · omega

theorem Program.Ready.exists_node (h : p.Ready parts) :
    ∃ node, p.store.node? p.root = some node ∧ node.kind = .sourceFile ∧
      node.payload = some (.sourceFile parts) := by
  obtain ⟨node, there⟩ := node?_of_lt_size h.root_lt
  have hpayload : node.payload = some (.sourceFile parts) := by
    rw [← payload?_of_node? there, h.file]
  have hform := form_of_node? there hpayload
  refine ⟨node, there, ?_, hpayload⟩
  cases hk : node.kind <;> simp_all [Kind.form?, Payload.form]

theorem isInert_importNodes {n k : Nat} {exported localName source : String} {node : Node}
    (h : (ProgramM.importNodes n exported localName source)[k]? = some node) :
    node.kind.isInert = true := by
  have hmem := List.mem_of_getElem? h
  simp only [ProgramM.importNodes, List.mem_cons, List.not_mem_nil, or_false] at hmem
  rcases hmem with rfl | rfl | rfl | rfl | rfl <;> rfl

/-- The nodes of an import lead to each other. -/
theorem mem_children_importNodes {n c : Nat} {exported localName source : String} {node : Node}
    (h : node ∈ ProgramM.importNodes n exported localName source) (hc : c ∈ node.children) :
    n ≤ c ∧ c < n + 4 := by
  have hpair : ∀ {a b : Nat}, c ∈ [a, b] → c = a ∨ c = b := fun h => by simpa using h
  simp only [ProgramM.importNodes, List.mem_cons, List.not_mem_nil, or_false] at h
  rcases h with rfl | rfl | rfl | rfl | rfl
  · cases hc
  · cases hc
  · rcases hpair hc with rfl | rfl <;> omega
  · cases hc
  · rcases hpair hc with rfl | rfl <;> omega

/-- The import stays where it is as long as only nodes to be lowered are edited. -/
theorem Imported.kept (h : Imported p method source w) (hp : p.Ready parts) {s' : Store}
    (hgrows : w.program.store.size ≤ s'.size)
    (hinert : ∀ (j : Nat) (node : Node), w.program.store.node? j = some node →
      node.kind.isInert = true → s'.node? j = some node) :
    Imported p method source {w with program := {w.program with store := s'}} := by
  obtain ⟨node, there, hkind, hpayload⟩ := hp.exists_node
  refine ⟨h.wrapper, Nat.le_trans h.grows hgrows, hinert _ _ h.reference rfl, ?_, fun k node hk => ?_⟩
  · have hfile := h.file
    rw [there, Option.map_some] at hfile ⊢
    refine hinert _ _ hfile ?_
    simp [Node.withStatement, hpayload, hkind, Kind.isInert]
  · exact hinert _ _ (h.nodes k node hk) (isInert_importNodes hk)

/-- A reference to the wrapper was made, which is new, and all but the root was left as it was. -/
structure Referred (p : Program) (method source : String) (w w₁ : Walk (Memo σ))
    (reference : Nat) : Prop where
  wrapping : Wrapping p method source w₁
  imported : Imported p method source w₁
  new : w.program.store.size ≤ reference
  beyond : p.store.size + 5 ≤ reference
  identifier : w₁.program.store.node? reference =
    some (ProgramM.identifierNode (p.names.fresh method).1)
  grows : w.program.store.size ≤ w₁.program.store.size
  frame : ∀ j : Nat, j < w.program.store.size → j ≠ p.root →
    w₁.program.store.node? j = w.program.store.node? j
  /-- New nodes lead to new nodes. -/
  apart : ∀ j c : Nat, w.program.store.size ≤ j → c ∈ w₁.program.store.children j →
    w.program.store.size ≤ c ∧ c < w₁.program.store.size
  /-- The first reference is cached. -/
  memo : w₁.state = {w.state with wrapper := w.state.wrapper.or (some reference)}

theorem reference_run (hp : p.Ready parts) (hw : Wrapping p method source w) :
    ∃ reference w₁, Pass.wrapperReference method source w = .ok reference w₁ ∧
      Referred p method source w w₁ reference := by
  have hroot := hp.root_lt
  rcases hw.cached with ⟨hnone, hsame⟩ | himported
  · obtain ⟨program, memo⟩ := w
    obtain rfl : program = p := hsame
    obtain ⟨s', hrun, hrev⟩ := ProgramM.importNamed_run hp.sound hp.file hp.statements method source
    have himported : Imported program method source
        ⟨{program with store := s', names := (program.names.fresh method).2},
          {memo with wrapper := some (program.store.size + 5)}⟩ := by
      refine ⟨rfl, Nat.le_of_eq hrev.size.symm, hrev.new 5 _ rfl, ?_, fun k node hk => ?_⟩
      · show s'.node? program.root = _
        rw [hrev.old program.root hroot]
        cases program.store.node? program.root with
        | none => rfl
        | some node => rw [Option.map_some, Option.map_some, editAt_self]
      · have hlt := (List.getElem?_eq_some_iff.mp hk).1
        exact hrev.new k node (by rw [List.getElem?_append_left hlt, hk])
    refine ⟨program.store.size + 5, _, Pass.wrapperReference_first hnone hrun,
      ⟨hrev.sound, rfl, .inr himported⟩, himported, Nat.le_add_right _ _, Nat.le_refl _,
      himported.reference, hrev.grows,
      fun j hj hne => hrev.old_of_eq hj fun node => editAt_of_ne hne _ node, fun j c hj hc => ?_,
      by rw [show memo.wrapper = none from hnone]; rfl⟩
    obtain ⟨node, hnode, hc⟩ := hrev.children_new hj hc
    have hsize : s'.size = program.store.size + 6 := hrev.size
    rcases List.mem_append.mp hnode with hnode | hnode
    · obtain ⟨hge, hlt⟩ := mem_children_importNodes hnode hc
      exact ⟨hge, show c < s'.size by omega⟩
    · rw [List.mem_singleton.mp hnode] at hc
      cases hc
  · obtain ⟨s', hrun, hrev⟩ := ProgramM.copyReference_run hw.sound himported.reference
    have hkeep : ∀ j : Nat, j < w.program.store.size → s'.node? j = w.program.store.node? j :=
      fun j hj => hrev.old_of_keep hj
    have hgrows := himported.grows
    have himported' := himported.kept hp hrev.grows fun j node there _ =>
      (hkeep j (lt_size_of_node? there)).trans there
    refine ⟨w.program.store.size, _, Pass.wrapperReference_cached himported.wrapper hrun,
      ⟨hrev.sound, hw.root, .inr himported'⟩, himported', Nat.le_refl _, by omega,
      hrev.new 0 _ rfl, hrev.grows, fun j hj _ => hkeep j hj, fun j c hj hc => ?_,
      by rw [himported.wrapper]; exact congrArg (Memo.mk · w.state.inner) himported.wrapper⟩
    obtain ⟨node, hnode, hc⟩ := hrev.children_new hj hc
    rw [List.mem_singleton.mp hnode] at hc
    cases hc

theorem isEligible_of_holds {s : Store} (hs : s.Sound) {i : NodeId} {mark : Mark}
    {slots : List (Tree NodeId)} (h : s.Holds (.node i mark slots)) {kind : FunctionKind}
    (hkind : mark.kind = .function kind) : s.isEligible i = mark.isAsyncFunction := by
  obtain ⟨node, there, rfl, names, _⟩ := holds_node_iff.mp h
  obtain ⟨parts, _, _, hpayload, _⟩ := hs.function_slots there hkind names
  rw [isEligible_of_node? there, Node.isEligible, hpayload, Mark.isAsyncFunction, hkind]
  simp only [Node.mark, hpayload, Option.map_some, Payload.detail, Kind.isFunction, Bool.true_and]
  cases parts.isAsync <;> cases parts.isGenerator <;> rfl

/-- Only functions are visited. -/
theorem exists_functionKind {kind : Kind} (h : kind ∈ (Strategy.wholeFunction method source).kinds) :
    ∃ of, kind = .function of := by
  simp only [Strategy.kinds, List.mem_cons, List.not_mem_nil, or_false] at h
  rcases h with rfl | rfl | rfl | rfl <;> exact ⟨_, rfl⟩

/-- **Each visit wraps** the tree at its node. -/
theorem acts_wraps (hp : p.Ready parts) (method source : String) :
    Acts (Pass.ofStrategy (.wholeFunction method source) (Lowering.standard : Lowering Unit)) p.aside
      (Wrapping p method source) (Wraps p.store.size (p.names.fresh method).1) where
  visited := by
    intro w i mark slots visitor hw hplanted hvisitor
    have hheld := hplanted.holds _ List.mem_cons_self
    rw [visitor?_ofStrategy] at hvisitor
    split at hvisitor
    · rename_i hmem
      obtain rfl := Option.some.inj hvisitor
      obtain ⟨kind, hkind⟩ := exists_functionKind hmem
      have heligible := isEligible_of_holds hw.sound hheld hkind
      cases hasync : mark.isAsyncFunction with
      | false =>
        rw [hasync] at heligible
        exact ⟨w, mark, slots, Pass.visitFunction_skip _ method source heligible, hw, .skip hasync,
          .refl hplanted⟩
      | true =>
        rw [hasync] at heligible
        obtain ⟨reference, w₁, hrun, hreferred⟩ := reference_run hp hw
        have hframe : ∀ j : Nat, j < w.program.store.size → ¬p.aside j →
            w₁.program.store.node? j = w.program.store.node? j :=
          fun j hj ho => hreferred.frame j hj fun h => ho (.inl h)
        have hhelper : Planted p.aside w₁.program.store
            [.identifier reference (p.names.fresh method).1] := by
          refine ⟨List.forall_mem_singleton.mpr (holds_made hreferred.identifier rfl rfl
            fun t ht => absurd ht List.not_mem_nil), List.nodup_singleton _, fun j hj => ?_⟩
          rw [List.mem_singleton.mp hj]
          exact hp.not_aside hreferred.beyond
        have hhelpernew : ∀ j ∈ (Tree.identifier reference (p.names.fresh method).1).tags,
            w.program.store.size ≤ j := fun j hj => (List.mem_singleton.mp hj) ▸ hreferred.new
        have hbeside := hplanted.beside hframe hhelper hhelpernew
        have hsize := hreferred.imported.grows
        obtain ⟨fparts, s', next, hpayload, hnext, hlower, hrebuilt⟩ :=
          lowerFunction_tree hreferred.wrapping.sound hbeside (fun j hj => hp.not_aside (by omega)) hkind
        have hkind₁ : w₁.program.store.kind? i = some (.function kind) :=
          ((hbeside.holds _ List.mem_cons_self).kind? rfl).trans (congrArg some hkind)
        refine ⟨{w₁ with program := {w₁.program with store := s'}}, _, _,
          Pass.visitFunction_ok heligible hrun (ProgramM.lower_function hkind₁ hpayload hlower),
          ⟨hrebuilt.sound, hreferred.wrapping.root,
            .inr (hreferred.imported.kept hp hrebuilt.grows hrebuilt.inert)⟩,
          .lower hasync (Nat.le_trans (Nat.le_add_right _ 5) hreferred.beyond) (fun k => ?_) (fun k => ?_),
          hrebuilt.grown hreferred.grows hframe hhelpernew rfl⟩
        · show p.store.size ≤ w₁.program.store.size + k
          omega
        · show p.store.size ≤ next + k
          omega
    · cases hvisitor
  skipped := by
    intro i mark slots hvisitor
    rw [visitor?_ofStrategy] at hvisitor
    split at hvisitor
    · cases hvisitor
    · rename_i hmem
      refine .skip ?_
      rw [Mark.isAsyncFunction]
      cases hkind : mark.kind with
      | function kind => cases kind <;> simp [Strategy.kinds, hkind] at hmem
      | _ => rfl

end Wrapping

/-! ### A whole run -/

namespace Tree
variable {α : Type}

/-- `import { exported as localName } from source` -/
def importing (fresh : Nat → α) (exported localName source : String) : Tree α :=
  made (fresh 4) .importDeclaration (.importDeclaration
    ⟨[made (fresh 2) .importSpecifier (.importSpecifier
        ⟨identifier (fresh 0) exported, identifier (fresh 1) localName⟩)],
     made (fresh 3) (.literal .string) (.literal source)⟩)

theorem tags_importing (fresh : Nat → α) (exported localName source : String) :
    (importing fresh exported localName source).tags =
      [fresh 4, fresh 2, fresh 0, fresh 1, fresh 3] := rfl

/-- Statements with one more, after the imports that they begin with. -/
def afterImports (statement : Tree α) (before statements : List (Tree α)) : List (Tree α) :=
  let leading := (before.takeWhile fun t => t.kind? == some .importDeclaration).length
  statements.take leading ++ statement :: statements.drop leading

theorem mem_afterImports {statement t : Tree α} {before statements : List (Tree α)} :
    t ∈ afterImports statement before statements ↔ t = statement ∨ t ∈ statements := by
  rw [afterImports, List.mem_append, List.mem_cons, or_left_comm, ← List.mem_append,
    List.take_append_drop]

theorem tags_afterImports (statement : Tree α) (before statements : List (Tree α)) :
    ((afterImports statement before statements).flatMap tags).Perm
      (statement.tags ++ statements.flatMap tags) := by
  rw [afterImports, List.flatMap_append, List.flatMap_cons, ← List.append_assoc]
  refine (List.perm_append_comm.append_right _).trans ?_
  rw [List.append_assoc, ← List.flatMap_append, List.take_append_drop]

end Tree

section Run
open Store
variable {p : Program} {mark : Mark} {statements : List (Tree NodeId)} {method source : String}

theorem Program.Grounded.exists_ready (h : p.Grounded mark statements) :
    ∃ parts, p.Ready parts ∧ parts.statements = statements.map Tree.ref := by
  obtain ⟨node, there, rfl, names, below⟩ := holds_node_iff.mp h.held
  have hkind : node.kind = .sourceFile := h.kind
  obtain ⟨payload, hpayload, hform⟩ := h.sound.payload_of_node? there (by rw [hkind]; rfl)
  rw [hkind] at hform
  cases payload with
  | sourceFile parts =>
    have hnames : parts.statements = statements.map Tree.ref := by
      rw [← names, Node.slots, hpayload]
      rfl
    refine ⟨parts, ⟨h.sound, by rw [payload?_of_node? there, hpayload], fun c hc => ?_⟩, hnames⟩
    rw [hnames] at hc
    obtain ⟨t, ht, href⟩ := List.mem_map.mp hc
    cases t with
    | empty => cases href
    | node i mark slots =>
      obtain rfl := Option.some.inj href
      exact (below _ ht).lt_size _ (by simp)
  | _ => cases hform

theorem Program.Grounded.planted (h : p.Grounded mark statements) :
    Planted p.aside p.store statements := by
  obtain ⟨_, _, _, _, below⟩ := holds_node_iff.mp h.held
  have hnodup := h.nodup
  rw [Tree.tags_node, List.nodup_cons] at hnodup
  refine ⟨below, hnodup.2, fun j hj ho => ?_⟩
  rcases ho with rfl | ⟨hge, _⟩
  · exact hnodup.1 hj
  · exact absurd (h.held.lt_size j (by simp [hj])) (Nat.not_lt.mpr hge)

/-- The imports that a file begins with can be counted in its tree. -/
theorem Program.Grounded.leadingImports_eq (h : p.Grounded mark statements) :
    p.leadingImports =
      (statements.takeWhile fun t => t.kind? == some .importDeclaration).length := by
  obtain ⟨parts, hready, hnames⟩ := h.exists_ready
  obtain ⟨_, _, _, _, below⟩ := holds_node_iff.mp h.held
  have hstatements : p.statements = statements.map Tree.ref := by
    rw [Program.statements, hready.file]
    exact hnames
  have himport : ∀ t ∈ statements,
      p.isImport t.ref = (t.kind? == some .importDeclaration) := fun t ht => by
    cases t with
    | empty => rfl
    | node i mark slots =>
      rw [Program.isImport, Tree.ref_node, Option.bind_some, (below _ ht).kind? rfl]
  rw [Program.leadingImports, hstatements, List.takeWhile_map, List.length_map]
  exact congrArg List.length (takeWhile_congr himport)

/-- The walk over a file is the walk over its statements. -/
theorem visit_file {σ : Type} (h : p.Grounded mark statements) (strategy : Strategy)
    (lowering : Lowering σ) (memo : Memo σ) (depth : Nat) :
    (Pass.ofStrategy strategy lowering).visit (depth + 1) p.root ⟨p, memo⟩ =
      (statements.filterMap Tree.ref).forM
        ((Pass.ofStrategy strategy lowering).visit depth) ⟨p, memo⟩ := by
  have hkind : p.store.kind? p.root = some .sourceFile :=
    (h.held.kind? rfl).trans (congrArg some h.kind)
  have hnone := visitor?_sourceFile strategy lowering
  rw [@visit_succ _ _ ⟨p, memo⟩ ⟨p, memo⟩ p.root _ hkind (fun visitor hv => by
    rw [hnone] at hv
    cases hv) (fun _ => rfl)]
  show (p.store.children p.root).forM
    ((Pass.ofStrategy strategy lowering).visit depth) ⟨p, memo⟩ = _
  rw [h.held.children]

/-- A run that lowers whole functions wraps the statements of the file, one after the other. -/
theorem run_whole (h : p.Grounded mark statements) (method source : String) :
    ∃ complete w statements',
      Ended w complete ((Pass.ofStrategy (.wholeFunction method source) Lowering.standard).visit
        depthLimit p.root ⟨p, {inner := ()}⟩) ∧
      Wrapping p method source w ∧
      Grown p.aside p.store statements w.program.store statements' ∧
      List.Forall₂ (Walked (Wraps p.store.size (p.names.fresh method).1) complete (depthLimit - 1))
        statements statements' := by
  obtain ⟨parts, hready, _⟩ := h.exists_ready
  have hstart : Wrapping p method source ⟨p, {inner := ()}⟩ := ⟨h.sound, rfl, .inl ⟨rfl, rfl⟩⟩
  have hfile := visit_file h (.wholeFunction method source) Lowering.standard {inner := ()}
    (depthLimit - 1)
  rw [show depthLimit - 1 + 1 = depthLimit from rfl] at hfile
  rw [hfile]
  exact walk_forest (acts_wraps hready method source) (depthLimit - 1) statements _ hstart h.planted

/-- A run that does not stop is a walk that went through. -/
theorem settle_whole {options : Options} {wrapper : Ref} {p' : Program}
    (h : p.Grounded mark statements) (hstrategy : options.strategy = .wholeFunction method source)
    (hok : ProgramM.settle options p = .ok wrapper p') :
    ∃ w statements', w.program = p' ∧
      Ended w true ((Pass.ofStrategy (.wholeFunction method source) Lowering.standard).visit
        depthLimit p.root ⟨p, {inner := ()}⟩) ∧
      Wrapping p method source w ∧
      Grown p.aside p.store statements w.program.store statements' ∧
      List.Forall₂ (Walked (Wraps p.store.size (p.names.fresh method).1) true (depthLimit - 1))
        statements statements' := by
  obtain ⟨complete, w, statements', hended, hw, hgrown, hwalked⟩ := run_whole h method source
  rw [settle_run, hstrategy] at hok
  generalize Pass.visit _ depthLimit p.root _ = result at hended hok
  cases hended with
  | whole =>
    cases hok
    exact ⟨w, statements', rfl, .whole (), hw, hgrown, hwalked⟩
  | stopped => cases hok

/-- The statements of the file after a walk: with the import, if there was one. -/
def finalStatements (p : Program) (method source : String) (wrapper : Ref)
    (statements statements' : List (Tree NodeId)) : List (Tree NodeId) :=
  if wrapper.isSome then
    Tree.afterImports (.importing (p.store.size + ·) method (p.names.fresh method).1 source)
      statements statements'
  else
    statements'

theorem mem_finalStatements {wrapper : Ref} {statements' : List (Tree NodeId)} {t : Tree NodeId} :
    t ∈ finalStatements p method source wrapper statements statements' ↔
      wrapper.isSome ∧ t = .importing (p.store.size + ·) method (p.names.fresh method).1 source ∨
        t ∈ statements' := by
  rw [finalStatements]
  split
  · rename_i h
    rw [Tree.mem_afterImports, h]
    simp
  · rename_i h
    simp [h]

theorem Imported.holds_importing {w : Walk (Memo Unit)} (h : Imported p method source w) :
    w.program.store.Holds
      (.importing (p.store.size + ·) method (p.names.fresh method).1 source) := by
  have hleaf : ∀ {i : NodeId} {text : String},
      w.program.store.node? i = some (ProgramM.identifierNode text) →
        w.program.store.Holds (.identifier i text) := fun there =>
    holds_made there rfl rfl fun t ht => absurd ht List.not_mem_nil
  have hspecifier := List.forall_mem_cons.mpr ⟨hleaf (h.nodes 0 _ rfl),
    List.forall_mem_singleton.mpr (hleaf (h.nodes 1 _ rfl))⟩
  have hsource : w.program.store.Holds
      (.made (p.store.size + 3) (.literal .string) (.literal source)) :=
    holds_made (h.nodes 3 _ rfl) rfl rfl fun t ht => absurd ht List.not_mem_nil
  refine holds_made (h.nodes 4 _ rfl) rfl rfl (List.forall_mem_cons.mpr
    ⟨holds_made (h.nodes 2 _ rfl) rfl rfl hspecifier, List.forall_mem_singleton.mpr hsource⟩)

/-- After a walk the store holds what came of the statements, in the same file, and the import if
one was made. -/
theorem Wrapping.held {w : Walk (Memo Unit)} {statements' : List (Tree NodeId)}
    (h : p.Grounded mark statements) (hw : Wrapping p method source w)
    (hgrown : Grown p.aside p.store statements w.program.store statements') :
    w.program.store.Holds (.node p.root mark
        (finalStatements p method source w.state.wrapper statements statements')) ∧
      (Tree.node p.root mark
        (finalStatements p method source w.state.wrapper statements statements')).tags.Nodup := by
  have hplanted := hgrown.planted
  obtain ⟨node, there, hmark, names, _⟩ := holds_node_iff.mp h.held
  have hroot : p.root ∉ statements'.flatMap Tree.tags :=
    fun hj => hplanted.inside p.root hj (.inl rfl)
  rcases hw.cached with ⟨hnone, hsame⟩ | himported
  · have hheld : w.program.store.Holds (.node p.root mark statements') :=
      holds_node_iff.mpr ⟨node, by rw [hsame, there], hmark, by rw [names, hgrown.refs],
        hplanted.holds⟩
    rw [finalStatements, hnone, if_neg (by simp), Tree.tags_node, List.nodup_cons]
    exact ⟨hheld, hroot, hplanted.nodup⟩
  · obtain ⟨parts, hready, hnames⟩ := h.exists_ready
    have himport := himported.holds_importing
    have hpayload : node.payload = some (.sourceFile parts) := by
      rw [← payload?_of_node? there, hready.file]
    rw [finalStatements, himported.wrapper, Option.isSome_some, if_pos rfl]
    have hheld : w.program.store.Holds (.node p.root mark (Tree.afterImports
        (.importing (p.store.size + ·) method (p.names.fresh method).1 source) statements
          statements')) := by
      refine holds_node_iff.mpr ⟨node.withStatement p.leadingImports (some (p.store.size + 4)), ?_,
        ?_, ?_, fun t ht => ?_⟩
      · rw [himported.file, there, Option.map_some]
      · rw [← hmark]
        simp [Node.withStatement, hpayload, Node.mark, Payload.detail]
      · rw [Tree.afterImports, ← h.leadingImports_eq, List.map_append, List.map_cons, List.map_take,
          List.map_drop, hgrown.refs, ← hnames]
        simp [Node.withStatement, hpayload, Node.slots, Payload.slots, Tree.importing, Tree.made]
      · rcases Tree.mem_afterImports.mp ht with rfl | ht
        · exact himport
        · exact hplanted.holds t ht
    refine ⟨hheld, ?_⟩
    have hlt := hready.root_lt
    have haside : ∀ j ∈ (Tree.importing (p.store.size + ·) method (p.names.fresh method).1
        source).tags, p.aside j ∧ p.store.size ≤ j := by
      intro (j : Nat) hj
      rw [Tree.tags_importing] at hj
      simp only [List.mem_cons, List.not_mem_nil, or_false] at hj
      rcases hj with rfl | rfl | rfl | rfl | rfl <;> exact ⟨.inr ⟨by omega, by omega⟩, by omega⟩
    rw [Tree.tags_node, List.nodup_cons, (Tree.tags_afterImports _ _ _).mem_iff,
      (Tree.tags_afterImports _ _ _).nodup_iff, List.mem_append, not_or]
    refine ⟨⟨fun hj => Nat.not_lt_of_le (haside _ hj).2 hlt, hroot⟩,
      List.nodup_append'.mpr ⟨?_, hplanted.nodup, fun j hj hj' => ?_⟩⟩
    · rw [Tree.tags_importing]
      simp
    · exact hplanted.inside j hj' (haside j hj).1

/-- **The tree of the program after a walk.** -/
theorem Wrapping.tree {w : Walk (Memo Unit)} {statements' : List (Tree NodeId)}
    (h : p.Grounded mark statements) (hw : Wrapping p method source w)
    (hgrown : Grown p.aside p.store statements w.program.store statements') :
    w.program.tree? = some (.node p.root mark
      (finalStatements p method source w.state.wrapper statements statements')) := by
  obtain ⟨hheld, hnodup⟩ := hw.held h hgrown
  rw [Program.tree?, hw.root]
  exact hheld.tree?_size hnodup

end Run
end Settle
