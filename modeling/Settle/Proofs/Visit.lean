import Settle.Pass
import Settle.Proofs.Effect
import Settle.Proofs.Lists

/-! What a visit does to a program.

A visitor of the pass leaves a node that is not eligible alone. For an eligible one
it first gets a reference to the helper: the import of the wrapper with the first
function (`importNamed_run`), a copy of the cached reference with the others
(`copyReference_run`), a reference under the registered name for a try expression
(`useHelper_run`). Then the node is lowered. On a sound store, with a source file
at the root and an identifier in the cache, none of this can fault. -/
namespace Settle

section Result
variable {ε σ α β : Type} {x : EStateM ε σ α} {f : α → EStateM ε σ β} {a : α} {s s' : σ} {e : ε}

theorem bind_ok (h : x s = .ok a s') : (x >>= f) s = f a s' := by
  show EStateM.bind x f s = _
  rw [EStateM.bind, h]

theorem bind_error (h : x s = .error e s') : (x >>= f) s = .error e s' := by
  show EStateM.bind x f s = _
  rw [EStateM.bind, h]

/-- Whether a result is one. -/
def isOk : EStateM.Result ε σ α → Bool
  | .ok _ _ => true
  | .error _ _ => false

theorem exists_of_isOk {r : EStateM.Result ε σ α} (h : isOk r = true) : ∃ a s, r = .ok a s := by
  cases r with
  | ok a s => exact ⟨a, s, rfl⟩
  | error => cases h

/-- Whether a result is one and leaves a state that passes a test. -/
def leaves (test : σ → Bool) : EStateM.Result ε σ α → Bool
  | .ok _ s => test s
  | .error _ _ => false

theorem exists_of_leaves {test : σ → Bool} {r : EStateM.Result ε σ α} (h : leaves test r = true) :
    ∃ a s, r = .ok a s ∧ test s = true := by
  cases r with
  | ok a s => exact ⟨a, s, rfl, h⟩
  | error => cases h

theorem get_ok (s : σ) : (get : EStateM ε σ σ) s = .ok s s := rfl

end Result

namespace ProgramM
open Store
variable {p : Program}

theorem edit_ok {α : Type} {operation : Edit α} {a : α} {s' : Store}
    (h : operation p.store = (a, s')) : edit operation p = .ok a {p with store := s'} := by
  show EStateM.Result.ok (operation p.store).1 {p with store := (operation p.store).2} = _
  rw [h]

/-! ### References -/

/-- An identifier that no source text stands behind. -/
def identifierNode (text : String) : Node := .made .identifier (.identifier text)

theorem makeIdentifier_run (hs : p.store.Sound) (text : String) :
    ∃ s', edit (Edit.makeIdentifier text) p = .ok p.store.size {p with store := s'} ∧
      Revision p.store s' keep [identifierNode text] := by
  obtain ⟨s', hrun, hrev⟩ := Edit.make_run hs (show Kind.identifier.form? =
    some (Payload.identifier text).form from rfl)
  exact ⟨s', edit_ok hrun, hrev⟩

/-- A copy of an identifier is an identifier of the same text. -/
theorem copyReference_run (hs : p.store.Sound) {reference : NodeId} {text : String}
    (h : p.store.node? reference = some (identifierNode text)) :
    ∃ s', copyReference reference p = .ok p.store.size {p with store := s'} ∧
      Revision p.store s' keep [identifierNode text] := by
  obtain ⟨header, hh, hnode⟩ := Option.map_eq_some_iff.mp h
  have hpayload : p.store.payload? reference = some (.identifier text) := payload?_of_node? h
  have hkind : header.kind = .identifier := congrArg Node.kind hnode
  have hflags : header.flags = 0 := congrArg Node.flags hnode
  have hspan : header.span = .zero := congrArg Node.span hnode
  refine ⟨p.store.push .identifier 0 .zero (.identifier text), ?_, revision_push hs 0 .zero rfl⟩
  have hcopy : Edit.copy reference p.store =
      (some p.store.size, p.store.push .identifier 0 .zero (.identifier text)) := by
    have hpos : 0 < Edit.idBound := Nat.two_pow_pos 32
    obtain ⟨depth, hdepth⟩ : ∃ depth, p.store.size + Edit.idBound = depth + 1 :=
      ⟨p.store.size + (Edit.idBound - 1), by omega⟩
    rw [Edit.copy_run, hdepth, Edit.copyWithin, Edit.bind_run (Edit.get_run p.store), hh, hpayload]
    simp only [hkind, hflags, hspan]
    rfl
  rw [copyReference, bind_ok (edit_ok hcopy)]
  rfl

/-- A reference to the try helper: an identifier under its registered name. The first request makes
up that name and registers the helper. -/
theorem useHelper_run (hs : p.store.Sound) :
    ∃ s' localName helpers names,
      useHelper Helper.tryAwait.name p = .ok p.store.size {p with store := s', helpers, names} ∧
      Revision p.store s' keep [identifierNode localName] ∧
      (p.localName? Helper.tryAwait.name = some localName ∧ helpers = p.helpers ∧ names = p.names ∨
        p.localName? Helper.tryAwait.name = none ∧
          helpers = p.helpers ++ [(.tryAwait, localName)] ∧
          p.names.fresh Helper.tryAwait.name = (localName, names)) := by
  rw [useHelper, bind_ok (get_ok p)]
  cases hname : p.localName? Helper.tryAwait.name with
  | some localName =>
    obtain ⟨s', hrun, hrev⟩ := makeIdentifier_run hs localName
    exact ⟨s', localName, p.helpers, p.names, hrun, hrev, .inl ⟨rfl, rfl, rfl⟩⟩
  | none =>
    rcases hfresh : p.names.fresh Helper.tryAwait.name with ⟨localName, names⟩
    let named : Program :=
      {p with names, helpers := p.helpers ++ [(.tryAwait, localName)]}
    obtain ⟨s', hrun, hrev⟩ := @makeIdentifier_run named hs localName
    have hname' : freshName Helper.tryAwait.name p = .ok localName {p with names} := by
      show EStateM.Result.ok (p.names.fresh Helper.tryAwait.name).1
        {p with names := (p.names.fresh Helper.tryAwait.name).2} = _
      rw [hfresh]
    refine ⟨s', localName, _, names, ?_, hrev, .inr ⟨rfl, rfl, rfl⟩⟩
    exact (bind_ok hname').trans ((bind_ok rfl).trans hrun)

/-! ### Imports -/

/-- The nodes of an import, the first of which is node `n`. -/
def importNodes (n : Nat) (exported localName source : String) : List Node :=
  [identifierNode exported,
   identifierNode localName,
   .made .importSpecifier (.importSpecifier ⟨some n, some (n + 1)⟩),
   .made (.literal .string) (.literal source),
   .made .importDeclaration (.importDeclaration ⟨[some (n + 2)], some (n + 3)⟩)]

end ProgramM

/-- A source file with one more statement. -/
def Node.withStatement (position : Nat) (statement : Ref) (node : Node) : Node :=
  match node.payload with
  | some (.sourceFile parts) =>
    {node with payload := some (.sourceFile {parts with
      statements := parts.statements.take position ++ statement :: parts.statements.drop position})}
  | _ => node

theorem Edit.insertStatement_run {s : Store} (hs : s.Sound) {i : Nat} {parts : FileParts Ref}
    (h : s.payload? i = some (.sourceFile parts)) (position : Nat) (statement : Ref) :
    ∃ s', insertStatement i position statement s = (true, s') ∧
      Store.Revision s s' (Store.editAt i (Node.withStatement position statement)) [] := by
  obtain ⟨s', hrun, hrev⟩ : ∃ s', insertStatement i position statement s = (_, s') ∧
      Store.Revision s s' (Store.editAt i (Node.withStatement position statement)) [] := by
    refine revise_adopt_run hs i statement (fun old new hnew => ?_) (fun node hnode => ?_)
    · split at hnew
      · cases hnew
        rfl
      · cases hnew
        rfl
      · cases hnew
    · rw [Store.payload?_of_node? hnode] at h
      simp [revised, Node.withStatement, h]
  rw [h] at hrun
  exact ⟨s', hrun, hrev⟩

namespace ProgramM
open Store
variable {p : Program}

theorem makeImport_run {s : Store} (hs : s.Sound) (exported localName source : String) :
    ∃ s', (do
        let outer ← Edit.makeIdentifier exported
        let inner ← Edit.makeIdentifier localName
        let specifier ← Edit.make .importSpecifier (.importSpecifier ⟨some outer, some inner⟩)
        let source ← Edit.make (.literal .string) (.literal source)
        Edit.make .importDeclaration (.importDeclaration ⟨[some specifier], some source⟩)) s =
          (s.size + 4, s') ∧
      Revision s s' keep (importNodes s.size exported localName source) := by
  obtain ⟨s₁, run₁, rev₁⟩ := Edit.Revision.make (.refl hs) (show Kind.identifier.form? =
    some (Payload.identifier exported).form from rfl)
  obtain ⟨s₂, run₂, rev₂⟩ := Edit.Revision.make rev₁ (show Kind.identifier.form? =
    some (Payload.identifier localName).form from rfl)
  obtain ⟨s₃, run₃, rev₃⟩ := Edit.Revision.make rev₂ (show Kind.importSpecifier.form? =
    some (Payload.importSpecifier ⟨some s.size, some (s.size + 1)⟩).form from rfl)
  obtain ⟨s₄, run₄, rev₄⟩ := Edit.Revision.make rev₃ (show (Kind.literal .string).form? =
    some (Payload.literal source).form from rfl)
  obtain ⟨s₅, run₅, rev₅⟩ := Edit.Revision.make rev₄ (show Kind.importDeclaration.form? =
    some (Payload.importDeclaration ⟨[some (s.size + 2)], some (s.size + 3)⟩).form from rfl)
  exact ⟨s₅, (Edit.bind_run run₁).trans <| (Edit.bind_run run₂).trans <|
    (Edit.bind_run run₃).trans <| (Edit.bind_run run₄).trans run₅, rev₅⟩

/-- Nodes that are added do not count among the imports that a file begins with. -/
theorem leadingImports_eq {s' : Store} {added : List Node} (h : Revision p.store s' keep added)
    {parts : FileParts Ref} (hroot : p.store.payload? p.root = some (.sourceFile parts))
    (hstatements : ∀ c : Nat, some c ∈ parts.statements → c < p.store.size) (names : Names) :
    {p with store := s', names}.leadingImports = p.leadingImports := by
  have hlt : p.root < p.store.size := by
    cases hn : p.store.node? p.root with
    | none => simp [payload?_eq, hn] at hroot
    | some node => exact lt_size_of_node? hn
  have hroot' : s'.payload? p.root = some (.sourceFile parts) := by
    rw [payload?_eq, h.old_of_keep hlt, ← payload?_eq, hroot]
  have himport : ∀ statement ∈ parts.statements,
      {p with store := s', names}.isImport statement = p.isImport statement := by
    intro statement hmem
    cases statement with
    | none => rfl
    | some c =>
      simp only [Program.isImport, Option.bind_some, kind?_eq]
      rw [h.old_of_keep (hstatements c hmem)]
  have hsame : {p with store := s', names}.statements = parts.statements := by
    simp [Program.statements, hroot']
  have hold : p.statements = parts.statements := by
    simp [Program.statements, hroot]
  rw [Program.leadingImports, Program.leadingImports, hsame, hold, takeWhile_congr himport]

/-- **An import** is put after those the file begins with. Its five nodes come first, a reference to
its local name last; of the old nodes only the root changes. -/
theorem importNamed_run (hs : p.store.Sound) {parts : FileParts Ref}
    (hroot : p.store.payload? p.root = some (.sourceFile parts))
    (hstatements : ∀ c : Nat, some c ∈ parts.statements → c < p.store.size)
    (exported source : String) :
    ∃ s', importNamed exported source p =
        .ok (p.store.size + 5) {p with store := s', names := (p.names.fresh exported).2} ∧
      Revision p.store s'
        (editAt p.root (Node.withStatement p.leadingImports (some (p.store.size + 4))))
        (importNodes p.store.size exported (p.names.fresh exported).1 source ++
          [identifierNode (p.names.fresh exported).1]) := by
  obtain ⟨s₁, run₁, rev₁⟩ := makeImport_run hs exported (p.names.fresh exported).1 source
  have hlt : p.root < p.store.size := by
    cases hn : p.store.node? p.root with
    | none => simp [payload?_eq, hn] at hroot
    | some node => exact lt_size_of_node? hn
  have hroot₁ : s₁.payload? p.root = some (.sourceFile parts) := by
    rw [payload?_eq, rev₁.old_of_keep hlt, ← payload?_eq, hroot]
  obtain ⟨s₂, run₂, rev₂⟩ := Edit.insertStatement_run rev₁.sound hroot₁ p.leadingImports
    (some (p.store.size + 4))
  let inserted : Program := {p with store := s₂, names := (p.names.fresh exported).2}
  obtain ⟨s₃, run₃, rev₃⟩ := @makeIdentifier_run inserted rev₂.sound (p.names.fresh exported).1
  have hsize : s₂.size = p.store.size + 5 := by
    rw [rev₂.size, rev₁.size]
    rfl
  refine ⟨s₃, ?_, ?_⟩
  · have hname : freshName exported p =
        .ok (p.names.fresh exported).1 {p with names := (p.names.fresh exported).2} := rfl
    have himport := @edit_ok {p with names := (p.names.fresh exported).2} _ _ _ _ run₁
    rw [importNamed, bind_ok hname, bind_ok himport, bind_ok (get_ok _),
      leadingImports_eq rev₁ hroot hstatements, bind_ok (edit_ok run₂)]
    simp only [if_true]
    rw [run₃]
    show EStateM.Result.ok s₂.size _ = _
    rw [hsize]
  · have hne (k : Nat) : p.store.size + k ≠ p.root :=
      Nat.ne_of_gt (Nat.lt_of_lt_of_le hlt (Nat.le_add_right _ _))
    have rev := (rev₁.trans rev₂ fun k node _ => editAt_of_ne (hne k) _ _).trans_add rev₃
    rw [List.append_nil] at rev
    exact rev

/-! ### Lowering a node of a program -/

theorem lower_function [Placing] {i : NodeId} {kind : FunctionKind} {parts : FunctionParts Ref}
    {s' : Store} {helper : Ref} (hkind : p.store.kind? i = some (.function kind))
    (hpayload : p.store.payload? i = some (.function parts))
    (hrun : Edit.lowerFunction i kind parts.body helper p.store = ((), s')) :
    lower i helper p = .ok () {p with store := s'} := by
  rw [lower, bind_ok (get_ok p), hkind, hpayload]
  exact edit_ok hrun

theorem lower_try {i : NodeId} {parts : TryParts Ref} {s' : Store} {helper : Ref}
    (hkind : p.store.kind? i = some .tryExpression)
    (hpayload : p.store.payload? i = some (.tryExpression parts))
    (hrun : Edit.lowerTry i parts.operand helper p.store = ((), s')) :
    lower i helper p = .ok () {p with store := s'} := by
  rw [lower, bind_ok (get_ok p), hkind, hpayload]
  exact edit_ok hrun

end ProgramM

/-! ### Visitors -/

namespace Pass
variable {σ : Type} {w w₁ : Walk (Memo σ)} {i : NodeId} {p : Program}

theorem onProgram_ok {τ α : Type} {operation : ProgramM α} {w : Walk τ} {a : α}
    (h : operation w.program = .ok a p) :
    WalkM.onProgram operation w = .ok a {w with program := p} := by
  rw [WalkM.onProgram, h]
  rfl

theorem handOver_ok {helper : NodeId} (h : ProgramM.lower i (some helper) w.program = .ok () p) :
    handOver (Lowering.standard : Lowering σ) i helper w = .ok () {w with program := p} := by
  show WalkM.mapState _ (WalkM.mapState _ (ProgramM.lower i (some helper) w.program)) = _
  rw [h]
  rfl

theorem visitFunction_skip (lowering : Lowering σ) (method source : String)
    (h : w.program.store.isEligible i = false) :
    visitFunction lowering method source i w = .ok () w := by
  show (if w.program.store.isEligible i = true then _ else _ : WalkM (Memo σ) Unit) w = _
  rw [h]
  rfl

theorem visitFunction_eligible (lowering : Lowering σ) {method source : String} {helper : NodeId}
    (h : w.program.store.isEligible i = true)
    (hreference : wrapperReference method source w = .ok helper w₁) :
    visitFunction lowering method source i w = handOver lowering i helper w₁ := by
  show (if w.program.store.isEligible i = true then _ else _ : WalkM (Memo σ) Unit) w = _
  rw [h, if_pos rfl, bind_ok hreference]

theorem visitFunction_ok {method source : String} {helper : NodeId}
    (h : w.program.store.isEligible i = true)
    (hreference : wrapperReference method source w = .ok helper w₁)
    (hlower : ProgramM.lower i (some helper) w₁.program = .ok () p) :
    visitFunction Lowering.standard method source i w = .ok () {w₁ with program := p} :=
  (visitFunction_eligible _ h hreference).trans (handOver_ok hlower)

theorem visitTry_skip (lowering : Lowering σ) (h : w.program.store.isEligible i = false) :
    visitTry lowering i w = .ok () w := by
  show (if w.program.store.isEligible i = true then _ else _ : WalkM (Memo σ) Unit) w = _
  rw [h]
  rfl

theorem visitTry_eligible (lowering : Lowering σ) {helper : NodeId}
    (h : w.program.store.isEligible i = true)
    (hreference : ProgramM.useHelper Helper.tryAwait.name w.program = .ok helper p) :
    visitTry lowering i w = handOver lowering i helper {w with program := p} := by
  show (if w.program.store.isEligible i = true then _ else _ : WalkM (Memo σ) Unit) w = _
  rw [h, if_pos rfl, bind_ok (onProgram_ok hreference)]

theorem visitTry_ok {helper : NodeId} {p' : Program} (h : w.program.store.isEligible i = true)
    (hreference : ProgramM.useHelper Helper.tryAwait.name w.program = .ok helper p)
    (hlower : ProgramM.lower i (some helper) p = .ok () p') :
    visitTry Lowering.standard i w = .ok () {w with program := p'} :=
  (visitTry_eligible _ h hreference).trans (handOver_ok hlower)

theorem wrapperReference_cached {method source : String} {cached reference : NodeId}
    (h : w.state.wrapper = some cached)
    (hcopy : ProgramM.copyReference cached w.program = .ok reference p) :
    wrapperReference method source w = .ok reference {w with program := p} := by
  rw [wrapperReference, bind_ok (show WalkM.state w = .ok w.state w from rfl), h]
  exact onProgram_ok hcopy

theorem wrapperReference_first {method source : String} {reference : NodeId}
    (h : w.state.wrapper = none)
    (himport : ProgramM.importNamed method source w.program = .ok reference p) :
    wrapperReference method source w = .ok reference ⟨p, {w.state with wrapper := some reference}⟩ := by
  rw [wrapperReference, bind_ok (show WalkM.state w = .ok w.state w from rfl), h]
  exact (bind_ok (onProgram_ok himport)).trans rfl

end Pass
end Settle
