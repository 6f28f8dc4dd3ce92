import Settle.Proofs.Places
import Settle.Proofs.Requests
import Settle.Proofs.Uncut

/-! Imports that are put into a file.

A transformation asks a program for references: imports, helpers, names, copies (`Call`). Whatever
it asks for, and in whatever order, the statements of the file end up as they were, with the
imports between those that the file began with and the rest, in the order in which they were
asked for (`imports_injected`). The place for an import is found anew each time in a list that has
changed, behind nodes that did not exist before; what carries the proof is that the imports so far
stand right after those of the file (`Stage`).

Of the calls it is assumed that copies are asked of nodes from which no way leads back
(`Exchange.Admitted`), and of what they leave that words are enough for it (`Store.Fits`); then no
place has run over on the way and no copy was cut off (`Exchange.Uncut`).

Nothing is assumed of the file but that its statements exist. Three things follow from this that
would not happen in a well-formed tree. A reference that names nothing may come to name an answer.
A node that does not carry what its kind calls for may come to carry something. And another node may
show the statements of the root as its own. -/
namespace Settle

/-! ### Calls -/

/-- What a transformation may ask of a program. -/
inductive Call where
  | importNamed (exported source : String)
  | useHelper (name : String)
  | freshName (base : String)
  | copyReference (reference : NodeId)
  deriving DecidableEq, Repr

namespace Call

/-- Performs a call. A name is answered with no node. -/
def perform [Placing] : Call → ProgramM Ref
  | importNamed exported source => some <$> ProgramM.importNamed exported source
  | useHelper name => some <$> ProgramM.useHelper name
  | freshName base => (fun _ => none) <$> ProgramM.freshName base
  | copyReference reference => some <$> ProgramM.copyReference reference

def isImport : Call → Bool
  | importNamed _ _ => true
  | _ => false

/-- What a call may be answered with: an identifier, and for a copy a node that says what the
original says. -/
def Allows (call : Call) (before : Store) (answer : Node) : Prop :=
  match call with
  | copyReference reference =>
    ∃ original, before.node? reference = some original ∧ answer.mark = original.mark
  | _ => ∃ text, answer = ProgramM.identifierNode text

end Call

/-- The node that a result answers with, if it is no fault. -/
def answerOf {ε σ : Type} : EStateM.Result ε σ Ref → Ref
  | .ok answer _ => answer
  | .error _ _ => none

/-- A call, with the program that it found and the node that it was answered with. -/
structure Exchange where
  call : Call
  before : Program
  answer : Ref

namespace Program

section Ask
variable [Placing]

/-- A program after a call, with a fault or without. -/
def ask (p : Program) (call : Call) : Program := stateOf (call.perform p)

/-- The exchanges that calls lead to. -/
def log (p : Program) : List Call → List Exchange
  | [] => []
  | call :: rest => ⟨call, p, answerOf (call.perform p)⟩ :: (p.ask call).log rest

end Ask

/-- The statements of a program with imports after those that it begins with. -/
def withImports (p : Program) (imports : List NodeId) : List Ref :=
  p.statements.takeWhile p.isImport ++ imports.map some ++ p.statements.dropWhile p.isImport

end Program

/-- An import of one export under a local name, made of nodes from `low` on. -/
def Store.ImportsAs (s : Store) (low : Nat) (exported localName source : String) (i : NodeId) :
    Prop :=
  ∃ specifier outer inner literal,
    (∀ j ∈ [i, specifier, outer, inner, literal], low ≤ j) ∧
    s.node? i =
      some (.made .importDeclaration (.importDeclaration ⟨[some specifier], some literal⟩)) ∧
    s.node? specifier =
      some (.made .importSpecifier (.importSpecifier ⟨some outer, some inner⟩)) ∧
    s.node? outer = some (ProgramM.identifierNode exported) ∧
    s.node? inner = some (ProgramM.identifierNode localName) ∧
    s.node? literal = some (.made (.literal .string) (.literal source))

namespace Exchange

/-- A call for an import has led to one that stands in the file, under the name that the answer
has. -/
def Injects (p : Program) (exchange : Exchange) (i : NodeId) : Prop :=
  ∃ exported source localName reference,
    exchange.call = .importNamed exported source ∧ exchange.answer = some reference ∧
    p.store.node? reference = some (ProgramM.identifierNode localName) ∧
    p.store.ImportsAs exchange.before.store.size exported localName source i ∧
    p.store.parent i = some p.root

/-- What a call was answered with is a new node, and such as the call allows. -/
def Answered (p : Program) (exchange : Exchange) : Prop :=
  ∀ r ∈ exchange.answer, exchange.before.store.size ≤ r ∧
    ∃ node, p.store.node? r = some node ∧ exchange.call.Allows exchange.before.store node

end Exchange

/-! ### The list while it is added to -/

/-- What is known of a program at the beginning: where its statements are kept, and that they are
nodes. -/
structure Opening (start : Program) (home : Form × Nat) : Prop where
  aligned : start.store.parents.size = start.store.size
  address : start.store.address? start.root = some home
  place : home.2 < start.store.pools.size home.1
  statements : ∀ slot ∈ start.statements, ∃ i, slot = some i ∧ i < start.store.size

/-- A program after some calls. -/
structure Stage (start : Program) (home : Form × Nat) (imports answers : List NodeId)
    (p : Program) : Prop where
  root : p.root = start.root
  tidy : start.store.Tidy home answers p.store
  file : ∃ fileName,
    p.store.payload? p.root = some (.sourceFile ⟨fileName, start.withImports imports⟩)
  imported : ∀ i ∈ imports, start.store.size ≤ i ∧ i < p.store.size ∧ i ∉ answers ∧
    p.store.kind? i = some .importDeclaration

namespace Stage
variable {start p p' : Program} {home : Form × Nat} {imports answers : List NodeId} {low : Nat}

open Store

theorem statements_eq (h : Stage start home imports answers p) :
    p.statements = start.withImports imports := by
  obtain ⟨fileName, hfile⟩ := h.file
  rw [Program.statements, hfile]

/-- The imports that were put in are the last of those that the file begins with. -/
theorem takeWhile_statements (hopen : Opening start home) (h : Stage start home imports answers p) :
    p.statements.takeWhile p.isImport =
      start.statements.takeWhile start.isImport ++ imports.map some := by
  have hsame : ∀ slot ∈ start.statements, p.isImport slot = start.isImport slot := by
    intro slot hslot
    obtain ⟨i, rfl, hi⟩ := hopen.statements slot hslot
    simp only [Program.isImport, Option.bind_some, kind?, h.tidy.amends.header i hi]
  have hlead : ∀ slot ∈ start.statements.takeWhile start.isImport ++ imports.map some,
      p.isImport slot = true := by
    rw [List.forall_mem_append]
    constructor
    · intro slot hslot
      rw [hsame slot (List.takeWhile_subset _ hslot)]
      exact List.all_eq_true.mp List.all_takeWhile slot hslot
    · rw [List.forall_mem_map]
      intro i hi
      simp [Program.isImport, (h.imported i hi).2.2.2]
  have hrest : (start.statements.dropWhile start.isImport).takeWhile p.isImport = [] := by
    rw [takeWhile_congr fun slot hslot => hsame slot (List.dropWhile_subset _ hslot)]
    exact takeWhile_dropWhile start.isImport start.statements
  rw [h.statements_eq, Program.withImports, List.takeWhile_append_of_pos hlead, hrest,
    List.append_nil]

/-- Nodes are made. -/
theorem build (h : Stage start home imports answers p) (hroot : p'.root = p.root)
    (hbuilds : Builds low p.store p'.store) (hlow : start.store.size ≤ low)
    (hanswers : ∀ r ∈ answers, r < low) : Stage start home imports answers p' where
  root := hroot.trans h.root
  tidy := h.tidy.builds hlow hanswers hbuilds
  file := by
    obtain ⟨fileName, hfile⟩ := h.file
    exact ⟨fileName, hroot ▸ hbuilds.extends.payload? hfile⟩
  imported := fun i hi => by
    obtain ⟨hle, hlt, hanswer, hkind⟩ := h.imported i hi
    refine ⟨hle, Nat.lt_of_lt_of_le hlt hbuilds.size_le, hanswer, ?_⟩
    rwa [kind?, hbuilds.extends.header i hlt]

/-- A node is made and given away. -/
theorem answer (h : Stage start home imports answers p) (hroot : p'.root = p.root) {node : Node}
    (hstore : p'.store = p.store.grow node) (hlow : start.store.size ≤ low)
    (hanswers : ∀ r ∈ answers, r < low) (fits : node.Fits low p.store.size) :
    Stage start home imports (p.store.size :: answers) p' where
  root := hroot.trans h.root
  tidy := hstore ▸ h.tidy.answer hlow hanswers fits
  file := by
    obtain ⟨fileName, hfile⟩ := h.file
    exact ⟨fileName, hroot ▸ hstore ▸ (extends_grow p.store node).payload? hfile⟩
  imported := fun i hi => by
    obtain ⟨hle, hlt, hanswer, hkind⟩ := h.imported i hi
    rw [hstore, size_grow, kind?, (extends_grow p.store node).header i hlt, List.mem_cons, not_or]
    exact ⟨hle, Nat.lt_succ_of_lt hlt, ⟨Nat.ne_of_lt hlt, hanswer⟩, hkind⟩

theorem address?_root (hopen : Opening start home) (h : Stage start home imports answers p) :
    p.store.address? p.root = some home := by
  obtain ⟨_, hfile⟩ := h.file
  have hlt : start.root < start.store.size := by
    obtain ⟨header, hheader, _⟩ := address?_eq_some_iff.mp hopen.address
    exact (Array.getElem?_eq_some_iff.mp hheader).1
  rw [h.root, h.tidy.amends.address? hlt, hopen.address]

/-- One import more is put in. -/
theorem insert (hopen : Opening start home) (h : Stage start home imports answers p) {i : NodeId}
    (hi : start.store.size ≤ i) (hlt : i < p.store.size) (hanswer : i ∉ answers)
    (hkind : p.store.kind? i = some .importDeclaration) :
    ∃ s', Edit.insertStatement p.root p.leadingImports (some i) p.store = (true, s') ∧
      s'.size = p.store.size ∧ s'.parent i = some p.root ∧
      (∀ low ≤ i, Amends home low p.store s') ∧
      Stage start home (imports ++ [i]) answers {p with store := s'} := by
  obtain ⟨fileName, hfile⟩ := h.file
  have hroot := h.address?_root hopen
  let new : Payload Ref := .sourceFile ⟨fileName, start.withImports (imports ++ [i])⟩
  have hinserted : (p.store.payload? p.root).bind (Edit.inserted p.leadingImports (some i)) =
      some new := by
    rw [hfile, Option.bind_some, Edit.inserted, Program.leadingImports,
      h.takeWhile_statements hopen, Program.withImports, List.take_left, List.drop_left]
    simp [new, Program.withImports]
  have hsize : ((p.store.write p.root new).adopt p.root [some i]).size = p.store.size :=
    congrArg Array.size (headers_write p.store p.root new)
  refine ⟨(p.store.write p.root new).adopt p.root [some i], ?_, hsize, ?_, ?_, ?_⟩
  · rw [Edit.insertStatement_eq]
    exact Edit.bind_run (Edit.revise_of_some hinserted)
  · rw [parent_adopt, parents_write, h.tidy.aligned, if_pos ⟨List.mem_singleton_self _, hlt⟩]
  · exact fun low hle => .rewrite hroot hfile rfl hle
  · refine ⟨h.root, h.tidy.rewrite hopen.place hroot hfile rfl hi, ⟨fileName, ?_⟩, fun j hj => ?_⟩
    · show ((p.store.write p.root new).adopt p.root [some i]).payload? p.root = some new
      rw [payload?_adopt, payload?_write hfile (show new.form = .sourceFile from rfl), if_pos rfl]
    · have hkind' (j : NodeId) : ((p.store.write p.root new).adopt p.root [some i]).kind? j =
          p.store.kind? j := by
        rw [kind?, header?, headers_adopt, headers_write]
        rfl
      rw [hsize, hkind']
      rcases List.mem_append.mp hj with hj | hj
      · exact h.imported j hj
      · obtain rfl := List.mem_singleton.mp hj
        exact ⟨hi, hlt, hanswer, hkind⟩

end Stage

/-! ### Each call -/

namespace ProgramM
open Store

theorem identifierNode_fits (text : String) (low high : Nat) :
    (identifierNode text).Fits low high :=
  ⟨rfl, fun _ hc => absurd hc List.not_mem_nil⟩

theorem importNodes_fits {n : Nat} {exported localName source : String} (k : Nat) (node : Node)
    (h : (importNodes n exported localName source)[k]? = some node) : node.Fits n (n + k) := by
  obtain _ | _ | _ | _ | _ | k := k <;> cases h
  · exact identifierNode_fits exported n n
  · exact identifierNode_fits localName n (n + 1)
  · exact ⟨rfl, by simp [Node.children, Node.slots, Node.made, Payload.slots]⟩
  · exact ⟨rfl, fun _ hc => absurd hc List.not_mem_nil⟩
  · exact ⟨rfl, by simp [Node.children, Node.slots, Node.made, Payload.slots]⟩

theorem makeImport_eq (s : Store) (exported localName source : String) :
    (do
      let outer ← Edit.makeIdentifier exported
      let inner ← Edit.makeIdentifier localName
      let specifier ← Edit.make .importSpecifier (.importSpecifier ⟨some outer, some inner⟩)
      let source ← Edit.make (.literal .string) (.literal source)
      Edit.make .importDeclaration (.importDeclaration ⟨[some specifier], some source⟩)) s =
        (s.size + 4, (importNodes s.size exported localName source).foldl grow s) := by
  have hmake (s : Store) (kind : Kind) (payload : Payload Ref) :
      Edit.make kind payload s = (s.size, s.grow (.made kind payload)) := rfl
  simp only [Edit.makeIdentifier]
  rw [Edit.bind_run (hmake s _ _), Edit.bind_run (hmake _ _ _), Edit.bind_run (hmake _ _ _),
    Edit.bind_run (hmake _ _ _), hmake]
  simp only [size_grow, importNodes, List.foldl_cons, List.foldl_nil, identifierNode]

variable {start p : Program} {home : Form × Nat} {imports answers : List NodeId}

/-- An import, step by step. -/
theorem importNamed_eq {exported source : String} {made s : Store} {statement : NodeId}
    (hmake : (do
      let outer ← Edit.makeIdentifier exported
      let inner ← Edit.makeIdentifier (p.names.fresh exported).1
      let specifier ← Edit.make .importSpecifier (.importSpecifier ⟨some outer, some inner⟩)
      let source ← Edit.make (.literal .string) (.literal source)
      Edit.make .importDeclaration (.importDeclaration ⟨[some specifier], some source⟩)) p.store =
        (statement, made))
    (hinsert : Edit.insertStatement p.root
      {p with store := made, names := (p.names.fresh exported).2}.leadingImports (some statement)
        made = (true, s)) :
    importNamed exported source p =
      .ok s.size {p with
        store := s.grow (identifierNode (p.names.fresh exported).1)
        names := (p.names.fresh exported).2} := by
  have hname : freshName exported p =
      .ok (p.names.fresh exported).1 {p with names := (p.names.fresh exported).2} := rfl
  have himport := @edit_ok {p with names := (p.names.fresh exported).2} _ _ _ _ hmake
  rw [importNamed, bind_ok hname, bind_ok himport, bind_ok (get_ok _), bind_ok (edit_ok hinsert)]
  rfl

/-- **An import is put in after those so far.** -/
theorem importNamed_stage (hopen : Opening start home) (h : Stage start home imports answers p)
    (exported source : String) :
    ∃ p', importNamed exported source p = .ok (p.store.size + 5) p' ∧
      Stage start home (imports ++ [p.store.size + 4]) ((p.store.size + 5) :: answers) p' ∧
      Amends home p.store.size p.store p'.store ∧
      Exchange.Injects p' ⟨.importNamed exported source, p, some (p.store.size + 5)⟩
        (p.store.size + 4) := by
  let localName := (p.names.fresh exported).1
  let made := (importNodes p.store.size exported localName source).foldl grow p.store
  let named : Program := {p with names := (p.names.fresh exported).2}
  have hlow := h.tidy.amends.grows
  have hanswers : ∀ r ∈ answers, r < p.store.size := fun r hr => (h.tidy.answered r hr).2
  have hbuilds : Builds p.store.size p.store made := builds_foldl_grow importNodes_fits
  have hsize : made.size = p.store.size + 5 := size_foldl_grow _ p.store
  have hmade : Stage start home imports answers {named with store := made} :=
    h.build rfl hbuilds hlow hanswers
  have hnodes (k : Nat) (hk : k < 5) : made.node? (p.store.size + k) =
      (importNodes p.store.size exported localName source)[k]? :=
    node?_foldl_grow (by simp [importNodes, identifierNode, Node.made, Kind.form?, Payload.form])
      p.store hk
  -- the import is put in, and the reference is made
  have hlt : p.store.size + 4 < made.size := by omega
  obtain ⟨s, hinsert, hsize', hparent, hamends, hinserted⟩ := hmade.insert hopen
    (Nat.le_add_right_of_le hlow) hlt
    (fun hr => Nat.not_lt_of_le (Nat.le_add_right _ 4) (hanswers _ hr))
    (kind?_of_node? (hnodes 4 (by omega)))
  have hreference : s.size = p.store.size + 5 := hsize'.trans hsize
  have hfits := identifierNode_fits localName p.store.size s.size
  have haligned : s.parents.size = s.size := hinserted.tidy.aligned
  have hrest : Amends home p.store.size made (s.grow (identifierNode localName)) :=
    (hamends p.store.size (Nat.le_add_right _ 4)).grow haligned (by omega) hfits
  have hkept (k : Nat) (hk : k < 5) : (s.grow (identifierNode localName)).node? (p.store.size + k) =
      (importNodes p.store.size exported localName source)[k]? :=
    (hmade.tidy.node?_eq hopen.place hrest (Nat.le_add_right_of_le hlow)
      (show p.store.size + k < made.size by omega)).trans (hnodes k hk)
  refine ⟨{named with store := s.grow (identifierNode localName)}, ?_, ?_, ?_, ?_⟩
  · rw [← hreference]
    exact importNamed_eq (makeImport_eq p.store exported localName source) hinsert
  · rw [← hreference]
    exact hinserted.answer rfl rfl hlow hanswers hfits
  · exact (hbuilds.amends h.tidy.aligned (Nat.le_refl _) home).1.trans hrest
  · refine ⟨exported, source, localName, p.store.size + 5, rfl, rfl, ?_, ?_, ?_⟩
    · rw [← hreference]
      exact node?_grow s hfits.form
    · refine ⟨p.store.size + 2, p.store.size, p.store.size + 1, p.store.size + 3, ?_,
        hkept 4 (by omega), hkept 2 (by omega), hkept 0 (by omega), hkept 1 (by omega),
        hkept 3 (by omega)⟩
      simp
    · have hchildless : p.store.size + 4 ∉ (identifierNode localName).children :=
        List.not_mem_nil
      show (s.grow (identifierNode localName)).parent (p.store.size + 4) = some p.root
      rw [parent_grow haligned (show p.store.size + 4 < s.size by omega), if_neg hchildless]
      exact hparent

/-- An identifier that is made for a reference. -/
theorem makeIdentifier_stage (h : Stage start home imports answers p) (text : String) :
    ∃ p', edit (Edit.makeIdentifier text) p = .ok p.store.size p' ∧
      Stage start home imports (p.store.size :: answers) p' ∧
      Amends home p.store.size p.store p'.store ∧
      p'.store.node? p.store.size = some (identifierNode text) := by
  have hfits := identifierNode_fits text p.store.size p.store.size
  refine ⟨{p with store := p.store.grow (identifierNode text)}, rfl, ?_, ?_, ?_⟩
  · exact h.answer rfl rfl h.tidy.amends.grows (fun r hr => (h.tidy.answered r hr).2) hfits
  · exact (Amends.refl home p.store.size p.store).grow h.tidy.aligned (Nat.le_refl _) hfits
  · exact node?_grow p.store hfits.form

/-- A reference to a helper, if there is one of the name. -/
theorem useHelper_stage (h : Stage start home imports answers p) (name : String) :
    (∃ p', useHelper name p = .ok p.store.size p' ∧
      Stage start home imports (p.store.size :: answers) p' ∧
      Amends home p.store.size p.store p'.store ∧
      ∃ text, p'.store.node? p.store.size = some (identifierNode text)) ∨
    ∃ fault, useHelper name p = .error fault p := by
  rw [useHelper, bind_ok (get_ok p)]
  cases p.localName? name with
  | some localName =>
    obtain ⟨p', hrun, hstage, hamends, hnode⟩ := makeIdentifier_stage h localName
    exact .inl ⟨p', hrun, hstage, hamends, localName, hnode⟩
  | none =>
    cases Helper.named? name with
    | none => exact .inr ⟨_, rfl⟩
    | some helper =>
      let named : Program := {p with
        names := (p.names.fresh helper.name).2
        helpers := p.helpers ++ [(helper, (p.names.fresh helper.name).1)]}
      have hnamed : Stage start home imports answers named := ⟨h.root, h.tidy, h.file, h.imported⟩
      obtain ⟨p', hrun, hstage, hamends, hnode⟩ :=
        makeIdentifier_stage hnamed (p.names.fresh helper.name).1
      exact .inl ⟨p', hrun, hstage, hamends, _, hnode⟩

/-- A copy, if one can be made. -/
theorem copyReference_stage (h : Stage start home imports answers p) (reference : NodeId) :
    (∃ r p' node, copyReference reference p = .ok r p' ∧
      Stage start home imports (r :: answers) p' ∧
      Amends home p.store.size p.store p'.store ∧ p.store.size ≤ r ∧
      p'.store.node? r = some node ∧
      (Call.copyReference reference).Allows p.store node) ∨
    ∃ fault, copyReference reference p = .error fault p := by
  have hcopy := Edit.copy_run reference p.store
  rcases Edit.copyWithin_builds (p.store.size + Edit.idBound) reference (Nat.le_refl p.store.size)
    with hnone | ⟨original, there, made, node, hbuilds, hfits, hmark, hsome, hmade⟩
  · refine .inr ⟨.missingNode reference, ?_⟩
    rw [copyReference, bind_ok (edit_ok (hcopy.trans hnone))]
    rfl
  · have hlow := h.tidy.amends.grows
    have hanswers : ∀ r ∈ answers, r < p.store.size := fun r hr => (h.tidy.answered r hr).2
    have hrun : Edit.copy reference p.store = (some made.size, made.grow node) :=
      hcopy.trans (Prod.ext hsome hmade)
    have hstage : Stage start home imports answers {p with store := made} :=
      h.build rfl hbuilds hlow hanswers
    obtain ⟨hamends, haligned⟩ := hbuilds.amends h.tidy.aligned (Nat.le_refl _) home
    refine .inl ⟨made.size, {p with store := made.grow node}, node, ?_, ?_, ?_, hbuilds.size_le,
      node?_grow made hfits.form, original, there, hmark⟩
    · rw [copyReference, bind_ok (edit_ok hrun)]
      rfl
    · exact hstage.answer rfl rfl hlow hanswers hfits
    · exact hamends.grow haligned hbuilds.size_le hfits

end ProgramM

/-! ### All calls -/

section Map
variable {ε σ α β : Type} {x : EStateM ε σ α} {s s' : σ}

theorem map_ok {a : α} (f : α → β) (h : x s = .ok a s') : (f <$> x) s = .ok (f a) s' := by
  show EStateM.map f x s = _
  rw [EStateM.map, h]

theorem map_error {e : ε} (f : α → β) (h : x s = .error e s') : (f <$> x) s = .error e s' := by
  show EStateM.map f x s = _
  rw [EStateM.map, h]

end Map

section Run
variable {start p p' p'' : Program} {home : Form × Nat}
  {imports imports' imports'' answers answers' answers'' : List NodeId} {log log' : List Exchange}

open Store

/-- What exchanges have led to. -/
structure Outcome (start : Program) (home : Form × Nat) (imports answers : List NodeId)
    (p : Program) (log : List Exchange) (imports' answers' : List NodeId) (p' : Program) :
    Prop where
  stage : Stage start home (imports ++ imports') (answers' ++ answers) p'
  amends : Amends home p.store.size p.store p'.store
  since : ∀ x ∈ log, p.store.size ≤ x.before.store.size
  injects : List.Forall₂ (Exchange.Injects p') (log.filter (·.call.isImport)) imports'
  answered : ∀ x ∈ log, x.Answered p'
  listed : ∀ x ∈ log, ∀ r ∈ x.answer, r ∈ answers'

/-- What was made stays as it is. -/
theorem Stage.node?_kept (hopen : Opening start home) (h : Stage start home imports answers p)
    (h' : Amends home p.store.size p.store p'.store) {j : NodeId} {node : Node}
    (hj : start.store.size ≤ j) (there : p.store.node? j = some node) :
    p'.store.node? j = some node :=
  (h.tidy.node?_eq hopen.place h' hj (lt_size_of_node? there)).trans there

namespace Exchange

theorem Answered.kept {x : Exchange} (hx : x.Answered p) (hopen : Opening start home)
    (h : Stage start home imports answers p) (h' : Amends home p.store.size p.store p'.store)
    (hbefore : start.store.size ≤ x.before.store.size) : x.Answered p' := by
  intro r hr
  obtain ⟨hnew, node, hnode, hallows⟩ := hx r hr
  exact ⟨hnew, node, h.node?_kept hopen h' (Nat.le_trans hbefore hnew) hnode, hallows⟩

theorem Injects.kept {x : Exchange} {i : NodeId} (hx : x.Injects p i) (hanswered : x.Answered p)
    (hopen : Opening start home) (h : Stage start home imports answers p)
    (h' : Amends home p.store.size p.store p'.store) (hroot : p'.root = p.root)
    (hbefore : start.store.size ≤ x.before.store.size) : x.Injects p' i := by
  obtain ⟨exported, source, localName, reference, hcall, hreference, hnode, himports, hparent⟩ := hx
  obtain ⟨specifier, outer, inner, literal, hnew, hi, hspecifier, houter, hinner, hliteral⟩ :=
    himports
  have hkeep {j : NodeId} {node : Node} (hj : x.before.store.size ≤ j)
      (there : p.store.node? j = some node) : p'.store.node? j = some node :=
    h.node?_kept hopen h' (Nat.le_trans hbefore hj) there
  refine ⟨exported, source, localName, reference, hcall, hreference,
    hkeep (hanswered reference hreference).1 hnode,
    ⟨specifier, outer, inner, literal, hnew, ?_⟩, ?_⟩
  · exact ⟨hkeep (hnew _ (by simp)) hi, hkeep (hnew _ (by simp)) hspecifier,
      hkeep (hnew _ (by simp)) houter, hkeep (hnew _ (by simp)) hinner,
      hkeep (hnew _ (by simp)) hliteral⟩
  · rw [h'.parent i (lt_size_of_node? hi), hparent, hroot]

end Exchange

namespace Outcome

theorem nil (h : Stage start home imports answers p) :
    Outcome start home imports answers p [] [] [] p where
  stage := by rwa [List.append_nil]
  amends := .refl home p.store.size p.store
  since := by simp
  injects := .nil
  answered := by simp
  listed := by simp

theorem append (hopen : Opening start home) (hstart : start.store.size ≤ p.store.size)
    (h : Outcome start home imports answers p log imports' answers' p')
    (h' : Outcome start home (imports ++ imports') (answers' ++ answers) p' log' imports'' answers''
      p'') :
    Outcome start home imports answers p (log ++ log') (imports' ++ imports'')
      (answers'' ++ answers') p'' where
  stage := by simpa only [List.append_assoc] using h'.stage
  amends := h.amends.trans (h'.amends.mono h.amends.grows)
  since := List.forall_mem_append.mpr
    ⟨h.since, fun x hx => Nat.le_trans h.amends.grows (h'.since x hx)⟩
  injects := by
    have hroot : p''.root = p'.root := h'.stage.root.trans h.stage.root.symm
    have hlogged : ∀ x ∈ log.filter (·.call.isImport), x ∈ log :=
      fun x hx => List.mem_of_mem_filter hx
    have hinjects := (List.forall₂_and_left _ _).mpr ⟨hlogged, h.injects⟩
    rw [List.filter_append]
    refine List.rel_append (hinjects.imp ?_) h'.injects
    intro x i hx
    exact hx.2.kept (h.answered x hx.1) hopen h.stage h'.amends hroot
      (Nat.le_trans hstart (h.since x hx.1))
  answered := by
    refine List.forall_mem_append.mpr ⟨fun x hx => ?_, h'.answered⟩
    exact (h.answered x hx).kept hopen h.stage h'.amends (Nat.le_trans hstart (h.since x hx))
  listed := List.forall_mem_append.mpr
    ⟨fun x hx r hr => List.mem_append_right _ (h.listed x hx r hr),
      fun x hx r hr => List.mem_append_left _ (h'.listed x hx r hr)⟩

/-- A call that is answered with a node and puts no import in. -/
theorem of_answer {call : Call} (himport : call.isImport = false) {r : NodeId} {node : Node}
    (hstage : Stage start home imports (r :: answers) p')
    (hamends : Amends home p.store.size p.store p'.store) (hnew : p.store.size ≤ r)
    (hnode : p'.store.node? r = some node) (hallows : call.Allows p.store node) :
    Outcome start home imports answers p [⟨call, p, some r⟩] [] [r] p' where
  stage := by rwa [List.append_nil]
  amends := hamends
  since := by simp
  injects := by simp [himport]
  answered := by simp [Exchange.Answered, hnew, hnode, hallows]
  listed := by simp

/-- A call that is answered with no node. -/
theorem of_none {call : Call} (himport : call.isImport = false)
    (hstage : Stage start home imports answers p') (hstore : p'.store = p.store) :
    Outcome start home imports answers p [⟨call, p, none⟩] [] [] p' where
  stage := by rwa [List.append_nil]
  amends := hstore ▸ .refl home p.store.size p.store
  since := by simp
  injects := by simp [himport]
  answered := by simp [Exchange.Answered]
  listed := by simp

end Outcome

/-- **A call, and what it leads to.** -/
theorem Stage.ask (hopen : Opening start home) (h : Stage start home imports answers p)
    (call : Call) : ∃ imports' answers', Outcome start home imports answers p
      [⟨call, p, answerOf (call.perform p)⟩] imports' answers' (p.ask call) := by
  rw [Program.ask]
  cases call with
  | importNamed exported source =>
    obtain ⟨p', hrun, hstage, hamends, hinjects⟩ :=
      ProgramM.importNamed_stage hopen h exported source
    rw [show (Call.importNamed exported source).perform p = .ok (some (p.store.size + 5)) p' from
      map_ok some hrun]
    refine ⟨[p.store.size + 4], [p.store.size + 5], hstage, hamends, ?_, .cons hinjects .nil,
      ?_, ?_⟩
    · simp
    · obtain ⟨_, _, localName, _, _, hreference, hnode, _⟩ := hinjects
      cases hreference
      simp [Exchange.Answered, answerOf, stateOf, hnode, Call.Allows]
    · simp [answerOf]
  | useHelper name =>
    rcases ProgramM.useHelper_stage h name with
      ⟨p', hrun, hstage, hamends, text, hnode⟩ | ⟨fault, hrun⟩
    · rw [show (Call.useHelper name).perform p = .ok (some p.store.size) p' from map_ok some hrun]
      exact ⟨[], [p.store.size], .of_answer rfl hstage hamends (Nat.le_refl _) hnode ⟨text, rfl⟩⟩
    · rw [show (Call.useHelper name).perform p = .error fault p from map_error some hrun]
      exact ⟨[], [], .of_none rfl h rfl⟩
  | freshName base =>
    exact ⟨[], [], .of_none rfl ⟨h.root, h.tidy, h.file, h.imported⟩ rfl⟩
  | copyReference reference =>
    rcases ProgramM.copyReference_stage h reference with
      ⟨r, p', node, hrun, hstage, hamends, hnew, hnode, hallows⟩ | ⟨fault, hrun⟩
    · rw [show (Call.copyReference reference).perform p = .ok (some r) p' from map_ok some hrun]
      exact ⟨[], [r], .of_answer rfl hstage hamends hnew hnode hallows⟩
    · rw [show (Call.copyReference reference).perform p = .error fault p from map_error some hrun]
      exact ⟨[], [], .of_none rfl h rfl⟩

end Run

/-! ### Places that are words -/

namespace ProgramM
open Store Placing
variable {α β : Type}

/-- An operation does not make the store of a program smaller, and what it does is the same for all
faithful ways of writing places, where what it leaves fits. -/
structure Agrees (operation : Placing → ProgramM α) : Prop where
  grows : ∀ (placing : Placing) {p : Program} {result : EStateM.Result Fault Program α},
    operation placing p = result → p.store.Within (stateOf result).store
  same : ∀ {placing placing' : Placing} {p : Program} {result : EStateM.Result Fault Program α},
    Faithful placing → Faithful placing' → operation placing p = result →
      (stateOf result).store.Fits → operation placing' p = result

/-- An operation on other parts of a program. -/
theorem agrees_of_store {operation : ProgramM α}
    (h : ∀ p, (stateOf (operation p)).store = p.store) : Agrees fun _ => operation where
  grows := fun _ {p _} hrun => by
    rw [← hrun, h p]
    exact .refl p.store
  same := fun _ _ hrun _ => hrun

theorem Agrees.bind {first : Placing → ProgramM α} {next : α → Placing → ProgramM β}
    (hfirst : Agrees first) (hnext : ∀ a, Agrees (next a)) :
    Agrees fun placing => first placing >>= fun a => next a placing where
  grows := fun placing {p _} hrun => by
    have hwithin := hfirst.grows placing (p := p) rfl
    rcases hbefore : first placing p with ⟨a, between⟩ | ⟨fault, between⟩
    · rw [hbefore] at hwithin
      rw [bind_ok hbefore] at hrun
      exact hwithin.trans ((hnext a).grows placing hrun)
    · rw [hbefore] at hwithin
      rw [bind_error hbefore] at hrun
      rw [← hrun]
      exact hwithin
  same := fun {placing placing' p _} h h' hrun hfits => by
    rcases hbefore : first placing p with ⟨a, between⟩ | ⟨fault, between⟩
    · rw [bind_ok hbefore] at hrun
      have hbetween : between.store.Fits := hfits.of_within ((hnext a).grows placing hrun)
      rw [bind_ok (hfirst.same h h' hbefore hbetween)]
      exact (hnext a).same h h' hrun hfits
    · rw [bind_error hbefore] at hrun
      rw [← hrun] at hfits ⊢
      exact bind_error (hfirst.same h h' hbefore hfits)

theorem agrees_get : Agrees fun _ => (get : ProgramM Program) := agrees_of_store fun _ => rfl

theorem agrees_pure (a : α) : Agrees fun _ => (pure a : ProgramM α) := agrees_of_store fun _ => rfl

theorem Agrees.map {operation : Placing → ProgramM α} (h : Agrees operation) (f : α → β) :
    Agrees fun placing => f <$> operation placing := by
  simp only [map_eq_pure_bind]
  exact h.bind fun a => agrees_pure (f a)

end ProgramM

namespace Program
open Store

end Program

/-- A file with an import at its beginning, and one at its end. -/
def Store.importing : Store :=
  ({} : Store)
    |>.push (.literal .string) 0 .zero (.literal "m")
    |>.push .importDeclaration 0 .zero (.importDeclaration ⟨[], some 0⟩)
    |>.push .identifier 0 .zero (.identifier "f")
    |>.push .expressionStatement 0 .zero (.expressionStatement (some 2))
    |>.push .importDeclaration 0 .zero (.importDeclaration ⟨[], none⟩)
    |>.push .sourceFile 0 .zero (.sourceFile ⟨"f.js", [some 1, some 3, some 4]⟩)

end Settle
