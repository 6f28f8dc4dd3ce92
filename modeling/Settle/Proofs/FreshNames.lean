import Mathlib.Data.List.Dedup
import Settle.Proofs.Copied
import Settle.Proofs.Requests

/-! Names that are made up never meet.

The candidates for a base differ pairwise until their number runs over the words. So
they cannot all be among fewer names than there are words (`Names.Few`): the first
that is not taken is found, after at most one candidate more than there are names
taken (`Names.firstFree_fresh`).

That holds of one request. Names are asked for directly and by way of imports and
helpers, and each way leaves its name somewhere else: in an answer, in an import among
the statements, beside a registered helper. The names found in these three places are
those made up so far, each once (`Accounts`), whatever was asked for in
between and whether it came back or not. -/
namespace Settle

open Store

/-! ### Candidates -/

namespace Names

theorem repr_injective : Function.Injective Nat.repr := by
  intro j k h
  have hdigits := congrArg String.toList h
  rw [Nat.toList_repr, Nat.toList_repr] at hdigits
  have hvalue := congrArg (Nat.ofDigitChars 10 · 0) hdigits
  simpa only [Nat.ofDigitChars_ten_toDigits] using hvalue

/-- The names that are made up from a stem, one after the other: `_b`, `_b2`, `_b3` and so on. -/
def numbered (stem : String) : Nat → String
  | 0 => "_" ++ stem
  | k + 1 => "_" ++ stem ++ (k + 2).repr

theorem numbered_injective (stem : String) : Function.Injective (numbered stem) := by
  intro j k h
  cases j with
  | zero =>
    cases k with
    | zero => rfl
    | succ k => exact absurd (String.append_eq_left_iff.mp h.symm) Nat.repr_ne_empty
  | succ j =>
    cases k with
    | zero => exact absurd (String.append_eq_left_iff.mp h) Nat.repr_ne_empty
    | succ k =>
      have hnumber := repr_injective ((String.append_right_inj _).mp h)
      omega

/-- Candidates are these names as long as the number fits in a word. -/
theorem candidate_eq_numbered (stem : String) {k : Nat} (h : k + 1 < UInt32.size) :
    candidate stem k = numbered stem k := by
  rw [candidate, Nat.mod_eq_of_lt h]
  cases k with
  | zero => rfl
  | succ k => exact if_neg (by omega)

/-- The first of the names for a base that is not among the names taken. Those before it are at most
as many as there are such names. -/
def FirstFree (taken : List String) (base name : String) : Prop :=
  ∃ k, name = numbered (stem base) k ∧ name ∉ taken ∧
    (∀ j < k, numbered (stem base) j ∈ taken) ∧ k ≤ taken.dedup.length

theorem length_le_dedup {names taken : List String} (hnodup : names.Nodup) (hsub : names ⊆ taken) :
    names.length ≤ taken.dedup.length :=
  (hnodup.subperm fun _ hname => List.mem_dedup.mpr (hsub hname)).length_le

theorem le_length_dedup {taken : List String} {stem : String} {k : Nat}
    (h : ∀ j < k, numbered stem j ∈ taken) : k ≤ taken.dedup.length := by
  have hnodup : ((List.range k).map (numbered stem)).Nodup :=
    List.nodup_range.map (numbered_injective stem)
  have hle := length_le_dedup hnodup fun name hname => by
    obtain ⟨j, hj, rfl⟩ := List.mem_map.mp hname
    exact h j (List.mem_range.mp hj)
  rwa [List.length_map, List.length_range] at hle

/-- Where the search ends, and what it has passed. -/
theorem exists_firstFree (taken : List String) (stem : String) (tries k : Nat) :
    ∃ m ≤ tries, firstFree taken stem tries k = candidate stem (k + m) ∧
      (∀ j < m, candidate stem (k + j) ∈ taken) ∧
      (m < tries → candidate stem (k + m) ∉ taken) := by
  induction tries generalizing k with
  | zero =>
    exact ⟨0, Nat.le_refl 0, rfl, fun _ hj => absurd hj (Nat.not_lt_zero _),
      fun h => absurd h (Nat.not_lt_zero _)⟩
  | succ tries ih =>
    rw [firstFree]
    by_cases htaken : candidate stem k ∈ taken
    · rw [if_pos htaken]
      obtain ⟨m, hle, heq, hpassed, hfree⟩ := ih (k + 1)
      refine ⟨m + 1, Nat.succ_le_succ hle, by rw [heq, Nat.add_assoc, Nat.add_comm 1],
        fun j hj => ?_, fun hlt => ?_⟩
      · cases j with
        | zero => exact htaken
        | succ j =>
          have := hpassed j (Nat.lt_of_succ_lt_succ hj)
          rwa [Nat.add_assoc, Nat.add_comm 1] at this
      · have := hfree (Nat.lt_of_succ_lt_succ hlt)
        rwa [Nat.add_assoc, Nat.add_comm 1] at this
    · rw [if_neg htaken]
      exact ⟨0, Nat.zero_le _, rfl, fun _ hj => absurd hj (Nat.not_lt_zero _), fun _ => htaken⟩

/-- So few names are taken that the number of a candidate does not run over, nor the one after
it. -/
def Few (taken : List String) : Prop := taken.dedup.length + 2 < UInt32.size

theorem Few.mono {taken taken' : List String} (h : Few taken') (hsub : taken ⊆ taken') :
    Few taken := by
  have hle := length_le_dedup taken.nodup_dedup fun _ hname => hsub (List.mem_dedup.mp hname)
  unfold Few at h ⊢
  omega

/-- **The search finds the first name that is not taken.** -/
theorem firstFree_fresh {names : Names} (hfew : Few names.taken) (base : String) :
    FirstFree names.taken base (names.fresh base).1 := by
  obtain ⟨m, hle, heq, hpassed, hfree⟩ :=
    exists_firstFree names.taken (stem base) names.taken.length 0
  simp only [Nat.zero_add] at heq hpassed hfree
  unfold Few at hfew
  -- with one more candidate passed there would be more of them than names
  have hmle : m ≤ names.taken.dedup.length := by
    by_contra hlt
    have hmore : ∀ j < names.taken.dedup.length + 1, numbered (stem base) j ∈ names.taken := by
      intro j hj
      rw [← candidate_eq_numbered (stem base) (show j + 1 < UInt32.size by omega)]
      exact hpassed j (by omega)
    have := le_length_dedup hmore
    omega
  have hpassed' : ∀ j < m, numbered (stem base) j ∈ names.taken := by
    intro j hj
    rw [← candidate_eq_numbered (stem base) (show j + 1 < UInt32.size by omega)]
    exact hpassed j hj
  have hname : (names.fresh base).1 = numbered (stem base) m :=
    Eq.trans heq (candidate_eq_numbered (stem base) (by omega))
  refine ⟨m, hname, ?_, hpassed', hmle⟩
  rcases Nat.lt_or_eq_of_le hle with hlt | rfl
  · exact fun htaken => hfree hlt (heq ▸ htaken)
  · -- all candidates that were tried are taken, and they are as many as the names
    rw [hname]
    intro htaken
    have hmore : ∀ j < names.taken.length + 1, numbered (stem base) j ∈ names.taken := by
      intro j hj
      rcases Nat.lt_succ_iff_lt_or_eq.mp hj with hj | rfl
      · exact hpassed' j hj
      · exact htaken
    have := le_length_dedup hmore
    have := (List.dedup_sublist names.taken).length_le
    omega

theorem FirstFree.congr {taken taken' : List String} {base name : String}
    (h : FirstFree taken base name) (hmem : ∀ x, x ∈ taken ↔ x ∈ taken') :
    FirstFree taken' base name := by
  obtain ⟨k, hname, hfree, hpassed, -⟩ := h
  have hpassed' : ∀ j < k, numbered (stem base) j ∈ taken' :=
    fun j hj => (hmem _).mp (hpassed j hj)
  exact ⟨k, hname, fun hx => hfree ((hmem _).mpr hx), hpassed', le_length_dedup hpassed'⟩

/-- The names made up differ from each other and from those of the file. -/
structure Distinct (names : Names) : Prop where
  nodup : names.madeUp.Nodup
  new : ∀ name ∈ names.madeUp, name ∉ names.inFile

theorem Distinct.fresh {names : Names} (h : Few names.taken → names.Distinct) (base : String)
    (hfew : Few (names.fresh base).2.taken) : (names.fresh base).2.Distinct := by
  have hbefore : Few names.taken := hfew.mono fun name hname => by
    rcases List.mem_append.mp hname with hname | hname
    · exact List.mem_append_left _ hname
    · exact List.mem_append_right _ (List.mem_append_left _ hname)
  obtain ⟨_, _, hfree, _⟩ := firstFree_fresh hbefore base
  have hfree' := List.mem_append.not.mp hfree
  have h := h hbefore
  refine ⟨List.nodup_append'.mpr ⟨h.nodup, List.nodup_singleton _, ?_⟩, ?_⟩
  · exact List.disjoint_singleton.mpr fun hmem => hfree' (.inr hmem)
  · intro name hname
    rcases List.mem_append.mp hname with hname | hname
    · exact h.new name hname
    · obtain rfl := List.mem_singleton.mp hname
      exact fun hmem => hfree' (.inl hmem)

end Names

/-! ### Where names are found -/

/-- The name that an import specifier declares in the file. -/
def Store.specifierName? (s : Store) (specifier : Ref) : Option String :=
  match specifier.bind s.payload? with
  | some (.importSpecifier parts) => parts.name.bind s.text?
  | _ => none

/-- The names that a statement imports. -/
def Store.importedNames (s : Store) (statement : Ref) : List String :=
  match statement.bind s.payload? with
  | some (.importDeclaration parts) => parts.specifiers.filterMap s.specifierName?
  | _ => []

/-- The names that are imported by the statements that a program has gained. -/
def Program.injected (start p : Program) : List String :=
  (p.statements.filter (· ∉ start.statements)).flatMap p.store.importedNames

/-- A program with the names that were given out when they were asked for. -/
structure Dialogue where
  program : Program
  answers : List String := []

/-- What is asked: for a name, or for something that may need one. -/
inductive Question where
  | name (base : String)
  | request (request : Request)
  deriving DecidableEq, Repr

def Dialogue.ask (dialogue : Dialogue) : Question → Dialogue
  | .name base =>
    match ProgramM.freshName base dialogue.program with
    | .ok name program => ⟨program, dialogue.answers ++ [name]⟩
    | .error _ program => ⟨program, dialogue.answers⟩
  | .request request => ⟨request.apply dialogue.program, dialogue.answers⟩

/-- Questions one after the other. -/
def Program.dialogue (p : Program) (questions : List Question) : Dialogue :=
  questions.foldl Dialogue.ask ⟨p, []⟩

namespace Store
variable {s s' : Store}

/-- A node is the import of one name. -/
def Imports (s : Store) (i : NodeId) (localName : String) : Prop :=
  ∃ exported source specifier inner,
    s.payload? i = some (.importDeclaration ⟨[some specifier], source⟩) ∧
    s.payload? specifier = some (.importSpecifier ⟨exported, some inner⟩) ∧
    s.payload? inner = some (.identifier localName)

theorem Imports.importedNames {i : NodeId} {localName : String} (h : s.Imports i localName) :
    s.importedNames (some i) = [localName] := by
  obtain ⟨exported, source, specifier, inner, himport, hspecifier, hinner⟩ := h
  simp [Store.importedNames, specifierName?, text?, himport, hspecifier, hinner]

/-- The forms of an import and of the names in it. -/
def namingForms : List Form := [.importDeclaration, .importSpecifier, .identifier]

theorem isInert_of_form? {kind : Kind} {form : Form} (h : kind.form? = some form)
    (hform : form ∈ namingForms) : kind.isInert ∧ kind ≠ .sourceFile := by
  cases kind <;> cases h <;> simp_all [namingForms, Kind.isInert]

/-- An import stays one where nodes of such forms stay. -/
theorem Imports.kept {i : NodeId} {localName : String} (h : s.Imports i localName)
    (hkept : ∀ j node, s.node? j = some node → node.kind.isInert → node.kind ≠ .sourceFile →
      s'.node? j = some node) : s'.Imports i localName := by
  have hpayload : ∀ {j : NodeId} {payload : Payload Ref}, s.payload? j = some payload →
      payload.form ∈ namingForms → s'.payload? j = some payload := by
    intro j payload hp hform
    obtain ⟨node, there, hnode⟩ := exists_node_of_payload? hp
    obtain ⟨hinert, hfile⟩ := isInert_of_form? (form_of_node? there hnode) hform
    rw [payload?_of_node? (hkept j node there hinert hfile), hnode]
  obtain ⟨exported, source, specifier, inner, himport, hspecifier, hinner⟩ := h
  exact ⟨exported, source, specifier, inner, hpayload himport (.head _),
    hpayload hspecifier (.tail _ (.head _)), hpayload hinner (.tail _ (.tail _ (.head _)))⟩

/-- The later store is sound, and has the nodes of the earlier one that no lowering edits. -/
structure Retains (s s' : Store) : Prop where
  sound : s'.Sound
  grows : s.size ≤ s'.size
  inert : ∀ j node, s.node? j = some node → node.kind.isInert → s'.node? j = some node

theorem Revision.retains {edit : NodeId → Node → Node} {added : List Node}
    (h : Revision s s' edit added)
    (hedit : ∀ j node, s.node? j = some node → node.kind.isInert → edit j node = node) :
    s.Retains s' where
  sound := h.sound
  grows := h.grows
  inert := fun j node there hinert => by
    rw [h.old j (lt_size_of_node? there), there, Option.map_some, hedit j node there hinert]

end Store

/-! ### The account -/

/-- The names made up so far are those given out, those of the imports that the program has gained
and those of its helpers, each once. -/
structure Accounts (start : Program) (answers : List String) (p : Program) : Prop where
  ready : ∃ parts, p.Ready parts
  grows : start.store.size ≤ p.store.size
  inFile : p.names.inFile = start.names.inFile
  gained : ∀ c ∈ p.statements, c ∉ start.statements →
    ∃ i localName, c = some i ∧ p.store.Imports i localName
  known : p.names.madeUp.Perm (answers ++ start.injected p ++ p.helpers.map Prod.snd)
  distinct : Names.Few p.names.taken → p.names.Distinct

section Accounts
variable {start p : Program} {answers : List String}

theorem Program.Ready.statements_eq {parts : FileParts Ref} (h : p.Ready parts) :
    p.statements = parts.statements := by
  simp only [Program.statements, h.file]

theorem flatMap_importedNames {s s' : Store} {statements : List Ref}
    (hgained : ∀ c ∈ statements, c ∉ start.statements →
      ∃ i localName, c = some i ∧ s.Imports i localName)
    (hkept : ∀ i localName, s.Imports i localName → s'.Imports i localName) :
    (statements.filter (· ∉ start.statements)).flatMap s'.importedNames =
      (statements.filter (· ∉ start.statements)).flatMap s.importedNames := by
  refine List.flatMap_congr fun c hc => ?_
  obtain ⟨hmem, hnew⟩ := List.mem_filter.mp hc
  obtain ⟨i, localName, rfl, himports⟩ := hgained c hmem (of_decide_eq_true hnew)
  rw [himports.importedNames, (hkept i localName himports).importedNames]

/-- What adds no statement and edits no import leaves the account as it is. -/
theorem Accounts.retain (h : Accounts start answers p) {s' : Store} (hr : p.store.Retains s') :
    Accounts start answers {p with store := s'} := by
  obtain ⟨parts, hready⟩ := h.ready
  have hkept : ∀ i localName, p.store.Imports i localName → s'.Imports i localName :=
    fun i localName h => h.kept fun j node there hinert _ => hr.inert j node there hinert
  have hfile : s'.payload? p.root = some (.sourceFile parts) := by
    obtain ⟨node, there, hnode⟩ := exists_node_of_payload? hready.file
    have hkind : node.kind = .sourceFile := by
      have := kind?_of_sourceFile hready.file
      rw [kind?_of_node? there] at this
      exact Option.some.inj this
    rw [payload?_of_node? (hr.inert _ _ there (by rw [hkind]; rfl)), hnode]
  have hready' : {p with store := s'}.Ready parts :=
    ⟨hr.sound, hfile, fun c hc => Nat.lt_of_lt_of_le (hready.statements c hc) hr.grows⟩
  have hsame : {p with store := s'}.statements = p.statements :=
    hready'.statements_eq.trans hready.statements_eq.symm
  refine ⟨⟨parts, hready'⟩, Nat.le_trans h.grows hr.grows, h.inFile, fun c hc hnew => ?_, ?_,
    h.distinct⟩
  · rw [hsame] at hc
    obtain ⟨i, localName, rfl, himports⟩ := h.gained c hc hnew
    exact ⟨i, localName, rfl, hkept i localName himports⟩
  · have hinjected : start.injected {p with store := s'} = start.injected p := by
      rw [Program.injected, hsame]
      exact flatMap_importedNames h.gained hkept
    rw [hinjected]
    exact h.known

/-- A name that is asked for is given out. -/
theorem Accounts.freshName (h : Accounts start answers p) (base : String) :
    Accounts start (answers ++ [(p.names.fresh base).1])
      {p with names := (p.names.fresh base).2} where
  ready := by
    obtain ⟨parts, hready⟩ := h.ready
    exact ⟨parts, hready.sound, hready.file, hready.statements⟩
  grows := h.grows
  inFile := h.inFile
  gained := h.gained
  known := by
    refine List.perm_iff_count.mpr fun name => ?_
    have hcount := h.known.count_eq name
    show List.count name (p.names.madeUp ++ [(p.names.fresh base).1]) = List.count name
      (answers ++ [(p.names.fresh base).1] ++ start.injected p ++ p.helpers.map Prod.snd)
    simp only [List.count_append] at hcount ⊢
    omega
  distinct := Names.Distinct.fresh h.distinct base

/-- A helper is registered under a name of its own. -/
theorem Accounts.useHelper (h : Accounts start answers p) (helper : Helper) :
    Accounts start answers {p with
      names := (p.names.fresh helper.name).2
      helpers := p.helpers ++ [(helper, (p.names.fresh helper.name).1)]} where
  ready := by
    obtain ⟨parts, hready⟩ := h.ready
    exact ⟨parts, hready.sound, hready.file, hready.statements⟩
  grows := h.grows
  inFile := h.inFile
  gained := h.gained
  known := by
    show (p.names.madeUp ++ [(p.names.fresh helper.name).1]).Perm (answers ++ start.injected p ++
      (p.helpers ++ [(helper, (p.names.fresh helper.name).1)]).map Prod.snd)
    rw [List.map_append, ← List.append_assoc]
    exact h.known.append_right _
  distinct := Names.Distinct.fresh h.distinct helper.name

theorem exists_imports {s s' : Store} {edit : NodeId → Node → Node} {added : List Node}
    {exported localName source : String}
    (h : Revision s s' edit (ProgramM.importNodes s.size exported localName source ++ added)) :
    s'.Imports (s.size + 4) localName := by
  refine ⟨some s.size, some (s.size + 3), s.size + 2, s.size + 1, ?_, ?_, ?_⟩
  · exact payload?_of_node? (h.new 4 _ rfl)
  · exact payload?_of_node? (h.new 2 _ rfl)
  · exact payload?_of_node? (h.new 1 _ rfl)

/-- What an import leaves of a program, as far as names go. -/
theorem importNamed_gains {parts : FileParts Ref} (hready : p.Ready parts)
    (exported source : String) :
    ∃ reference p' parts', ProgramM.importNamed exported source p = .ok reference p' ∧
      p'.Ready parts' ∧ p.store.size ≤ p'.store.size ∧
      p'.statements.Perm (some (p.store.size + 4) :: p.statements) ∧
      p'.store.Imports (p.store.size + 4) (p.names.fresh exported).1 ∧
      (∀ i localName, p.store.Imports i localName → p'.store.Imports i localName) ∧
      p'.names = (p.names.fresh exported).2 ∧ p'.helpers = p.helpers := by
  obtain ⟨s', hrun, hrev⟩ :=
    ProgramM.importNamed_run hready.sound hready.file hready.statements exported source
  obtain ⟨root, there, hroot⟩ := exists_node_of_payload? hready.file
  have hfile : s'.payload? p.root = some (.sourceFile ⟨parts.fileName,
      parts.statements.take p.leadingImports ++
        some (p.store.size + 4) :: parts.statements.drop p.leadingImports⟩) := by
    have there' := hrev.old p.root (lt_size_of_node? there)
    rw [there, Option.map_some, editAt_self] at there'
    rw [payload?_of_node? there', Node.withStatement, hroot]
  have hperm : (parts.statements.take p.leadingImports ++
      some (p.store.size + 4) :: parts.statements.drop p.leadingImports).Perm
        (some (p.store.size + 4) :: parts.statements) := by
    refine List.perm_middle.trans (.of_eq ?_)
    rw [List.take_append_drop]
  have hready' : Program.Ready {p with store := s', names := (p.names.fresh exported).2}
      ⟨parts.fileName, parts.statements.take p.leadingImports ++
        some (p.store.size + 4) :: parts.statements.drop p.leadingImports⟩ := by
    refine ⟨hrev.sound, hfile, fun c hc => ?_⟩
    rcases List.mem_cons.mp (hperm.mem_iff.mp hc) with hc | hc
    · obtain rfl := Option.some.inj hc
      exact lt_size_of_node? (hrev.new 4 _ rfl)
    · exact Nat.lt_of_lt_of_le (hready.statements c hc) hrev.grows
  refine ⟨_, _, _, hrun, hready', hrev.grows, ?_, exists_imports hrev, fun i localName h => ?_, rfl,
    rfl⟩
  · rw [hready'.statements_eq, hready.statements_eq]
    exact hperm
  · refine h.kept fun j node hj _ hkind => ?_
    have hne : j ≠ p.root := by
      rintro rfl
      have hroot := kind?_of_sourceFile hready.file
      rw [kind?_of_node? hj] at hroot
      exact hkind (Option.some.inj hroot)
    rw [hrev.old j (lt_size_of_node? hj), hj, Option.map_some, editAt_of_ne hne]

/-- An import adds its name to those of the statements. -/
theorem Accounts.importNamed (hstart : ∀ c : Nat, some c ∈ start.statements → c < start.store.size)
    (h : Accounts start answers p) (exported source : String) :
    ∃ reference p', ProgramM.importNamed exported source p = .ok reference p' ∧
      Accounts start answers p' := by
  obtain ⟨parts, hready⟩ := h.ready
  obtain ⟨reference, p', parts', hrun, hready', hgrows, hperm, hnew, hkept, hnames, hhelpers⟩ :=
    importNamed_gains hready exported source
  have hold : some (p.store.size + 4) ∉ start.statements := fun hc => by
    have := hstart _ hc
    have := h.grows
    omega
  have hinjected : (start.injected p').Perm ((p.names.fresh exported).1 :: start.injected p) := by
    refine ((hperm.filter _).flatMap_right _).trans (.of_eq ?_)
    rw [List.filter_cons, if_pos (decide_eq_true hold), List.flatMap_cons, hnew.importedNames,
      flatMap_importedNames h.gained hkept]
    rfl
  refine ⟨reference, p', hrun, ⟨parts', hready'⟩, Nat.le_trans h.grows hgrows, ?_,
    fun c hc hc' => ?_, ?_, ?_⟩
  · rw [hnames]
    exact h.inFile
  · rcases List.mem_cons.mp (hperm.mem_iff.mp hc) with rfl | hc
    · exact ⟨_, _, rfl, hnew⟩
    · obtain ⟨i, localName, rfl, himports⟩ := h.gained c hc hc'
      exact ⟨i, localName, rfl, hkept i localName himports⟩
  · refine List.perm_iff_count.mpr fun name => ?_
    have hcount := h.known.count_eq name
    have hcount' := hinjected.count_eq name
    rw [hnames, hhelpers]
    show List.count name (p.names.madeUp ++ [(p.names.fresh exported).1]) = _
    rw [← List.singleton_append] at hcount'
    simp only [List.count_append] at hcount hcount' ⊢
    omega
  · rw [hnames]
    exact Names.Distinct.fresh h.distinct exported

end Accounts

/-! ### Operations that leave the account as it is -/

namespace Edit
variable {s : Store}

/-- In a sound store a copy only adds nodes, whatever it is a copy of. -/
theorem copyWithin_revision (depth : Nat) (i : NodeId) (hs : s.Sound) :
    ∃ added, Revision s (copyWithin depth i s).2 keep added := by
  refine copyWithin_keeps (P := fun s' => ∃ added, Revision s s' keep added) ?_ ?_ depth i
    ⟨[], .refl hs⟩
  · rintro s' kind flags span ⟨added, hrev⟩ hform
    exact ⟨_, hrev.trans_add (revision_pushToken hrev.sound flags span hform)⟩
  · rintro s' kind flags span payload ⟨added, hrev⟩ hfits
    exact ⟨_, hrev.trans_add (revision_push hrev.sound flags span hfits)⟩

end Edit

/-- A result that leaves the account as it is, whether it came back or not. -/
abbrev Keeps (start : Program) (answers : List String) {α : Type} :
    EStateM.Result Fault Program α → Prop :=
  Ensures (Accounts start answers) fun _ => Accounts start answers

namespace ProgramM
variable {start p : Program} {answers : List String}

theorem retains_of_keep {s s' : Store} {added : List Node} (h : Revision s s' keep added) :
    s.Retains s' :=
  h.retains fun _ _ _ _ => rfl

theorem makeIdentifier_keeps (h : Accounts start answers p) (text : String) :
    Keeps start answers (edit (Edit.makeIdentifier text) p) := by
  obtain ⟨parts, hready⟩ := h.ready
  obtain ⟨s', hrun, hrev⟩ := makeIdentifier_run hready.sound text
  rw [hrun]
  exact h.retain (retains_of_keep hrev)

theorem copyReference_keeps (h : Accounts start answers p) (reference : NodeId) :
    Keeps start answers (copyReference reference p) := by
  obtain ⟨parts, hready⟩ := h.ready
  obtain ⟨added, hrev⟩ :=
    Edit.copyWithin_revision (p.store.size + Edit.idBound) reference hready.sound
  rcases hresult : Edit.copyWithin (p.store.size + Edit.idBound) reference p.store with ⟨ref, s'⟩
  rw [hresult] at hrev
  have hcopy : Edit.copy reference p.store = (ref, s') :=
    (Edit.copy_run reference p.store).trans hresult
  have hkept := h.retain (retains_of_keep hrev)
  rw [copyReference, bind_ok (edit_ok hcopy)]
  cases ref with
  | none => exact hkept
  | some copied => exact hkept

theorem useHelper_keeps (h : Accounts start answers p) (name : String) :
    Keeps start answers (useHelper name p) := by
  rw [useHelper, bind_ok (get_ok p)]
  cases p.localName? name with
  | some localName => exact makeIdentifier_keeps h localName
  | none =>
    cases Helper.named? name with
    | none => exact h
    | some helper =>
      exact makeIdentifier_keeps (h.useHelper helper) _

theorem importNamed_keeps (hstart : ∀ c : Nat, some c ∈ start.statements → c < start.store.size)
    (h : Accounts start answers p) (exported source : String) :
    Keeps start answers (importNamed exported source p) := by
  obtain ⟨reference, p', hrun, h'⟩ := h.importNamed hstart exported source
  rw [hrun]
  exact h'

theorem lower_keeps (h : Accounts start answers p) (i helper : NodeId) :
    Keeps start answers (lower i (some helper) p) := by
  obtain ⟨parts, hready⟩ := h.ready
  rw [lower, bind_ok (get_ok p)]
  cases hkind : p.store.kind? i with
  | none => exact h
  | some kind =>
    have hi : i < p.store.size := by
      rw [kind?_eq] at hkind
      obtain ⟨node, there, _⟩ := Option.map_eq_some_iff.mp hkind
      exact lt_size_of_node? there
    obtain ⟨node, there⟩ := node?_of_lt_size hi
    obtain rfl : node.kind = kind := by
      rw [kind?_of_node? there] at hkind
      exact Option.some.inj hkind
    cases hk : node.kind with
    | function of =>
      cases hp : p.store.payload? i with
      | none => exact h
      | some payload =>
        cases payload with
        | function parts =>
          obtain ⟨_, s', hrun, _, hrev⟩ :=
            Edit.lowerFunction_run hready.sound hi of parts.body (some helper)
          simp only [edit_ok hrun]
          exact h.retain (hrev.retains fun j other hj hinert =>
            Edit.functionEdit_of_isInert there hk hj hinert _ _)
        | _ => exact h
    | tryExpression =>
      cases hp : p.store.payload? i with
      | none => exact h
      | some payload =>
        cases payload with
        | tryExpression parts =>
          obtain ⟨s', hrun, hrev⟩ := Edit.lowerTry_run hready.sound hi parts.operand (some helper)
          simp only [edit_ok hrun]
          refine h.retain (hrev.retains fun j other hj hinert => editAt_of_ne ?_ _ _)
          rintro rfl
          obtain rfl := Option.some.inj (there.symm.trans hj)
          rw [hk] at hinert
          cases hinert
        | _ => exact h
    | _ => exact h

end ProgramM

/-- **Nothing that a pass does upsets the account.** -/
theorem upkeep_accounts {start : Program} {answers : List String}
    (hstart : ∀ c : Nat, some c ∈ start.statements → c < start.store.size) :
    Upkeep (Accounts start answers) (fun _ => Accounts start answers) where
  imported := fun exported source =>
    maintains_iff.mpr fun _ h => ProgramM.importNamed_keeps hstart h exported source
  helped := fun name => maintains_iff.mpr fun _ h => ProgramM.useHelper_keeps h name
  copied := fun reference => maintains_iff.mpr fun _ h => ProgramM.copyReference_keeps h reference
  lowered := fun i helper => maintains_iff.mpr fun _ h => ProgramM.lower_keeps h i helper
  dropped := fun _ _ h => h

/-! ### Dialogues -/

section Dialogues
variable {start p : Program}

/-- The names that have come up in a dialogue are those made up so far. -/
def Dialogue.Balanced (start : Program) (dialogue : Dialogue) : Prop :=
  Accounts start dialogue.answers dialogue.program

theorem Dialogue.Balanced.ask
    (hstart : ∀ c : Nat, some c ∈ start.statements → c < start.store.size) {dialogue : Dialogue}
    (h : dialogue.Balanced start) (question : Question) :
    (dialogue.ask question).Balanced start := by
  cases question with
  | name base => exact Accounts.freshName h base
  | request request => exact (upkeep_accounts hstart).apply request h

theorem Dialogue.Balanced.foldl
    (hstart : ∀ c : Nat, some c ∈ start.statements → c < start.store.size) {dialogue : Dialogue}
    (h : dialogue.Balanced start) (questions : List Question) :
    (questions.foldl Dialogue.ask dialogue).Balanced start := by
  induction questions generalizing dialogue with
  | nil => exact h
  | cons question rest ih => exact ih (h.ask hstart question)

end Dialogues
end Settle
