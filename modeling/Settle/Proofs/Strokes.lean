import Settle.Proofs.Printed

/-! Printing, stroke by stroke.

A layout says at once how deep each of its lines is. One who types it knows only how deep the
line is that is being typed, and is told when that changes. `Layout.strokes` is what is typed
for a node in this way: its own words, line breaks, steps in and out, and, in their places, the
children, of which nothing is known yet.

The layout of a node is what its strokes come to from the level it is laid out at
(`Store.slotPieces_succ`). So whatever is to be said of every layout is said of strokes, a
form of payload at a time, and carried over by one induction: here that each step in is taken
back (`Balanced`). -/
namespace Settle

inductive Stroke where
  | leaf (text : String)
  | mark (text : String)
  /-- A line break. The new line is as deep as the steps taken so far make it. -/
  | line
  | deeper
  | back
  | child (slot : Ref)
  deriving DecidableEq, Repr

namespace Stroke

/-- The stroke of a piece, which leaves it to the typist how deep a line is. -/
def ofPiece : Piece → Stroke
  | .leaf text => leaf text
  | .mark text => mark text
  | .line _ => line

/-- Whether a stroke leaves the depth of lines alone. -/
def isLevel : Stroke → Bool
  | deeper => false
  | back => false
  | _ => true

end Stroke

/-! ### The strokes of a node -/

namespace Layout

def listStrokes (slots : List Ref) : List Stroke :=
  [Stroke.mark ", "].intercalate (slots.map fun slot => [.child slot])

def optionalStrokes (mark : String) : Ref → List Stroke
  | none => []
  | some i => [.mark mark, .child (some i)]

def blockStrokes : List Ref → List Stroke
  | [] => [.mark "\x7b \x7d"]
  | statements =>
    .mark "\x7b" :: .deeper :: statements.flatMap (fun slot => [.line, .child slot]) ++
      [.back, .line, .mark "\x7d"]

def functionStrokes (kind : FunctionKind) (parts : FunctionParts Ref) : List Stroke :=
  (asyncWord parts.isAsync ++ functionWord kind parts).map .ofPiece ++ [.child parts.name] ++
    [.mark "("] ++ listStrokes parts.parameters ++ [.mark ") "] ++ [.child parts.body]

def arrowStrokes (bodyIsObject : Bool) (parts : FunctionParts Ref) : List Stroke :=
  (asyncWord parts.isAsync).map .ofPiece ++ [.mark "("] ++ listStrokes parts.parameters ++
    [.mark ") => "] ++
    if bodyIsObject then [.mark "(", .child parts.body, .mark ")"] else [.child parts.body]

def suspensionStrokes (kind : SuspensionKind) (parts : SuspensionParts Ref) : List Stroke :=
  match kind with
  | .await => [.mark "await ", .child parts.operand]
  | .yield =>
    .mark (if parts.delegates then "yield*" else "yield") :: optionalStrokes " " parts.operand

def collectionStrokes (kind : CollectionKind) (elements : List Ref) : List Stroke :=
  match kind with
  | .array => [.mark "["] ++ listStrokes elements ++ [.mark "]"]
  | .object =>
    if elements.isEmpty then [.mark "\x7b\x7d"]
    else [.mark "\x7b "] ++ listStrokes elements ++ [.mark " \x7d"]

/-- What is typed for a node with a payload. -/
def strokes (isObject : Ref → Bool) (header : Header) : Payload Ref → List Stroke
  | .identifier text => [.leaf text]
  | .literal text => [.leaf (if header.kind = .literal .string then Text.quote text else text)]
  | .sourceFile _ => []
  | .function parts =>
    match header.kind with
    | .function .arrow => arrowStrokes (isObject parts.body) parts
    | .function kind => functionStrokes kind parts
    | _ => []
  | .block statements => blockStrokes statements
  | .call parts =>
    [.child parts.callee, .mark "("] ++ listStrokes parts.arguments ++ [.mark ")"]
  | .access parts => [.child parts.object, .mark ".", .child parts.property]
  | .suspension parts =>
    match header.kind with
    | .suspension kind => suspensionStrokes kind parts
    | _ => []
  | .tryExpression parts =>
    .mark "try " :: (tryWord parts).map .ofPiece ++ [.child parts.operand]
  | .returnStatement operand => .mark "return" :: optionalStrokes " " operand ++ [.mark ";"]
  | .expressionStatement expression => [.child expression, .mark ";"]
  | .variableStatement declarators =>
    .mark (declarationWord header.flags) :: listStrokes declarators ++ [.mark ";"]
  | .declarator parts => .child parts.name :: optionalStrokes " = " parts.initializer
  | .importDeclaration parts =>
    [.mark "import \x7b "] ++ listStrokes parts.specifiers ++ [.mark " \x7d from "] ++
      [.child parts.source, .mark ";"]
  | .importSpecifier parts =>
    (if parts.exported.isSome then [.child parts.exported, .mark " as "] else []) ++
      [.child parts.name]
  | .collection elements =>
    match header.kind with
    | .collection kind => collectionStrokes kind elements
    | _ => []

end Layout

/-- What is typed for what stands in a slot. -/
def Store.strokes (s : Store) (slot : Ref) : List Stroke :=
  match slot.bind s.header? with
  | none => []
  | some header =>
    if header.kind = .thisKeyword then [.leaf "this"]
    else (slot.bind s.payload?).elim [] (Layout.strokes s.slotIsObject header)

/-! ### Each step in is taken back -/

/-- Steps in and out are nested, and those that are nested within nothing change nothing. -/
inductive Balanced : List Stroke → Prop where
  | nil : Balanced []
  | cons {stroke : Stroke} {rest : List Stroke} (h : stroke.isLevel = true) (hrest : Balanced rest) :
    Balanced (stroke :: rest)
  | nest {inner rest : List Stroke} (hinner : Balanced inner) (hrest : Balanced rest) :
    Balanced (.deeper :: inner ++ .back :: rest)

theorem Balanced.append {a b : List Stroke} (ha : Balanced a) (hb : Balanced b) :
    Balanced (a ++ b) := by
  induction ha with
  | nil => exact hb
  | cons h _ ih => exact .cons h ih
  | nest hinner _ _ ih =>
    simp only [List.cons_append, List.append_assoc]
    exact .nest hinner ih

theorem balanced_of_level {strokes : List Stroke} (h : ∀ stroke ∈ strokes, stroke.isLevel = true) :
    Balanced strokes := by
  induction strokes with
  | nil => exact .nil
  | cons stroke rest ih =>
    rw [List.forall_mem_cons] at h
    exact .cons h.1 (ih h.2)

theorem balanced_flatMap {f : Ref → List Stroke} (h : ∀ slot, Balanced (f slot)) (slots : List Ref) :
    Balanced (slots.flatMap f) := by
  induction slots with
  | nil => exact .nil
  | cons slot rest ih => exact (h slot).append ih

namespace Layout

theorem listStrokes_cons (slot : Ref) (rest : List Ref) :
    listStrokes (slot :: rest) =
      .child slot :: rest.flatMap fun next => [.mark ", ", .child next] := by
  rw [listStrokes, List.map_cons, intercalate_cons, List.flatMap_map]
  rfl

theorem list_cons (slot : Nat → Ref → List Piece) (level : Nat) (first : Ref) (rest : List Ref) :
    list slot level (first :: rest) =
      slot level first ++ rest.flatMap fun next => .mark ", " :: slot level next := by
  rw [list, Piece.commaSeparated, List.map_cons, intercalate_cons, List.flatMap_map]
  rfl

theorem balanced_blockStrokes (statements : List Ref) : Balanced (blockStrokes statements) := by
  cases statements with
  | nil => exact .cons rfl .nil
  | cons first rest =>
    have hlines := balanced_flatMap (fun slot => .cons rfl (.cons rfl .nil) :
      ∀ slot, Balanced [.line, .child slot]) (first :: rest)
    exact .cons rfl (.nest hlines (.cons rfl (.cons rfl .nil)))

/-- A word without a line break, or one of the children. -/
def Plain (slots : List Ref) : Stroke → Prop
  | .mark text => '\n' ∉ text.toList
  | .child slot => slot ∈ slots
  | _ => False

@[simp]
theorem plain_mark {slots : List Ref} {text : String} :
    Plain slots (.mark text) ↔ '\n' ∉ text.toList := .rfl

@[simp]
theorem plain_child {slots : List Ref} {slot : Ref} : Plain slots (.child slot) ↔ slot ∈ slots :=
  .rfl

@[simp]
theorem forall_listStrokes {P : Stroke → Prop} {slots : List Ref} (hmark : P (.mark ", ")) :
    (∀ stroke ∈ listStrokes slots, P stroke) ↔ ∀ slot ∈ slots, P (.child slot) := by
  cases slots with
  | nil => simp [listStrokes]
  | cons first rest =>
    rw [listStrokes_cons, List.forall_mem_cons, List.forall_mem_cons, List.forall_mem_flatMap]
    simp [hmark]

theorem plain_optionalStrokes {slots : List Ref} {mark : String} {slot : Ref}
    (hmark : '\n' ∉ mark.toList) (h : slot ∈ slots) :
    ∀ stroke ∈ optionalStrokes mark slot, Plain slots stroke := by
  cases slot <;> simp [optionalStrokes, hmark, h]

theorem plain_functionStrokes (kind : FunctionKind) (parts : FunctionParts Ref) :
    ∀ stroke ∈ functionStrokes kind parts, Plain (Payload.function parts).slots stroke := by
  obtain ⟨name, parameters, body, isAsync, isGenerator⟩ := parts
  simp only [functionStrokes, List.map_append, List.forall_mem_append]
  cases kind <;> cases isAsync <;> cases isGenerator <;> cases name <;>
    simp +contextual [asyncWord, functionWord, Stroke.ofPiece, Payload.slots]

theorem plain_arrowStrokes (bodyIsObject : Bool) (parts : FunctionParts Ref) :
    ∀ stroke ∈ arrowStrokes bodyIsObject parts, Plain (Payload.function parts).slots stroke := by
  obtain ⟨name, parameters, body, isAsync, isGenerator⟩ := parts
  simp only [arrowStrokes, List.forall_mem_append]
  cases isAsync <;> cases bodyIsObject <;>
    simp +contextual [asyncWord, Stroke.ofPiece, Payload.slots]

/-- All that is typed for a node whose strokes are neither its own text nor lines. -/
theorem plain_strokes (isObject : Ref → Bool) (header : Header) {payload : Payload Ref}
    (h : payload.form ∉ [Form.identifier, .literal, .block]) :
    ∀ stroke ∈ strokes isObject header payload, Plain payload.slots stroke := by
  cases payload with
  | identifier => simp [Payload.form] at h
  | literal => simp [Payload.form] at h
  | block => simp [Payload.form] at h
  | sourceFile => simp [strokes]
  | function parts =>
    cases hkind : header.kind with
    | function kind =>
      cases kind with
      | arrow =>
        simp only [strokes, hkind]
        exact plain_arrowStrokes _ parts
      | _ =>
        simp only [strokes, hkind]
        exact plain_functionStrokes _ parts
    | _ => simp [strokes, hkind]
  | suspension parts =>
    cases hkind : header.kind with
    | suspension kind =>
      obtain ⟨operand, delegates⟩ := parts
      simp only [strokes, hkind]
      cases kind with
      | await => simp [suspensionStrokes, Payload.slots]
      | yield =>
        simp only [suspensionStrokes, List.forall_mem_cons]
        refine ⟨?_, plain_optionalStrokes (by decide) (by simp [Payload.slots])⟩
        cases delegates <;> simp
    | _ => simp [strokes, hkind]
  | collection elements =>
    cases hkind : header.kind with
    | collection kind =>
      simp only [strokes, hkind]
      cases kind <;> cases elements <;> simp +contextual [collectionStrokes, or_imp, Payload.slots]
    | _ => simp [strokes, hkind]
  | call parts => simp +contextual [strokes, or_imp, Payload.slots]
  | access parts => simp [strokes, Payload.slots]
  | tryExpression parts =>
    obtain ⟨operand, isAsync, isGenerator⟩ := parts
    cases isAsync <;> cases isGenerator <;>
      simp [strokes, tryWord, Stroke.ofPiece, Payload.slots]
  | returnStatement operand =>
    cases operand <;> simp [strokes, optionalStrokes, Payload.slots]
  | expressionStatement expression => simp [strokes, Payload.slots]
  | variableStatement declarators =>
    have hword : '\n' ∉ (declarationWord header.flags).toList := by
      unfold declarationWord
      split_ifs <;> decide
    simp +contextual [strokes, or_imp, hword, Payload.slots]
  | declarator parts =>
    obtain ⟨name, initializer⟩ := parts
    cases initializer <;> simp [strokes, optionalStrokes, Payload.slots]
  | importDeclaration parts => simp +contextual [strokes, or_imp, Payload.slots]
  | importSpecifier parts =>
    obtain ⟨exported, name⟩ := parts
    cases exported <;> simp [strokes, Payload.slots]

theorem isLevel_of_plain {slots : List Ref} {stroke : Stroke} (h : Plain slots stroke) :
    stroke.isLevel = true := by
  cases stroke with
  | mark => rfl
  | child => rfl
  | _ => exact h.elim

/-- All that is typed for a node is balanced. -/
theorem balanced_strokes (isObject : Ref → Bool) (header : Header) (payload : Payload Ref) :
    Balanced (strokes isObject header payload) := by
  by_cases h : payload.form ∈ [Form.identifier, .literal, .block]
  · cases payload with
    | identifier => exact .cons rfl .nil
    | literal => exact .cons rfl .nil
    | block statements => exact balanced_blockStrokes statements
    | _ => simp [Payload.form] at h
  · exact balanced_of_level fun stroke hmem =>
      isLevel_of_plain (plain_strokes isObject header h stroke hmem)

/-- What is typed for a node that is no leaf: words on one line, steps, and children. -/
def Within (slots : List Ref) : Stroke → Prop
  | .leaf _ => False
  | .mark text => '\n' ∉ text.toList
  | .child slot => slot ∈ slots
  | _ => True

theorem within_of_plain {slots : List Ref} {stroke : Stroke} (h : Plain slots stroke) :
    Within slots stroke := by
  cases stroke with
  | mark => exact h
  | child => exact h
  | _ => exact h.elim

theorem within_blockStrokes (statements : List Ref) :
    ∀ stroke ∈ blockStrokes statements, Within statements stroke := by
  cases statements with
  | nil => simp [blockStrokes, Within]
  | cons first rest =>
    simp only [blockStrokes, List.cons_append, List.forall_mem_cons, List.forall_mem_append,
      List.forall_mem_flatMap]
    simp +contextual [Within]

theorem within_strokes (isObject : Ref → Bool) (header : Header) {payload : Payload Ref}
    (h : payload.form ∉ [Form.identifier, .literal]) :
    ∀ stroke ∈ strokes isObject header payload, Within payload.slots stroke := by
  by_cases hblock : payload.form = .block
  · cases payload with
    | block statements => exact within_blockStrokes statements
    | _ => cases hblock
  · have hform : payload.form ∉ [Form.identifier, .literal, .block] := by
      simp_all
    exact fun stroke hmem => within_of_plain (plain_strokes isObject header hform stroke hmem)

/-! ### What strokes come to -/

section
variable (slot : (level : Nat) → Ref → List Piece)

/-- What strokes come to from a level on, where children are laid out by `slot`. -/
def expand : (level : Nat) → List Stroke → List Piece
  | _, [] => []
  | level, .leaf text :: rest => .leaf text :: expand level rest
  | level, .mark text :: rest => .mark text :: expand level rest
  | level, .line :: rest => .line level :: expand level rest
  | level, .deeper :: rest => expand (level + 1) rest
  | level, .back :: rest => expand (level - 1) rest
  | level, .child ref :: rest => slot level ref ++ expand level rest

theorem expand_append {a : List Stroke} (ha : Balanced a) (level : Nat) (b : List Stroke) :
    expand slot level (a ++ b) = expand slot level a ++ expand slot level b := by
  induction ha generalizing level b with
  | nil => rfl
  | @cons stroke rest h _ ih =>
    cases stroke <;> simp_all [expand, Stroke.isLevel]
  | @nest inner rest _ _ ihinner ihrest =>
    simp [expand, ihinner, ihrest]

theorem expand_flatMap {f : Ref → List Stroke} (h : ∀ ref, Balanced (f ref)) (level : Nat)
    (refs : List Ref) :
    expand slot level (refs.flatMap f) = refs.flatMap fun ref => expand slot level (f ref) := by
  induction refs with
  | nil => rfl
  | cons ref rest ih => rw [List.flatMap_cons, expand_append slot (h ref), ih, List.flatMap_cons]

@[simp]
theorem expand_listStrokes (level : Nat) (refs : List Ref) (rest : List Stroke) :
    expand slot level (listStrokes refs ++ rest) = list slot level refs ++ expand slot level rest := by
  cases refs with
  | nil => rfl
  | cons first refs =>
    have hcomma (ref : Ref) : Balanced [.mark ", ", .child ref] := .cons rfl (.cons rfl .nil)
    rw [listStrokes_cons, list_cons, List.cons_append, expand,
      expand_append slot (balanced_flatMap hcomma refs), expand_flatMap slot hcomma,
      List.append_assoc]
    simp [expand]

theorem expand_optionalStrokes (level : Nat) (mark : String) (ref : Ref) (rest : List Stroke) :
    expand slot level (optionalStrokes mark ref ++ rest) =
      optional slot level mark ref ++ expand slot level rest := by
  cases ref <;> simp [optionalStrokes, optional, expand]

theorem expand_blockStrokes (level : Nat) (statements : List Ref) :
    expand slot level (blockStrokes statements) = block slot level statements := by
  cases statements with
  | nil => rfl
  | cons first rest =>
    have hline (ref : Ref) : Balanced [.line, .child ref] := .cons rfl (.cons rfl .nil)
    rw [blockStrokes, List.cons_append, List.cons_append, expand, expand,
      expand_append slot (balanced_flatMap hline _), expand_flatMap slot hline]
    · simp [expand, block]
    · exact List.cons_ne_nil _ _

/-- **The layout of a node is what its strokes come to.** -/
theorem payload_eq_expand (level : Nat) (isObject : Ref → Bool) (header : Header)
    (p : Payload Ref) :
    payload slot level isObject header p = expand slot level (strokes isObject header p) := by
  cases p with
  | block statements => exact (expand_blockStrokes slot level statements).symm
  | function parts =>
    obtain ⟨name, parameters, body, isAsync, isGenerator⟩ := parts
    cases hkind : header.kind with
    | function kind =>
      cases kind with
      | arrow =>
        simp only [payload, strokes, hkind]
        cases isAsync <;> cases isObject body <;>
          simp [arrow, arrowStrokes, asyncWord, Stroke.ofPiece, expand]
      | _ =>
        simp only [payload, strokes, hkind]
        cases isAsync <;> cases isGenerator <;> cases name <;>
          simp [function, functionStrokes, asyncWord, functionWord, Stroke.ofPiece, expand]
    | _ => simp [payload, strokes, hkind, expand]
  | suspension parts =>
    cases hkind : header.kind with
    | suspension kind =>
      have hoperand := expand_optionalStrokes slot level " " parts.operand []
      rw [List.append_nil] at hoperand
      simp only [payload, strokes, hkind]
      cases kind <;> simp [suspension, suspensionStrokes, expand, hoperand]
    | _ => simp [payload, strokes, hkind, expand]
  | collection elements =>
    cases hkind : header.kind with
    | collection kind =>
      simp only [payload, strokes, hkind]
      cases kind <;> cases elements <;> simp [collection, collectionStrokes, expand]
    | _ => simp [payload, strokes, hkind, expand]
  | tryExpression parts =>
    obtain ⟨operand, isAsync, isGenerator⟩ := parts
    cases isAsync <;> cases isGenerator <;>
      simp [payload, strokes, tryWord, Stroke.ofPiece, expand]
  | returnStatement operand => simp [payload, strokes, expand, expand_optionalStrokes]
  | declarator parts =>
    have hinitializer := expand_optionalStrokes slot level " = " parts.initializer []
    rw [List.append_nil] at hinitializer
    simp [payload, strokes, expand, hinitializer]
  | importSpecifier parts =>
    obtain ⟨exported, name⟩ := parts
    cases exported <;> simp [payload, strokes, expand]
  | _ => simp [payload, strokes, expand]

end

end Layout

namespace Store
variable {s : Store} {depth level : Nat} {i : NodeId}

theorem slotPieces_zero (s : Store) (level : Nat) (slot : Ref) : s.slotPieces 0 level slot = [] := by
  cases slot <;> rfl

/-- How a node is laid out once its children are. -/
theorem slotPieces_succ (s : Store) (depth level : Nat) (slot : Ref) :
    s.slotPieces (depth + 1) level slot =
      Layout.expand (s.slotPieces depth) level (s.strokes slot) := by
  cases slot with
  | none => rfl
  | some i =>
    rw [slotPieces, Option.elim_some]
    cases hheader : s.header? i with
    | none => simp [piecesWithin, strokes, hheader, Layout.expand]
    | some header =>
      rw [piecesWithin_succ hheader]
      simp only [strokes, Option.bind_some, hheader]
      split
      · rfl
      · cases s.payload? i with
        | none => rfl
        | some payload => exact Layout.payload_eq_expand _ level _ header payload

theorem balanced_strokes (s : Store) (slot : Ref) : Balanced (s.strokes slot) := by
  unfold strokes
  split
  · exact .nil
  · split
    · exact .cons rfl .nil
    · cases slot.bind s.payload? with
      | none => exact .nil
      | some payload => exact Layout.balanced_strokes _ _ payload

/-! ### Leaves -/

/-- A kind goes with the form of the payload. -/
theorem form_of_payload? {kind : Kind} {payload : Payload Ref} (hk : s.kind? i = some kind)
    (hp : s.payload? i = some payload) : kind.form? = some payload.form := by
  obtain ⟨place, ha, _⟩ := payload?_eq_some_iff.mp hp
  obtain ⟨kind', hk', hform⟩ := address?_eq_some ha
  rw [Option.some.inj (hk.symm.trans hk')]
  exact hform

/-- What a leaf is printed as: an identifier or a number as it stands, a string in quotes, `this`. -/
def leaf? (s : Store) (i : NodeId) : Option String :=
  if s.kind? i = some .thisKeyword then some "this"
  else match s.payload? i with
    | some (.identifier text) => some text
    | some (.literal text) =>
      some (if s.kind? i = some (.literal .string) then Text.quote text else text)
    | _ => none

/-- A leaf is all that is typed for it. -/
theorem strokes_of_leaf? {text : String} (h : s.leaf? i = some text) :
    s.strokes (some i) = [.leaf text] := by
  cases hheader : s.header? i with
  | none => simp [leaf?, kind?, hheader, payload?_of_header? hheader] at h
  | some header =>
    simp only [leaf?, kind?, hheader, Option.map_some, Option.some.injEq] at h
    simp only [strokes, Option.bind_some, hheader]
    by_cases hthis : header.kind = .thisKeyword
    · rw [if_pos hthis] at h ⊢
      rw [← Option.some.inj h]
    · rw [if_neg hthis] at h ⊢
      cases hp : s.payload? i with
      | none => simp [hp] at h
      | some payload => cases payload <;> simp_all [Layout.strokes]

theorem exists_quote_of_leaf? (hstring : s.kind? i = some (.literal .string)) {text : String}
    (h : s.leaf? i = some text) : ∃ value, text = Text.quote value := by
  cases hp : s.payload? i with
  | none => simp [leaf?, hstring, hp] at h
  | some payload =>
    have hform := Option.some.inj (form_of_payload? hstring hp)
    cases payload with
    | literal value =>
      simp only [leaf?, hstring, hp, if_true] at h
      exact ⟨value, (Option.some.inj h).symm⟩
    | _ => cases hform

/-- Nothing is typed for any other node but words, steps and its children. -/
theorem within_of_leaf? (h : s.leaf? i = none) :
    ∀ stroke ∈ s.strokes (some i), Layout.Within ((s.payload? i).elim [] Payload.slots) stroke := by
  cases hheader : s.header? i with
  | none => simp [strokes, hheader]
  | some header =>
    simp only [leaf?, kind?, hheader, Option.map_some, Option.some.injEq] at h
    simp only [strokes, Option.bind_some, hheader]
    by_cases hthis : header.kind = .thisKeyword
    · simp [hthis] at h
    rw [if_neg hthis] at h ⊢
    cases hp : s.payload? i with
    | none => simp
    | some payload =>
      refine Layout.within_strokes _ header ?_
      cases payload <;> simp_all [Payload.form]

/-- Those that come up while a node is typed are its children. -/
theorem mem_children_of_stroke {c : NodeId} (h : .child (some c) ∈ s.strokes (some i)) :
    c ∈ s.children i := by
  cases hleaf : s.leaf? i with
  | some text =>
    rw [strokes_of_leaf? hleaf] at h
    simp at h
  | none =>
    have hslot := within_of_leaf? hleaf _ h
    rw [children]
    cases hp : s.payload? i with
    | none => simp [Layout.Within, hp] at hslot
    | some payload => simpa [Layout.Within, hp] using hslot

end Store
end Settle
