import Settle.Graph
import Settle.Proofs.Indentation

/-! Leaves and what stands between them.

A printed node is woven of two things. One is its leaves, which come in the order in which
children are listed, depth first (`Store.Preorder`). The other is what stands between them, and
this is fixed by the shape of the node (`Shape`): which kinds stand where, with which flags and
booleans, and which slots are left open. `print_eq_weave` says both at once, with one choice of
separators for all stores.

Two kinds of node do not show all of their children: a source file, and an arrow function that
has a name (`Store.showsAll`). Below these, leaves are lost. -/
namespace Settle

/-! ### Weaving -/

/-- Leaves with separators before, between and after them. -/
def weave : (separators leaves : List String) → String
  | separator :: separators, leaf :: leaves => separator ++ (leaf ++ weave separators leaves)
  | separator :: _, [] => separator
  | [], _ => ""

namespace Piece

/-- The leaves of a layout. -/
def leaves : List Piece → List String
  | [] => []
  | leaf text :: rest => text :: leaves rest
  | _ :: rest => leaves rest

/-- What stands before, between and after the leaves of a layout. -/
def gaps : List Piece → List String
  | [] => [""]
  | leaf _ :: rest => "" :: gaps rest
  | piece :: rest => (gaps rest).modifyHead (piece.text ++ ·)

/-- A piece that does not tell its leaf. -/
def blank : Piece → Piece
  | leaf _ => leaf ""
  | piece => piece

theorem leaves_append (a b : List Piece) : leaves (a ++ b) = leaves a ++ leaves b := by
  induction a with
  | nil => rfl
  | cons piece rest ih => cases piece <;> simp [leaves, ih]

theorem length_gaps (pieces : List Piece) : (gaps pieces).length = (leaves pieces).length + 1 := by
  induction pieces with
  | nil => rfl
  | cons piece rest ih => cases piece <;> simp [gaps, leaves, ih]

theorem weave_modifyHead (text : String) {separators : List String} (h : separators ≠ [])
    (leaves : List String) :
    weave (separators.modifyHead (text ++ ·)) leaves = text ++ weave separators leaves := by
  cases separators with
  | nil => exact absurd rfl h
  | cons separator separators =>
    cases leaves <;> simp [weave, String.append_assoc]

/-- A layout is woven of its leaves and the gaps. -/
theorem render_eq_weave (pieces : List Piece) :
    render pieces = weave (gaps pieces) (leaves pieces) := by
  induction pieces with
  | nil => rfl
  | cons piece rest ih =>
    have hne : gaps rest ≠ [] := List.ne_nil_of_length_eq_add_one (length_gaps rest)
    rw [render_cons, ih]
    cases piece with
    | leaf text => simp [gaps, leaves, weave, Piece.text]
    | _ => exact (weave_modifyHead _ hne _).symm

theorem gaps_map_blank (pieces : List Piece) : gaps (pieces.map blank) = gaps pieces := by
  induction pieces with
  | nil => rfl
  | cons piece rest ih => cases piece <;> simp [gaps, blank, text, ih]

end Piece

/-! ### Leaves come in the order of children -/

namespace Layout

/-- What leaves a stroke stands for, given those of the children. -/
def spell (below : Ref → List String) : Stroke → List String
  | .leaf text => [text]
  | .child slot => below slot
  | _ => []

theorem leaves_expand {slot : (level : Nat) → Ref → List Piece} {below : Ref → List String}
    {strokes : List Stroke}
    (hslot : ∀ ref, .child ref ∈ strokes → ∀ level, Piece.leaves (slot level ref) = below ref)
    (level : Nat) :
    Piece.leaves (expand slot level strokes) = strokes.flatMap (spell below) := by
  induction strokes generalizing level with
  | nil => rfl
  | cons stroke rest ih =>
    have ih := ih fun ref hmem => hslot ref (List.mem_cons_of_mem _ hmem)
    cases stroke with
    | child ref =>
      rw [expand, Piece.leaves_append, hslot ref List.mem_cons_self, ih, List.flatMap_cons, spell]
    | _ => simp [expand, Piece.leaves, spell, ih]

variable {below : Ref → List String}

@[simp]
theorem flatMap_listStrokes (slots : List Ref) :
    (listStrokes slots).flatMap (spell below) = slots.flatMap below := by
  cases slots with
  | nil => rfl
  | cons first rest => simp [listStrokes_cons, List.flatMap_assoc, spell]

theorem flatMap_optionalStrokes (hnone : below none = []) (mark : String) (slot : Ref) :
    (optionalStrokes mark slot).flatMap (spell below) = below slot := by
  cases slot <;> simp [optionalStrokes, spell, hnone]

theorem flatMap_ofPiece (pieces : List Piece) :
    (pieces.map Stroke.ofPiece).flatMap (spell below) = Piece.leaves pieces := by
  induction pieces with
  | nil => rfl
  | cons piece rest ih => cases piece <;> simpa [Stroke.ofPiece, spell, Piece.leaves] using ih

theorem leaves_asyncWord (isAsync : Bool) : Piece.leaves (asyncWord isAsync) = [] := by
  cases isAsync <;> rfl

theorem leaves_functionWord (kind : FunctionKind) (parts : FunctionParts Ref) :
    Piece.leaves (functionWord kind parts) = [] := by
  unfold functionWord
  cases kind <;> split_ifs <;> rfl

theorem leaves_tryWord (parts : TryParts Ref) : Piece.leaves (tryWord parts) = [] := by
  unfold tryWord
  split_ifs <;> rfl

/-- **What is typed for a node has its children in the order of the slots.** -/
theorem flatMap_strokes (hnone : below none = []) (isObject : Ref → Bool) {header : Header}
    {payload : Payload Ref} (hform : header.kind.form? = some payload.form)
    (hleaf : payload.form ∉ [Form.identifier, .literal, .sourceFile])
    (harrow : ∀ parts, header.kind = .function .arrow → payload = .function parts →
      parts.name = none) :
    (strokes isObject header payload).flatMap (spell below) = payload.slots.flatMap below := by
  cases payload with
  | identifier => simp [Payload.form] at hleaf
  | literal => simp [Payload.form] at hleaf
  | sourceFile => simp [Payload.form] at hleaf
  | function parts =>
    cases hkind : header.kind with
    | function kind =>
      cases kind with
      | arrow =>
        have hname := harrow parts hkind rfl
        simp only [strokes, hkind, arrowStrokes]
        split_ifs <;> simp [flatMap_ofPiece, leaves_asyncWord, hname, hnone, spell, Payload.slots]
      | _ =>
        simp [strokes, hkind, functionStrokes, flatMap_ofPiece, leaves_asyncWord,
          leaves_functionWord, spell, Payload.slots]
    | _ =>
      rw [hkind] at hform
      cases hform
  | suspension parts =>
    cases hkind : header.kind with
    | suspension kind =>
      cases kind <;>
        simp [strokes, hkind, suspensionStrokes, flatMap_optionalStrokes hnone, spell,
          Payload.slots]
    | _ =>
      rw [hkind] at hform
      cases hform
  | collection elements =>
    cases hkind : header.kind with
    | collection kind =>
      cases kind <;> cases elements <;>
        simp [strokes, hkind, collectionStrokes, spell, Payload.slots]
    | _ =>
      rw [hkind] at hform
      cases hform
  | block statements =>
    cases statements with
    | nil => rfl
    | cons first rest => simp [strokes, blockStrokes, List.flatMap_assoc, spell, Payload.slots]
  | tryExpression parts =>
    simp [strokes, flatMap_ofPiece, leaves_tryWord, spell, Payload.slots]
  | importSpecifier parts =>
    obtain ⟨exported, name⟩ := parts
    cases exported <;> simp [strokes, spell, hnone, Payload.slots]
  | _ => simp [strokes, flatMap_optionalStrokes hnone, spell, Payload.slots]

end Layout

namespace Store
variable {s s' : Store}

/-- A node and what is below it, depth first, as often as there are ways to it. -/
inductive Preorder (s : Store) : NodeId → List NodeId → Prop where
  | node {i : NodeId} {below : NodeId → List NodeId}
      (children : ∀ c ∈ s.children i, Preorder s c (below c)) :
      Preorder s i (i :: (s.children i).flatMap below)

/-- A node that is printed with all of its children: not a file, nor an arrow function with a
name. -/
def showsAll (s : Store) (i : NodeId) : Bool :=
  match s.kind? i, s.payload? i with
  | some .sourceFile, _ => false
  | some (.function .arrow), some (.function parts) => parts.name.isNone
  | _, _ => true

/-- Printing comes to an end below a node, and nothing is left out. -/
structure Legible (s : Store) (i : NodeId) : Prop where
  acyclic : s.Acyclic i
  shown : ∀ j, s.Reaches i j → s.showsAll j = true

theorem Bounded.preorder {depth : Nat} {i : NodeId} (h : s.Bounded depth i) :
    s.Preorder i (Graph.preorder s.children (depth + 1) i) := by
  induction depth generalizing i with
  | zero =>
    refine .node fun c hc => ?_
    rw [children_eq, node?_eq_none_of_bounded h] at hc
    cases hc
  | succ depth ih => exact .node fun c hc => ih (h c hc)

theorem children_of_leaf? {i : NodeId} {text : String} (h : s.leaf? i = some text) :
    s.children i = [] := by
  cases hp : s.payload? i with
  | none => simp [children, hp]
  | some payload =>
    obtain ⟨place, ha, _⟩ := payload?_eq_some_iff.mp hp
    obtain ⟨kind, hkind, hform⟩ := address?_eq_some ha
    have hthis : kind ≠ .thisKeyword := by
      rintro rfl
      cases hform
    cases payload <;> simp_all [leaf?, children, Payload.slots]

theorem flatMap_filterMap_id {below : Ref → List String} (hnone : below none = [])
    (slots : List Ref) :
    (slots.filterMap id).flatMap (fun c => below (some c)) = slots.flatMap below := by
  induction slots with
  | nil => rfl
  | cons slot rest ih =>
    cases slot with
    | none => rw [List.flatMap_cons, hnone, List.nil_append, ← ih]; rfl
    | some c => rw [List.flatMap_cons, ← ih]; rfl

/-- What is typed for a node has the children in order. -/
theorem flatMap_strokes {below : Ref → List String} (hnone : below none = []) {i : NodeId}
    (hleaf : s.leaf? i = none) (hshown : s.showsAll i = true) :
    (s.strokes (some i)).flatMap (Layout.spell below) =
      (s.children i).flatMap fun c => below (some c) := by
  cases hheader : s.header? i with
  | none => simp [strokes, children, hheader, payload?_of_header? hheader]
  | some header =>
    have hkind : s.kind? i = some header.kind := by rw [kind?, hheader, Option.map_some]
    have hthis : header.kind ≠ .thisKeyword := by
      intro hthis
      simp [leaf?, hkind, hthis] at hleaf
    simp only [strokes, Option.bind_some, hheader, if_neg hthis, children]
    cases hp : s.payload? i with
    | none => rfl
    | some payload =>
      have hform := form_of_payload? hkind hp
      rw [Option.elim_some, flatMap_filterMap_id hnone]
      refine Layout.flatMap_strokes hnone _ hform ?_ fun parts harrow hparts => ?_
      · cases payload with
        | identifier => simp [leaf?, hkind, hthis, hp] at hleaf
        | literal => simp [leaf?, hkind, hthis, hp] at hleaf
        | sourceFile =>
          simp [showsAll, kind?_of_sourceFile hp] at hshown
        | _ => simp [Payload.form]
      · subst hparts
        simpa [showsAll, hkind, harrow, hp] using hshown

/-- The leaves of a layout are those in depth-first order, if nothing is left out. -/
theorem Preorder.leaves_slotPieces {i : NodeId} {nodes : List NodeId} (h : s.Preorder i nodes)
    (hshown : ∀ j, s.Reaches i j → s.showsAll j = true) {depth : Nat} (hd : s.Bounded depth i)
    (level : Nat) :
    Piece.leaves (s.slotPieces depth level (some i)) = nodes.filterMap s.leaf? := by
  induction h generalizing depth level with
  | @node i below _ ih =>
    cases depth with
    | zero =>
      have hnode := node?_eq_none_of_bounded hd
      simp [slotPieces_zero, Piece.leaves, children_eq, leaf?, kind?_eq, payload?_eq, hnode]
    | succ depth =>
      have hbelow (c : NodeId) (hc : c ∈ s.children i) (level : Nat) :
          Piece.leaves (s.slotPieces depth level (some c)) = (below c).filterMap s.leaf? :=
        ih c hc (fun j hj => hshown j (.head hc hj)) (hd c hc) level
      rw [slotPieces_succ]
      cases hleaf : s.leaf? i with
      | some text =>
        simp [strokes_of_leaf? hleaf, children_of_leaf? hleaf, hleaf, Layout.expand, Piece.leaves]
      | none =>
        have hslot : ∀ ref, .child ref ∈ s.strokes (some i) → ∀ level,
            Piece.leaves (s.slotPieces depth level ref) =
              ref.elim [] fun c => (below c).filterMap s.leaf? := by
          intro ref hmem level
          cases ref with
          | none => rfl
          | some c => exact hbelow c (mem_children_of_stroke hmem) level
        rw [Layout.leaves_expand hslot, flatMap_strokes rfl hleaf (hshown i .refl),
          List.filterMap_cons_none hleaf, List.filterMap_flatMap]
        rfl

end Store

/-! ### What stands between leaves goes by the shape -/

/-- What a payload says, but for its texts. -/
def Detail.blank : Detail → Detail
  | .identifier _ => .identifier ""
  | .literal _ => .literal ""
  | .sourceFile _ => .sourceFile ""
  | detail => detail

/-- All that is known of a tree without its texts. -/
inductive Shape where
  /-- A slot that is left open. -/
  | vacant
  /-- A reference that names nothing. -/
  | dangling
  | node (kind : Kind) (flags : UInt32) (detail : Option Detail) (slots : List Shape)

/-- What stands in a slot has a shape. -/
inductive Store.HasShape (s : Store) : Ref → Shape → Prop where
  | vacant : HasShape s none .vacant
  | dangling {i : NodeId} (h : s.node? i = none) : HasShape s (some i) .dangling
  | node {i : NodeId} {node : Node} {below : Ref → Shape} (h : s.node? i = some node)
      (slots : ∀ slot ∈ node.slots, HasShape s slot (below slot)) :
      HasShape s (some i) (.node node.kind node.flags
        (node.payload.map fun payload => payload.detail.blank) (node.slots.map below))

namespace Layout
variable {slot slot' : (level : Nat) → Ref → List Piece} {isObject isObject' : Ref → Bool}

/-- Layouts with the leaves blanked. -/
def blanked (slot : (level : Nat) → Ref → List Piece) (level : Nat) (ref : Ref) : List Piece :=
  (slot level ref).map Piece.blank

theorem map_blank_expand {strokes : List Stroke} (h : ∀ text, .leaf text ∉ strokes) (level : Nat) :
    (expand slot level strokes).map Piece.blank = expand (blanked slot) level strokes := by
  induction strokes generalizing level with
  | nil => rfl
  | cons stroke rest ih =>
    have ih := ih fun text hmem => h text (List.mem_cons_of_mem _ hmem)
    cases stroke with
    | leaf text => exact absurd List.mem_cons_self (h text)
    | child ref => simp [expand, ih, blanked]
    | _ => simp [expand, ih, Piece.blank]

/-- The layout of a node that is no leaf has no leaf of its own. -/
theorem map_blank_payload (level : Nat) (isObject : Ref → Bool) (header : Header)
    {p : Payload Ref} (h : p.form ∉ [Form.identifier, .literal]) :
    (payload slot level isObject header p).map Piece.blank =
      payload (blanked slot) level isObject header p := by
  rw [payload_eq_expand, payload_eq_expand]
  exact map_blank_expand (fun text hmem => within_strokes isObject header h _ hmem) level

/-- Layouts that differ in their leaves only. -/
theorem payload_congr_blank {header header' : Header} (hkind : header.kind = header'.kind)
    (hflags : header.flags = header'.flags) {p q : Payload Ref}
    (hd : p.detail.blank = q.detail.blank)
    (hs : List.Forall₂ (Alike (blanked slot) (blanked slot') isObject isObject') p.slots q.slots)
    (level : Nat) :
    (payload slot level isObject header p).map Piece.blank =
      (payload slot' level isObject' header' q).map Piece.blank := by
  have hform : p.form = q.form := by
    cases p <;> cases q <;> simp_all [Payload.detail, Payload.form, Detail.blank]
  by_cases htext : p.form ∈ [Form.identifier, .literal, .sourceFile]
  · cases p <;> cases q <;> cases hform <;> simp_all [payload, Payload.form, Piece.blank]
  · have hdetail : p.detail = q.detail := by
      cases p <;> cases q <;> cases hform <;>
        simp_all [Payload.form, Payload.detail, Detail.blank]
    rw [map_blank_payload level isObject header (by simp_all),
      map_blank_payload level isObject' header' (by simp_all)]
    exact payload_congr hkind hflags hdetail hs level

end Layout

namespace Store
variable {s s' : Store}

theorem HasShape.exists_node {slot : Ref} {kind : Kind} {flags : UInt32} {detail : Option Detail}
    {shapes : List Shape} (h : s.HasShape slot (.node kind flags detail shapes)) :
    ∃ i node below, slot = some i ∧ s.node? i = some node ∧ node.kind = kind ∧
      node.flags = flags ∧ (node.payload.map fun payload => payload.detail.blank) = detail ∧
      node.slots.map below = shapes ∧ ∀ ref ∈ node.slots, s.HasShape ref (below ref) := by
  generalize hshape : Shape.node kind flags detail shapes = shape at h
  cases h with
  | vacant => cases hshape
  | dangling => cases hshape
  | @node i node below there slots =>
    injection hshape with hkind hflags hdetail hmap
    exact ⟨i, node, below, rfl, there, hkind.symm, hflags.symm, hdetail.symm, hmap.symm, slots⟩

theorem HasShape.isSome_eq {a b : Ref} {shape : Shape} (ha : s.HasShape a shape)
    (hb : s'.HasShape b shape) : a.isSome = b.isSome := by
  cases ha with
  | vacant =>
    cases hb
    rfl
  | dangling =>
    cases hb
    rfl
  | node =>
    obtain ⟨_, _, _, rfl, _⟩ := hb.exists_node
    rfl

theorem HasShape.slotIsObject_eq {a b : Ref} {shape : Shape} (ha : s.HasShape a shape)
    (hb : s'.HasShape b shape) : s.slotIsObject a = s'.slotIsObject b := by
  cases ha with
  | vacant =>
    cases hb
    rfl
  | dangling h =>
    cases hb with
    | dangling h' => simp [slotIsObject, kind?_eq, h, h']
  | node h =>
    obtain ⟨_, _, _, rfl, h', hkind, _⟩ := hb.exists_node
    simp [slotIsObject, kind?_eq, h, h', hkind]

theorem slotPieces_of_node? {i : NodeId} (h : s.node? i = none) (depth level : Nat) :
    s.slotPieces depth level (some i) = [] := by
  have hheader : s.header? i = none := by simpa [node?] using h
  cases depth with
  | zero => exact slotPieces_zero s level (some i)
  | succ depth => simp [slotPieces_succ, strokes, hheader, Layout.expand]

/-- Nodes of one kind with the same flags and booleans, over slots that are alike. -/
theorem blanked_succ_eq {i i' : NodeId} {node node' : Node} (there : s.node? i = some node)
    (there' : s'.node? i' = some node') (hkind : node.kind = node'.kind)
    (hflags : node.flags = node'.flags)
    (hdetail : (node.payload.map fun payload => payload.detail.blank) =
      node'.payload.map fun payload => payload.detail.blank) {depth depth' : Nat}
    (hs : List.Forall₂ (Layout.Alike (Layout.blanked (s.slotPieces depth))
      (Layout.blanked (s'.slotPieces depth')) s.slotIsObject s'.slotIsObject)
      node.slots node'.slots) (level : Nat) :
    Layout.blanked (s.slotPieces (depth + 1)) level (some i) =
      Layout.blanked (s'.slotPieces (depth' + 1)) level (some i') := by
  obtain ⟨header, hheader, rfl⟩ := Option.map_eq_some_iff.mp there
  obtain ⟨header', hheader', rfl⟩ := Option.map_eq_some_iff.mp there'
  simp only [Layout.blanked, slotPieces, Option.elim_some, piecesWithin_succ hheader,
    piecesWithin_succ hheader', show header.kind = header'.kind from hkind]
  split
  · rfl
  · cases hp : s.payload? i with
    | none =>
      cases hp' : s'.payload? i' with
      | none => rfl
      | some payload' => simp [hp, hp'] at hdetail
    | some payload =>
      cases hp' : s'.payload? i' with
      | none => simp [hp, hp'] at hdetail
      | some payload' =>
        simp only [hp, hp', Option.map_some, Option.some.injEq, Node.slots,
          Option.getD_some] at hdetail hs
        exact Layout.payload_congr_blank hkind hflags hdetail hs level

/-- **Nodes of one shape are laid out alike, but for their leaves.** -/
theorem HasShape.blanked_eq {a b : Ref} {shape : Shape} (ha : s.HasShape a shape)
    (hb : s'.HasShape b shape) {depth depth' : Nat} (hd : ∀ i ∈ a, s.Bounded depth i)
    (hd' : ∀ i ∈ b, s'.Bounded depth' i) (level : Nat) :
    Layout.blanked (s.slotPieces depth) level a = Layout.blanked (s'.slotPieces depth') level b := by
  induction ha generalizing b depth depth' level with
  | vacant =>
    cases hb
    rfl
  | dangling h =>
    cases hb with
    | dangling h' => simp [Layout.blanked, slotPieces_of_node? h, slotPieces_of_node? h']
  | @node i node below there hslots ih =>
    obtain ⟨i', node', below', rfl, there', hkind, hflags, hdetail, hmap, hslots'⟩ :=
      hb.exists_node
    cases depth with
    | zero => simp [node?_eq_none_of_bounded (hd i rfl)] at there
    | succ depth =>
      cases depth' with
      | zero => simp [node?_eq_none_of_bounded (hd' i' rfl)] at there'
      | succ depth' =>
        refine blanked_succ_eq there there' hkind.symm hflags.symm hdetail.symm ?_ level
        refine (forall₂_of_map_eq hmap.symm).imp ?_
        rintro slot slot' ⟨hmem, hmem', hshape⟩
        have hslot' := hslots' slot' hmem'
        rw [← hshape] at hslot'
        refine ⟨?_, (hslots slot hmem).isSome_eq hslot', (hslots slot hmem).slotIsObject_eq hslot'⟩
        refine ih slot hmem hslot' (fun c hc => hd i rfl c ?_) fun c hc => hd' i' rfl c ?_
        · rw [children_of_node? there]
          exact List.mem_filterMap.mpr ⟨slot, hmem, hc⟩
        · rw [children_of_node? there']
          exact List.mem_filterMap.mpr ⟨slot', hmem', hc⟩

theorem Bounded.exists_shape {depth : Nat} {i : NodeId} (h : s.Bounded depth i) :
    ∃ shape, s.HasShape (some i) shape := by
  induction depth generalizing i with
  | zero => exact ⟨.dangling, .dangling (node?_eq_none_of_bounded h)⟩
  | succ depth ih =>
    cases there : s.node? i with
    | none => exact ⟨.dangling, .dangling there⟩
    | some node =>
      have hslots : ∀ slot ∈ node.slots, ∃ shape, s.HasShape slot shape := by
        intro slot hmem
        cases slot with
        | none => exact ⟨.vacant, .vacant⟩
        | some c =>
          refine ih (h c ?_)
          rw [children_of_node? there]
          exact List.mem_filterMap.mpr ⟨some c, hmem, rfl⟩
      have : Nonempty Shape := ⟨.vacant⟩
      choose! below hbelow using hslots
      exact ⟨_, .node there hbelow⟩

theorem Legible.gaps_eq {i i' : NodeId} (hi : s.Legible i) (hi' : s'.Legible i') {shape : Shape}
    (h : s.HasShape (some i) shape) (h' : s'.HasShape (some i') shape) :
    Piece.gaps (s.pieces 0 i) = Piece.gaps (s'.pieces 0 i') := by
  have hblanked := h.blanked_eq h' (fun _ hj => Option.some.inj hj ▸ hi.acyclic.bounded)
    (fun _ hj => Option.some.inj hj ▸ hi'.acyclic.bounded) 0
  have hgaps := congrArg Piece.gaps hblanked
  simp only [Layout.blanked, Piece.gaps_map_blank] at hgaps
  exact hgaps

/-- To a shape belong separators, which may be read off at any node of this shape. -/
theorem exists_separators (shape : Shape) :
    ∃ separators : List String, ∀ (s : Store) (i : NodeId), s.Legible i →
      s.HasShape (some i) shape → Piece.gaps (s.pieces 0 i) = separators := by
  by_cases h : ∃ (s : Store) (i : NodeId), s.Legible i ∧ s.HasShape (some i) shape
  · obtain ⟨s, i, hi, hshape⟩ := h
    exact ⟨_, fun s' i' hi' hshape' => hi'.gaps_eq hi hshape' hshape⟩
  · exact ⟨[], fun s i hi hshape => absurd ⟨s, i, hi, hshape⟩ h⟩

/-- **Printed code is woven of the leaves in depth-first order, and of separators that are known
from the shape.** -/
theorem print_eq_weave :
    ∃ separators : Shape → List String, ∀ (s : Store) (i : NodeId), s.Legible i →
      (∃ shape nodes, s.HasShape (some i) shape ∧ s.Preorder i nodes) ∧
      ∀ shape nodes, s.HasShape (some i) shape → s.Preorder i nodes →
        (separators shape).length = (nodes.filterMap s.leaf?).length + 1 ∧
        s.print i = weave (separators shape) (nodes.filterMap s.leaf?) := by
  choose separators hseparators using exists_separators
  refine ⟨separators, fun s i hi => ⟨?_, fun shape nodes hshape hnodes => ?_⟩⟩
  · obtain ⟨shape, hshape⟩ := hi.acyclic.bounded.exists_shape
    exact ⟨shape, _, hshape, hi.acyclic.bounded.preorder⟩
  · have hleaves : Piece.leaves (s.pieces 0 i) = nodes.filterMap s.leaf? :=
      hnodes.leaves_slotPieces hi.shown hi.acyclic.bounded 0
    rw [← hseparators shape s i hi hshape, ← hleaves]
    exact ⟨Piece.length_gaps _, Piece.render_eq_weave _⟩

theorem legible_nestedBlocks : nestedBlocks.Legible 7 where
  acyclic := acyclic_of_lt (by decide) 7
  shown := fun j _ => by
    by_cases hj : j < nestedBlocks.size
    · have hshown : ∀ j < nestedBlocks.size, nestedBlocks.showsAll j = true := by decide
      exact hshown j hj
    · simp [showsAll, kind?_eq, node?_eq_none (Nat.le_of_not_lt hj)]

theorem print_eq_weave_nestedBlocks :
    nestedBlocks.Legible 7 ∧ nestedBlocks.Preorder 7 [7, 6, 5, 4, 3, 2, 1, 0, 20] ∧
      ∃ separators : List String, separators.length = 3 ∧
        nestedBlocks.print 7 = weave separators ["f", "\"a\\nb\""] := by
  have hnodes : nestedBlocks.Preorder 7 [7, 6, 5, 4, 3, 2, 1, 0, 20] :=
    legible_nestedBlocks.acyclic.bounded.preorder
  obtain ⟨separators, hseparators⟩ := print_eq_weave
  obtain ⟨⟨shape, _, hshape, _⟩, hwoven⟩ := hseparators nestedBlocks 7 legible_nestedBlocks
  exact ⟨legible_nestedBlocks, hnodes, separators shape, hwoven shape _ hshape hnodes⟩

end Store
end Settle
