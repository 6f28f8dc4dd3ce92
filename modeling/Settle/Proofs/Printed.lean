import Settle.Print.Node
import Settle.Proofs.Lists
import Settle.Proofs.Tree

/-! Printing goes by the tree.

The layout of a node has its kind, flags and payload, and asks three things about a slot: how
its child is laid out, whether there is one, and whether that is an object. Slots of
which all three answers are the same cannot be told apart (`Layout.payload_congr`). Nodes at
which the same tree is read therefore print alike, whatever their ids, and in whatever
stores they are (`Store.Holds.print_eq`). -/
namespace Settle

/-! ### Slots that are laid out alike -/

namespace Layout
variable {slot slot' : (level : Nat) → Ref → List Piece} {isObject isObject' : Ref → Bool}

/-- Two slots of which the layout of a node sees the same. -/
structure Alike (slot slot' : (level : Nat) → Ref → List Piece) (isObject isObject' : Ref → Bool)
    (a b : Ref) : Prop where
  layout : ∀ level, slot level a = slot' level b
  filled : a.isSome = b.isSome
  object : isObject a = isObject' b

theorem list_congr {as bs : List Ref}
    (h : List.Forall₂ (Alike slot slot' isObject isObject') as bs) (level : Nat) :
    list slot level as = list slot' level bs := by
  have hmap : as.map (slot level) = bs.map (slot' level) := by
    induction h with
    | nil => rfl
    | cons hab _ ih => rw [List.map_cons, List.map_cons, hab.layout, ih]
  rw [list, list, hmap]

theorem optional_congr {a b : Ref} (h : Alike slot slot' isObject isObject' a b) (level : Nat)
    (mark : String) : optional slot level mark a = optional slot' level mark b := by
  cases a with
  | none =>
    cases b with
    | none => rfl
    | some j => cases h.filled
  | some i =>
    cases b with
    | none => cases h.filled
    | some j => exact congrArg (Piece.mark mark :: ·) (h.layout level)

theorem block_congr {as bs : List Ref}
    (h : List.Forall₂ (Alike slot slot' isObject isObject') as bs) (level : Nat) :
    block slot level as = block slot' level bs := by
  have hlines : as.flatMap (fun i => .line (level + 1) :: slot (level + 1) i) =
      bs.flatMap (fun i => .line (level + 1) :: slot' (level + 1) i) := by
    induction h with
    | nil => rfl
    | cons hab _ ih => rw [List.flatMap_cons, List.flatMap_cons, hab.layout, ih]
  cases h with
  | nil => rfl
  | cons => simp only [block, hlines]

theorem collection_congr {as bs : List Ref}
    (h : List.Forall₂ (Alike slot slot' isObject isObject') as bs) (level : Nat)
    (kind : CollectionKind) : collection slot level kind as = collection slot' level kind bs := by
  cases kind with
  | array => simp only [collection, list_congr h]
  | object =>
    cases h with
    | nil => rfl
    | cons hab hrest =>
      simp only [collection, list_congr (.cons hab hrest), List.isEmpty_cons]

theorem suspension_congr {p q : SuspensionParts Ref} (hd : p.delegates = q.delegates)
    (h : Alike slot slot' isObject isObject' p.operand q.operand) (level : Nat)
    (kind : SuspensionKind) : suspension slot level kind p = suspension slot' level kind q := by
  cases kind with
  | await => simp only [suspension, h.layout]
  | yield => simp only [suspension, hd, optional_congr h]

theorem function_congr {p q : FunctionParts Ref} (ha : p.isAsync = q.isAsync)
    (hg : p.isGenerator = q.isGenerator)
    (hname : Alike slot slot' isObject isObject' p.name q.name)
    (hparameters : List.Forall₂ (Alike slot slot' isObject isObject') p.parameters q.parameters)
    (hbody : Alike slot slot' isObject isObject' p.body q.body) (level : Nat)
    (kind : FunctionKind) : function slot level kind p = function slot' level kind q := by
  have hword : functionWord kind p = functionWord kind q := by
    simp only [functionWord, hg, hname.filled]
  simp only [function, ha, hword, hname.layout, list_congr hparameters, hbody.layout]

theorem arrow_congr {p q : FunctionParts Ref} (ha : p.isAsync = q.isAsync)
    (hparameters : List.Forall₂ (Alike slot slot' isObject isObject') p.parameters q.parameters)
    (hbody : Alike slot slot' isObject isObject' p.body q.body) (level : Nat) :
    arrow slot level (isObject p.body) p = arrow slot' level (isObject' q.body) q := by
  simp only [arrow, ha, list_congr hparameters, hbody.layout, hbody.object]

theorem form_eq_of_detail {p q : Payload Ref} (h : p.detail = q.detail) : p.form = q.form := by
  cases p <;> cases q <;> simp_all [Payload.detail, Payload.form]

/-- **The layout of a node goes by what it sees of the slots.** -/
theorem payload_congr {header header' : Header} (hkind : header.kind = header'.kind)
    (hflags : header.flags = header'.flags) {p q : Payload Ref} (hd : p.detail = q.detail)
    (hs : List.Forall₂ (Alike slot slot' isObject isObject') p.slots q.slots) (level : Nat) :
    payload slot level isObject header p = payload slot' level isObject' header' q := by
  have hform := form_eq_of_detail hd
  cases p <;> cases q <;> cases hform <;>
    simp only [Payload.slots, List.forall₂_cons, List.forall₂_nil_left_iff, forall₂_concat,
      and_true] at hs <;>
    simp only [payload, hkind, hflags]
  case identifier.identifier.refl =>
    cases hd
    rfl
  case literal.literal.refl =>
    cases hd
    rfl
  case function.function.refl p q =>
    obtain ⟨ha, hg⟩ := Detail.function.inj hd
    obtain ⟨⟨hname, hparameters⟩, hbody⟩ := hs
    cases header'.kind with
    | function kind =>
      cases kind with
      | arrow => exact arrow_congr ha hparameters hbody level
      | _ => exact function_congr ha hg hname hparameters hbody level _
    | _ => rfl
  case block.block.refl => exact block_congr hs level
  case call.call.refl => rw [hs.1.layout, list_congr hs.2]
  case access.access.refl => rw [hs.1.layout, hs.2.layout]
  case suspension.suspension.refl =>
    cases header'.kind with
    | suspension kind => exact suspension_congr (Detail.suspension.inj hd) hs level kind
    | _ => rfl
  case tryExpression.tryExpression.refl p q =>
    obtain ⟨ha, hg⟩ := Detail.tryExpression.inj hd
    have hword : tryWord p = tryWord q := by simp only [tryWord, ha, hg]
    rw [hword, hs.layout]
  case returnStatement.returnStatement.refl => rw [optional_congr hs]
  case expressionStatement.expressionStatement.refl => rw [hs.layout]
  case variableStatement.variableStatement.refl => rw [list_congr hs]
  case declarator.declarator.refl => rw [hs.1.layout, optional_congr hs.2]
  case importDeclaration.importDeclaration.refl => rw [list_congr hs.1, hs.2.layout]
  case importSpecifier.importSpecifier.refl => rw [hs.1.layout, hs.1.filled, hs.2.layout]
  case collection.collection.refl =>
    cases header'.kind with
    | collection kind => exact collection_congr hs level kind
    | _ => rfl

end Layout

/-! ### Trees that print alike -/

namespace Store
variable {s s' : Store}

/-- How the child in a slot is laid out, down to a depth. -/
def slotPieces (s : Store) (depth level : Nat) (slot : Ref) : List Piece :=
  slot.elim [] (s.piecesWithin depth level)

/-- Whether an object stands in a slot. -/
def slotIsObject (s : Store) (slot : Ref) : Bool := slot.bind s.kind? == some (.collection .object)

theorem piecesWithin_succ {depth level : Nat} {i : NodeId} {header : Header}
    (h : s.header? i = some header) :
    s.piecesWithin (depth + 1) level i =
      if header.kind = .thisKeyword then [.leaf "this"]
      else (s.payload? i).elim []
        (Layout.payload (s.slotPieces depth) level s.slotIsObject header) := by
  by_cases hthis : header.kind = .thisKeyword
  · simp only [piecesWithin, h, hthis, if_true]
  · rw [if_neg hthis]
    cases hp : s.payload? i with
    | none => simp only [piecesWithin, h, hp, Option.elim_none]
    | some payload =>
      simp only [piecesWithin, h, hp, Option.elim_some]
      refine Layout.payload_congr rfl rfl rfl (List.forall₂_same.mpr fun slot _ => ?_) level
      exact ⟨fun level => by cases slot <;> rfl, rfl, rfl⟩

/-- Two nodes with the same mark, over slots that are alike. -/
theorem piecesWithin_congr {i i' : NodeId} {node node' : Node} (there : s.node? i = some node)
    (there' : s'.node? i' = some node') (hmark : node.mark = node'.mark) {depth depth' : Nat}
    (hs : List.Forall₂ (Layout.Alike (s.slotPieces depth) (s'.slotPieces depth') s.slotIsObject
      s'.slotIsObject) node.slots node'.slots) (level : Nat) :
    s.piecesWithin (depth + 1) level i = s'.piecesWithin (depth' + 1) level i' := by
  obtain ⟨header, hheader, rfl⟩ := Option.map_eq_some_iff.mp there
  obtain ⟨header', hheader', rfl⟩ := Option.map_eq_some_iff.mp there'
  simp only [Node.mark, Mark.mk.injEq] at hmark
  obtain ⟨hkind, hflags, _, hdetail⟩ := hmark
  rw [piecesWithin_succ hheader, piecesWithin_succ hheader', hkind]
  congr 1
  cases hp : s.payload? i with
  | none =>
    cases hp' : s'.payload? i' with
    | none => rfl
    | some payload' =>
      rw [hp, hp'] at hdetail
      cases hdetail
  | some payload =>
    cases hp' : s'.payload? i' with
    | none =>
      rw [hp, hp'] at hdetail
      cases hdetail
    | some payload' =>
      rw [hp, hp'] at hdetail hs
      exact Layout.payload_congr hkind hflags (Option.some.inj hdetail) hs level

theorem Holds.slotIsObject {t : Tree NodeId} (h : s.Holds t) :
    s.slotIsObject t.ref = (t.kind? == some (.collection .object)) := by
  cases t with
  | empty => rfl
  | node i mark slots =>
    rw [Store.slotIsObject, Tree.ref_node, Option.bind_some, h.kind? rfl]

theorem alike_of_layout {t t' : Tree NodeId} (h : s.Holds t) (h' : s'.Holds t')
    (he : t.erase = t'.erase) {depth depth' : Nat}
    (hlayout : ∀ level, s.slotPieces depth level t.ref = s'.slotPieces depth' level t'.ref) :
    Layout.Alike (s.slotPieces depth) (s'.slotPieces depth') s.slotIsObject s'.slotIsObject
      t.ref t'.ref where
  layout := hlayout
  filled := by
    cases t with
    | empty =>
      cases t' with
      | empty => rfl
      | node => cases he
    | node =>
      cases t' with
      | empty => cases he
      | node => rfl
  object := by rw [h.slotIsObject, h'.slotIsObject, ← t.kind?_erase, ← t'.kind?_erase, he]

/-- Trees that are the same but for their ids are laid out alike. -/
theorem Holds.slotPieces_eq {t t' : Tree NodeId} (h : s.Holds t) (h' : s'.Holds t')
    (he : t.erase = t'.erase) {depth depth' : Nat} (hd : t.height ≤ depth)
    (hd' : t'.height ≤ depth') (level : Nat) :
    s.slotPieces depth level t.ref = s'.slotPieces depth' level t'.ref := by
  induction t generalizing t' depth depth' level with
  | empty =>
    cases t' with
    | empty => rfl
    | node => cases he
  | node i mark slots ih =>
    cases t' with
    | empty => cases he
    | node i' mark' slots' =>
      cases depth with
      | zero => cases hd
      | succ depth =>
        cases depth' with
        | zero => cases hd'
        | succ depth' =>
          rw [Tree.erase_node, Tree.erase_node, Tree.node.injEq] at he
          obtain ⟨_, rfl, hslots⟩ := he
          obtain ⟨node, there, hmark, names, below⟩ := holds_node_iff.mp h
          obtain ⟨node', there', hmark', names', below'⟩ := holds_node_iff.mp h'
          refine piecesWithin_congr there there' (hmark.trans hmark'.symm) ?_ level
          rw [names, names', List.forall₂_map_left_iff, List.forall₂_map_right_iff]
          refine (forall₂_of_map_eq hslots).imp ?_
          rintro t t' ⟨ht, ht', he⟩
          have hheight := Nat.le_trans (Tree.height_le_heightAll ht) (Nat.le_of_succ_le_succ hd)
          have hheight' :=
            Nat.le_trans (Tree.height_le_heightAll ht') (Nat.le_of_succ_le_succ hd')
          exact alike_of_layout (below t ht) (below' t' ht') he
            (ih t ht (below t ht) (below' t' ht') he hheight hheight')

/-- **Nodes at which the same tree stands print alike.** -/
theorem Holds.print_eq {t t' : Tree NodeId} (h : s.Holds t) (h' : s'.Holds t')
    (he : t.erase = t'.erase) {i i' : NodeId} (hi : t.ref = some i) (hi' : t'.ref = some i')
    (hd : t.height ≤ s.size) (hd' : t'.height ≤ s'.size) : s.print i = s'.print i' := by
  have hlayout := h.slotPieces_eq h' he hd hd' 0
  rw [hi, hi'] at hlayout
  exact congrArg Piece.render hlayout

end Store
end Settle
