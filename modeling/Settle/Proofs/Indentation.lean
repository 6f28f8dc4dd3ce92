import Settle.Proofs.Shape
import Settle.Proofs.Strokes

/-! Indentation.

A printer types one stroke after another and keeps the level that new lines are indented to; a
child that comes up is replaced by the strokes of its own (`Store.advance`). The level changes
on the way, since blocks stand within expressions within blocks. It is the old one again when
a node is done, and has not been lower meanwhile (`Above`).

What is typed for a node at some level is what is typed for it at level zero, with that much
more of indentation after each line break (`print_reindented`). For this the line breaks must
be the printer's own: in a string they are escaped, and other texts are taken to have none. -/
namespace Settle

/-! ### Text that is moved in -/

/-- A text in which every line but the first is indented by so many levels more. -/
def Text.reindent (levels : Nat) (text : String) : String :=
  String.ofList (text.toList.flatMap fun c =>
    if c = '\n' then '\n' :: (Piece.indent levels).toList else [c])

namespace Text

theorem reindent_append (levels : Nat) (a b : String) :
    reindent levels (a ++ b) = reindent levels a ++ reindent levels b := by
  rw [reindent, String.toList_append, List.flatMap_append, String.ofList_append]
  rfl

/-- There is nothing to be moved in a single line. -/
theorem reindent_of_not_mem (levels : Nat) {text : String} (h : '\n' ∉ text.toList) :
    reindent levels text = text := by
  have hsame : ∀ c ∈ text.toList,
      (if c = '\n' then '\n' :: (Piece.indent levels).toList else [c]) = [c] :=
    fun c hc => if_neg (ne_of_mem_of_not_mem hc h)
  rw [reindent, List.flatMap_congr hsame, List.flatMap_singleton', String.ofList_toList]

/-- A quoted text is one line. -/
theorem not_mem_quote (text : String) : '\n' ∉ (quote text).toList := by
  have hescape (c : Char) : '\n' ∉ escape c := by
    unfold escape
    split
    · decide
    · decide
    · decide
    · simp_all [eq_comm]
  simp [quote, quoteChars, hescape]

end Text

namespace Piece

/-- A piece whose lines are moved in. -/
def shift (levels : Nat) : Piece → Piece
  | line level => line (levels + level)
  | piece => piece

/-- A piece that breaks no line, or does nothing else. -/
def OneLine : Piece → Prop
  | leaf text => '\n' ∉ text.toList
  | mark text => '\n' ∉ text.toList
  | line _ => True

theorem indent_add (a b : Nat) : indent (a + b) = indent a ++ indent b := by
  rw [indent, Nat.mul_add, List.replicate_add, String.ofList_append]
  rfl

theorem text_shift (levels : Nat) {piece : Piece} (h : piece.OneLine) :
    (piece.shift levels).text = Text.reindent levels piece.text := by
  cases piece with
  | leaf text => exact (Text.reindent_of_not_mem levels h).symm
  | mark text => exact (Text.reindent_of_not_mem levels h).symm
  | line level =>
    have hblanks : '\n' ∉ (indent level).toList := by simp [indent]
    have hbreak : Text.reindent levels "\n" = "\n" ++ indent levels :=
      String.ext (by simp [Text.reindent])
    rw [shift, text, text, Text.reindent_append, hbreak, Text.reindent_of_not_mem levels hblanks,
      indent_add, String.append_assoc]

/-- The text of a layout that is moved in. -/
theorem render_shift (levels : Nat) {pieces : List Piece} (h : ∀ piece ∈ pieces, piece.OneLine) :
    render (pieces.map (shift levels)) = Text.reindent levels (render pieces) := by
  induction pieces with
  | nil => rfl
  | cons piece rest ih =>
    rw [List.forall_mem_cons] at h
    simp only [render, List.map_cons, String.join_cons] at ih ⊢
    rw [text_shift levels h.1, ih h.2, Text.reindent_append]

theorem render_cons (piece : Piece) (rest : List Piece) :
    render (piece :: rest) = piece.text ++ render rest := by
  rw [render, List.map_cons, String.join_cons]
  rfl

theorem render_append (a b : List Piece) : render (a ++ b) = render a ++ render b := by
  rw [render, List.map_append, String.join_append]
  rfl

end Piece

/-! ### Layouts that are moved in -/

/-- What strokes come to from a deeper level, if children are laid out there as they should be. -/
theorem Balanced.expand_shift {slot : (level : Nat) → Ref → List Piece} {levels : Nat}
    (hslot : ∀ level ref, slot (levels + level) ref = (slot level ref).map (Piece.shift levels))
    {strokes : List Stroke} (h : Balanced strokes) (level : Nat) :
    Layout.expand slot (levels + level) strokes =
      (Layout.expand slot level strokes).map (Piece.shift levels) := by
  induction h generalizing level with
  | nil => rfl
  | @cons stroke rest h _ ih =>
    cases stroke with
    | deeper => cases h
    | back => cases h
    | child ref => simp only [Layout.expand, hslot, ih, List.map_append]
    | _ => simp only [Layout.expand, Piece.shift, ih, List.map_cons]
  | @nest inner rest hinner hrest ihinner ihrest =>
    have hback : levels + (level + 1) - 1 = levels + level := rfl
    simp only [List.cons_append, Layout.expand, Layout.expand_append slot hinner, List.map_append,
      Nat.add_assoc levels, hback, ihinner, ihrest, Nat.add_sub_cancel]

/-- A stroke that is typed on one line. -/
def Stroke.OneLine : Stroke → Prop
  | leaf text => '\n' ∉ text.toList
  | mark text => '\n' ∉ text.toList
  | _ => True

theorem Layout.oneLine_expand {slot : (level : Nat) → Ref → List Piece}
    (hslot : ∀ level ref, ∀ piece ∈ slot level ref, piece.OneLine) {strokes : List Stroke}
    (h : ∀ stroke ∈ strokes, stroke.OneLine) (level : Nat) :
    ∀ piece ∈ expand slot level strokes, piece.OneLine := by
  induction strokes generalizing level with
  | nil => simp [expand]
  | cons stroke rest ih =>
    rw [List.forall_mem_cons] at h
    cases stroke with
    | deeper => exact ih h.2 (level + 1)
    | back => exact ih h.2 (level - 1)
    | child ref => exact List.forall_mem_append.mpr ⟨hslot level ref, ih h.2 level⟩
    | line => exact List.forall_mem_cons.mpr ⟨trivial, ih h.2 level⟩
    | leaf text => exact List.forall_mem_cons.mpr ⟨h.1, ih h.2 level⟩
    | mark text => exact List.forall_mem_cons.mpr ⟨h.1, ih h.2 level⟩

namespace Store
variable {s : Store}

/-- No leaf goes over several lines, other than a string before it is quoted. -/
def OneLined (s : Store) : Prop :=
  ∀ i < s.size, s.kind? i ≠ some (.literal .string) → ∀ text ∈ s.leaf? i, '\n' ∉ text.toList

instance : Decidable s.OneLined := by unfold OneLined; infer_instance

theorem lt_size_of_leaf? {i : NodeId} {text : String} (h : s.leaf? i = some text) : i < s.size := by
  by_contra hge
  simp [leaf?, kind?_eq, payload?_eq, node?_eq_none (Nat.le_of_not_lt hge)] at h

theorem OneLined.not_mem_leaf (h : s.OneLined) {i : NodeId} {text : String}
    (hleaf : s.leaf? i = some text) : '\n' ∉ text.toList := by
  by_cases hstring : s.kind? i = some (.literal .string)
  · obtain ⟨value, rfl⟩ := exists_quote_of_leaf? hstring hleaf
    exact Text.not_mem_quote value
  · exact h i (lt_size_of_leaf? hleaf) hstring text hleaf

theorem OneLined.strokes (h : s.OneLined) (slot : Ref) :
    ∀ stroke ∈ s.strokes slot, stroke.OneLine := by
  cases slot with
  | none => simp [Store.strokes]
  | some i =>
    cases hleaf : s.leaf? i with
    | some text =>
      rw [strokes_of_leaf? hleaf, List.forall_mem_singleton]
      exact h.not_mem_leaf hleaf
    | none =>
      intro stroke hmem
      have hwithin := within_of_leaf? hleaf stroke hmem
      cases stroke with
      | leaf => exact hwithin.elim
      | mark => exact hwithin
      | _ => trivial

theorem OneLined.slotPieces (h : s.OneLined) (depth level : Nat) (slot : Ref) :
    ∀ piece ∈ s.slotPieces depth level slot, piece.OneLine := by
  induction depth generalizing level slot with
  | zero => simp [slotPieces_zero]
  | succ depth ih =>
    rw [slotPieces_succ]
    exact Layout.oneLine_expand ih (h.strokes slot) level

theorem slotPieces_shift (s : Store) (levels depth level : Nat) (slot : Ref) :
    s.slotPieces depth (levels + level) slot =
      (s.slotPieces depth level slot).map (Piece.shift levels) := by
  induction depth generalizing level slot with
  | zero => simp [slotPieces_zero]
  | succ depth ih =>
    rw [slotPieces_succ, slotPieces_succ]
    exact (s.balanced_strokes slot).expand_shift ih level

/-- A node that is laid out at a level is moved in by it. -/
theorem OneLined.render_pieces (h : s.OneLined) (level : Nat) (i : NodeId) :
    Piece.render (s.pieces level i) = Text.reindent level (s.print i) := by
  have hshift := s.slotPieces_shift level s.size 0 (some i)
  have hrender := Piece.render_shift level (h.slotPieces s.size 0 (some i))
  rwa [← hshift] at hrender

end Store

/-! ### Printers -/

/-- There is one way to go on, so a run that comes to an end does so from wherever it has got to. -/
theorem resume_of_end {α : Type} {advance : α → Option α} {start now last : α}
    (h : Relation.ReflTransGen (fun a b => advance a = some b) start now)
    (hlast : Relation.ReflTransGen (fun a b => advance a = some b) start last)
    (hend : advance last = none) : Relation.ReflTransGen (fun a b => advance a = some b) now last := by
  have hunique : Relator.RightUnique fun a b : α => advance a = some b :=
    fun _ _ _ hb hc => Option.some.inj (hb.symm.trans hc)
  rcases Relation.ReflTransGen.total_of_right_unique hunique h hlast with hto | hto
  · exact hto
  · rw [(Relation.reflTransGen_iff_eq fun a => by simp [hend]).mp hto]

/-- What is still to be typed, what has been, and the level that new lines are indented to. -/
structure Printer where
  pending : List Stroke
  output : String
  level : Nat
  deriving DecidableEq, Repr

namespace Store
variable {s : Store}

/-- A printer after the next stroke, if there is one. -/
def advance (s : Store) : Printer → Option Printer
  | ⟨[], _, _⟩ => none
  | ⟨.leaf text :: rest, output, level⟩ => some ⟨rest, output ++ text, level⟩
  | ⟨.mark text :: rest, output, level⟩ => some ⟨rest, output ++ text, level⟩
  | ⟨.line :: rest, output, level⟩ => some ⟨rest, output ++ ("\n" ++ Piece.indent level), level⟩
  | ⟨.deeper :: rest, output, level⟩ => some ⟨rest, output, level + 1⟩
  | ⟨.back :: rest, output, level⟩ => some ⟨rest, output, level - 1⟩
  | ⟨.child slot :: rest, output, level⟩ => some ⟨s.strokes slot ++ rest, output, level⟩

/-- From one printer to another, stroke by stroke. -/
def Prints (s : Store) : Printer → Printer → Prop :=
  Relation.ReflTransGen fun printer printer' => s.advance printer = some printer'

theorem prints_nothing {slot : Ref} (h : s.strokes slot = []) (rest : List Stroke) (output : String)
    (level : Nat) :
    s.Prints ⟨.child slot :: rest, output, level⟩ ⟨rest, output ++ Piece.render [], level⟩ := by
  refine .single ?_
  simp [advance, h, Piece.render]

/-- Strokes that are balanced are typed, if their children are. -/
theorem prints_balanced {slot : (level : Nat) → Ref → List Piece} {strokes : List Stroke}
    (h : Balanced strokes)
    (hslot : ∀ ref, .child ref ∈ strokes → ∀ rest output level,
      s.Prints ⟨.child ref :: rest, output, level⟩
        ⟨rest, output ++ Piece.render (slot level ref), level⟩)
    (rest : List Stroke) (output : String) (level : Nat) :
    s.Prints ⟨strokes ++ rest, output, level⟩
      ⟨rest, output ++ Piece.render (Layout.expand slot level strokes), level⟩ := by
  induction h generalizing rest output level with
  | nil =>
    rw [Layout.expand, Piece.render, List.map_nil, String.join_nil, String.append_empty]
    exact .refl
  | @cons stroke strokes h _ ih =>
    have ih := ih fun ref hmem => hslot ref (List.mem_cons_of_mem _ hmem)
    cases stroke with
    | deeper => cases h
    | back => cases h
    | child ref =>
      rw [Layout.expand, Piece.render_append, ← String.append_assoc]
      exact (hslot ref List.mem_cons_self _ output level).trans (ih rest _ level)
    | leaf text =>
      rw [Layout.expand, Piece.render_cons, ← String.append_assoc]
      exact .head rfl (ih rest _ level)
    | mark text =>
      rw [Layout.expand, Piece.render_cons, ← String.append_assoc]
      exact .head rfl (ih rest _ level)
    | line =>
      rw [Layout.expand, Piece.render_cons, ← String.append_assoc]
      exact .head rfl (ih rest _ level)
  | @nest inner after hinner _ ihinner ihafter =>
    simp only [List.cons_append, List.append_assoc, Layout.expand,
      Layout.expand_append slot hinner, Nat.add_sub_cancel, Piece.render_append]
    rw [← String.append_assoc]
    refine .head rfl ((ihinner ?_ _ output (level + 1)).trans (.head rfl (ihafter ?_ rest _ level)))
    · intro ref hmem
      exact hslot ref (by simp [hmem])
    · intro ref hmem
      exact hslot ref (by simp [hmem])

/-- What stands in a slot is typed to the end, if the ways down from there end. -/
theorem Bounded.prints {depth : Nat} {i : NodeId} (h : s.Bounded depth i) (rest : List Stroke)
    (output : String) (level : Nat) :
    s.Prints ⟨.child (some i) :: rest, output, level⟩
      ⟨rest, output ++ Piece.render (s.slotPieces depth level (some i)), level⟩ := by
  induction depth generalizing i rest output level with
  | zero =>
    have hheader : s.header? i = none := by simpa [Bounded, kind?] using h
    exact prints_nothing (by simp [strokes, hheader]) rest output level
  | succ depth ih =>
    refine .head rfl ?_
    rw [slotPieces_succ]
    refine prints_balanced (s.balanced_strokes (some i)) ?_ rest output level
    intro ref hmem rest output level
    cases ref with
    | none => exact prints_nothing rfl rest output level
    | some c => exact ih (h c (mem_children_of_stroke hmem)) rest output level

end Store

/-! ### The level while a node is printed -/

/-- From a level on, what is pending never takes it below `low`, and ends there. -/
inductive Above (low : Nat) : (level : Nat) → (pending : List Stroke) → Prop where
  | done : Above low low []
  | level {level : Nat} {stroke : Stroke} {rest : List Stroke} (h : stroke.isLevel = true)
      (hrest : Above low level rest) : Above low level (stroke :: rest)
  | deeper {level : Nat} {rest : List Stroke} (h : low ≤ level)
      (hrest : Above low (level + 1) rest) : Above low level (.deeper :: rest)
  | back {level : Nat} {rest : List Stroke} (hrest : Above low level rest) :
      Above low (level + 1) (.back :: rest)

namespace Above
variable {low level : Nat}

theorem le {pending : List Stroke} (h : Above low level pending) : low ≤ level := by
  induction h with
  | done => exact Nat.le_refl low
  | level _ _ ih => exact ih
  | deeper h => exact h
  | back _ ih => exact Nat.le_succ_of_le ih

theorem prepend {strokes pending : List Stroke} (hs : Balanced strokes)
    (h : Above low level pending) : Above low level (strokes ++ pending) := by
  induction hs generalizing level pending with
  | nil => exact h
  | cons hstroke _ ih => exact .level hstroke (ih h)
  | nest _ _ ihinner ihrest =>
    simp only [List.cons_append, List.append_assoc]
    exact .deeper h.le (ihinner (.back (ihrest h)))

/-- **No stroke leads below.** -/
theorem step {s : Store} {printer printer' : Printer}
    (h : Above low printer.level printer.pending) (hstep : s.advance printer = some printer') :
    Above low printer'.level printer'.pending := by
  obtain ⟨pending, output, level⟩ := printer
  cases h with
  | done => cases hstep
  | @level _ stroke rest hlevel hrest =>
    cases stroke with
    | deeper => cases hlevel
    | back => cases hlevel
    | child slot =>
      cases hstep
      exact hrest.prepend (s.balanced_strokes slot)
    | _ =>
      cases hstep
      exact hrest
  | deeper _ hrest =>
    cases hstep
    exact hrest
  | back hrest =>
    cases hstep
    exact hrest

theorem run {s : Store} {printer printer' : Printer}
    (h : Above low printer.level printer.pending) (hrun : s.Prints printer printer') :
    Above low printer'.level printer'.pending := by
  induction hrun with
  | refl => exact h
  | tail _ hstep ih => exact ih.step hstep

end Above

namespace Store

/-- **A node is printed at a level as it is printed by itself, and moved in.** The printer comes to
an end with the level it began with, and at no time has a lower one. -/
theorem print_reindented {s : Store} (hs : s.OneLined) {i : NodeId} (hi : s.Acyclic i)
    (output : String) (level : Nat) :
    Piece.render (s.pieces level i) = Text.reindent level (s.print i) ∧
    s.Prints ⟨[.child (some i)], output, level⟩
      ⟨[], output ++ Text.reindent level (s.print i), level⟩ ∧
    ∀ printer, s.Prints ⟨[.child (some i)], output, level⟩ printer → level ≤ printer.level := by
  have hrender := hs.render_pieces level i
  refine ⟨hrender, ?_, fun printer hrun => ?_⟩
  · rw [← hrender]
    exact hi.bounded.prints [] output level
  · have hstart : Above level level [.child (some i)] := .level rfl .done
    exact (hstart.run hrun).le

/-- A block within an expression within a block, and a string of two lines. -/
def nestedBlocks : Store :=
  ({} : Store)
    |>.push (.literal .string) 0 .zero (.literal "a\nb")
    |>.push .returnStatement 0 .zero (.returnStatement (some 0))
    |>.push .block 0 .zero (.block [some 1])
    |>.push (.function .expression) 0 .zero (.function ⟨none, [], some 2, false, false⟩)
    |>.push .identifier 0 .zero (.identifier "f")
    |>.push .call 0 .zero (.call ⟨some 4, [some 3, some 20]⟩)
    |>.push .expressionStatement 0 .zero (.expressionStatement (some 5))
    |>.push .block 0 .zero (.block [some 6])

theorem print_reindented_nestedBlocks :
    nestedBlocks.OneLined ∧ nestedBlocks.Acyclic 7 ∧
    nestedBlocks.Prints ⟨[.child (some 7)], "g() ", 1⟩
      ⟨[], "g() \x7b\n        f(function () \x7b\n            return \"a\\nb\";\n        \x7d, );\n    \x7d",
        1⟩ ∧
    ∀ printer, nestedBlocks.Prints ⟨[.child (some 7)], "g() ", 1⟩ printer → 1 ≤ printer.level := by
  have hlines : nestedBlocks.OneLined := by decide +kernel
  have hacyclic : nestedBlocks.Acyclic 7 := acyclic_of_lt (by decide) 7
  obtain ⟨_, hprints, hlevel⟩ := print_reindented hlines hacyclic "g() " 1
  have htext : "g() " ++ Text.reindent 1 (nestedBlocks.print 7) =
      "g() \x7b\n        f(function () \x7b\n            return \"a\\nb\";\n        \x7d, );\n    \x7d" := by
    decide +kernel
  rw [htext] at hprints
  exact ⟨hlines, hacyclic, hprints, hlevel⟩

end Store
end Settle
