import Mathlib.Logic.Relation
import Settle.Proofs.Indentation

/-! Which expressions print alike.

Of names, calls, accesses and `await`, printing makes text without brackets around an operand.
So what is called or accessed may as well be awaited afterwards: `(await f).a` and `await (f.a)`
are both printed `await f.a`. `Expr.hoist` moves each `await` to where a reader of the text
would see it, and this is all that is lost: two expressions print alike exactly if they are the
same once hoisted (`print_eq_iff_hoist`).

That nothing else is lost is shown by reading the text back. A reader goes over the text from the
left and keeps on a stack the operators and argument lists that are not complete
(`Reader.advance`). There is one thing it can do at each time, so that from one text only one
expression is read. -/
namespace Settle

/-! ### Expressions -/

inductive Expr where
  | name (text : String)
  | call (callee : Expr) (arguments : List Expr)
  | access (object : Expr) (property : String)
  | await (operand : Expr)

namespace Expr

/-- Induction over expressions: a property of all operands is a property of the expression. -/
@[elab_as_elim, induction_eliminator]
theorem induct {motive : Expr → Prop} (name : ∀ text, motive (.name text))
    (call : ∀ callee arguments, motive callee → (∀ e ∈ arguments, motive e) →
      motive (.call callee arguments))
    (access : ∀ object property, motive object → motive (.access object property))
    (await : ∀ operand, motive operand → motive (.await operand)) (e : Expr) : motive e :=
  @Expr.rec motive (fun es => ∀ e ∈ es, motive e) name call access await
    (fun e h => absurd h List.not_mem_nil)
    (fun head tail hhead htail e h => by
      rcases List.mem_cons.mp h with rfl | h
      · exact hhead
      · exact htail e h) e

def isAwait : Expr → Bool
  | await _ => true
  | _ => false

mutual
/-- An expression as it is printed. -/
def chars : Expr → List Char
  | name text => text.toList
  | call callee arguments =>
    chars callee ++ ('(' :: ([',', ' '].intercalate (charsEach arguments) ++ [')']))
  | access object property => chars object ++ '.' :: property.toList
  | await operand => "await ".toList ++ chars operand
def charsEach : List Expr → List (List Char)
  | [] => []
  | e :: rest => chars e :: charsEach rest
end

theorem charsEach_eq (es : List Expr) : charsEach es = es.map chars := by
  induction es with
  | nil => rfl
  | cons e rest ih => rw [charsEach, ih, List.map_cons]

theorem chars_name (text : String) : (name text).chars = text.toList := rfl

theorem chars_call (callee : Expr) (arguments : List Expr) :
    (call callee arguments).chars =
      callee.chars ++ ('(' :: ([',', ' '].intercalate (arguments.map chars) ++ [')'])) := by
  rw [← charsEach_eq]
  rfl

theorem chars_access (object : Expr) (property : String) :
    (access object property).chars = object.chars ++ '.' :: property.toList := rfl

theorem chars_await (operand : Expr) :
    (await operand).chars = "await ".toList ++ operand.chars := rfl

/-! ### Hoisting -/

/-- Puts what is awaited into a context, and awaits it there. -/
def under (context : Expr → Expr) : Expr → Expr
  | await operand => await (under context operand)
  | e => context e

mutual
/-- An expression in which nothing that is called or accessed is awaited first. -/
def hoist : Expr → Expr
  | name text => name text
  | call callee arguments => (hoist callee).under fun callee => call callee (hoistEach arguments)
  | access object property => (hoist object).under fun object => access object property
  | await operand => await (hoist operand)
def hoistEach : List Expr → List Expr
  | [] => []
  | e :: rest => hoist e :: hoistEach rest
end

theorem hoistEach_eq (es : List Expr) : hoistEach es = es.map hoist := by
  induction es with
  | nil => rfl
  | cons e rest ih => rw [hoistEach, ih, List.map_cons]

/-- Nothing that is called or accessed is an `await`. -/
inductive Plain : Expr → Prop where
  | name (text : String) : Plain (name text)
  | call {callee : Expr} {arguments : List Expr} (h : callee.isAwait = false)
      (hcallee : Plain callee) (harguments : ∀ e ∈ arguments, Plain e) :
      Plain (call callee arguments)
  | access {object : Expr} (property : String) (h : object.isAwait = false)
      (hobject : Plain object) : Plain (access object property)
  | await {operand : Expr} (h : Plain operand) : Plain (await operand)

theorem under_of_not_await {e : Expr} (h : e.isAwait = false) (context : Expr → Expr) :
    e.under context = context e := by
  cases e with
  | await => cases h
  | _ => rfl

/-- A context that adds to the end of the text adds as much from within an `await`. -/
theorem chars_under {context : Expr → Expr} {ending : List Char}
    (h : ∀ e, (context e).chars = e.chars ++ ending) (e : Expr) :
    (e.under context).chars = e.chars ++ ending := by
  induction e with
  | await operand ih => rw [under, chars_await, ih, chars_await, List.append_assoc]
  | _ => exact h _

theorem plain_under {context : Expr → Expr}
    (h : ∀ e, e.isAwait = false → Plain e → Plain (context e)) {e : Expr} (he : Plain e) :
    Plain (e.under context) := by
  induction he with
  | await _ ih => exact .await ih
  | name text => exact h _ rfl (.name text)
  | call hawait hcallee harguments => exact h _ rfl (.call hawait hcallee harguments)
  | access property hawait hobject => exact h _ rfl (.access property hawait hobject)

/-- Hoisting does not show in the text. -/
theorem chars_hoist (e : Expr) : e.hoist.chars = e.chars := by
  induction e with
  | name => rfl
  | call callee arguments ihcallee iharguments =>
    have heach : (arguments.map hoist).map chars = arguments.map chars := by
      rw [List.map_map]
      exact List.map_congr_left iharguments
    rw [hoist, chars_under fun e => chars_call e _, ihcallee, hoistEach_eq, heach, chars_call]
  | access object property ih =>
    rw [hoist, chars_under fun e => chars_access e _, ih, chars_access]
  | await operand ih => rw [hoist, chars_await, ih, chars_await]

theorem plain_hoist (e : Expr) : Plain e.hoist := by
  induction e with
  | name text => exact .name text
  | call callee arguments ihcallee iharguments =>
    have heach : ∀ e ∈ hoistEach arguments, Plain e := by
      rw [hoistEach_eq]
      exact List.forall_mem_map.mpr iharguments
    exact plain_under (fun e hawait he => .call hawait he heach) ihcallee
  | access object property ih =>
    exact plain_under (fun e hawait he => .access property hawait he) ih
  | await operand ih => exact .await ih

theorem Plain.hoist_eq {e : Expr} (h : Plain e) : e.hoist = e := by
  induction h with
  | name => rfl
  | call hawait _ _ ihcallee iharguments =>
    rw [Expr.hoist, ihcallee, under_of_not_await hawait, hoistEach_eq,
      List.map_congr_left iharguments, List.map_id']
  | access property hawait _ ih => rw [Expr.hoist, ih, under_of_not_await hawait]
  | await _ ih => rw [Expr.hoist, ih]

/-- **What is hoisted already is what is plain.** -/
theorem hoist_eq_self_iff {e : Expr} : e.hoist = e ↔ Plain e :=
  ⟨fun h => h ▸ plain_hoist e, Plain.hoist_eq⟩

/-! ### Names -/

/-- What a name may be made of: all that is no mark of the printed form. -/
def isNameChar (c : Char) : Bool := !(['(', ')', '.', ',', ' '].contains c)

/-- A name: some text without the marks of the printed form. -/
def IsName (text : String) : Prop := text.toList ≠ [] ∧ ∀ c ∈ text.toList, isNameChar c = true

instance (text : String) : Decidable (IsName text) :=
  decidable_of_iff ((!text.toList.isEmpty && text.toList.all isNameChar) = true) (by simp [IsName])

/-- An expression whose names are names. -/
inductive Named : Expr → Prop where
  | name {text : String} (h : IsName text) : Named (name text)
  | call {callee : Expr} {arguments : List Expr} (hcallee : Named callee)
      (harguments : ∀ e ∈ arguments, Named e) : Named (call callee arguments)
  | access {object : Expr} {property : String} (hobject : Named object) (h : IsName property) :
      Named (access object property)
  | await {operand : Expr} (h : Named operand) : Named (await operand)

theorem named_under {context : Expr → Expr} (h : ∀ e, Named e → Named (context e)) {e : Expr}
    (he : Named e) : Named (e.under context) := by
  induction he with
  | await _ ih => exact .await ih
  | name hname => exact h _ (.name hname)
  | call hcallee harguments => exact h _ (.call hcallee harguments)
  | access hobject hname => exact h _ (.access hobject hname)

theorem Named.hoist {e : Expr} (h : Named e) : Named e.hoist := by
  induction h with
  | name hname => exact .name hname
  | call _ _ ihcallee iharguments =>
    rw [Expr.hoist, hoistEach_eq]
    exact named_under (fun e he => .call he (List.forall_mem_map.mpr iharguments)) ihcallee
  | access _ hname ih =>
    rw [Expr.hoist]
    exact named_under (fun e he => .access he hname) ih
  | await _ ih => exact .await ih

end Expr

/-! ### Reading back -/

/-- What is not complete yet: an `await`, or a call with some of its arguments. -/
inductive Frame where
  | await
  | arguments (callee : Expr) (done : List Expr)

/-- The expression that stands right before what is to be read, if one does; the text to be read;
and what is not complete. -/
structure Reader where
  focus : Option Expr
  input : List Char
  stack : List Frame

namespace Reader
open Settle.Expr

/-- What is read next. After an expression, a bracket or a dot goes on with it. Anything else
completes it as an operand of what is on the stack. -/
def advance : Reader → Option Reader
  | ⟨none, input, stack⟩ =>
    let word := input.takeWhile isNameChar
    let rest := input.dropWhile isNameChar
    if word = "await".toList ∧ rest.head? = some ' ' then some ⟨none, rest.tail, .await :: stack⟩
    else if word ≠ [] then some ⟨some (.name (String.ofList word)), rest, stack⟩
    else match rest, stack with
      | ')' :: rest, .arguments callee [] :: stack => some ⟨some (.call callee []), rest, stack⟩
      | _, _ => none
  | ⟨some e, input, stack⟩ =>
    match input, stack with
    | '(' :: rest, stack => some ⟨none, rest, .arguments e [] :: stack⟩
    | '.' :: rest, stack =>
      some ⟨some (.access e (String.ofList (rest.takeWhile isNameChar))),
        rest.dropWhile isNameChar, stack⟩
    | input, .await :: stack => some ⟨some (.await e), input, stack⟩
    | ',' :: ' ' :: rest, .arguments callee done :: stack =>
      some ⟨none, rest, .arguments callee (done ++ [e]) :: stack⟩
    | ')' :: rest, .arguments callee done :: stack =>
      some ⟨some (.call callee (done ++ [e])), rest, stack⟩
    | _, _ => none

/-- From one reader to another, a step at a time. -/
def Leads : Reader → Reader → Prop :=
  Relation.ReflTransGen fun reader reader' => reader.advance = some reader'

/-- What follows an expression within another, or nothing. -/
def Follows (rest : List Char) : Prop := ∀ c ∈ rest.head?, c ∈ ['(', '.', ',', ')']

/-- What follows an operand that is complete, or nothing. -/
def Closes (rest : List Char) : Prop := ∀ c ∈ rest.head?, c ∈ [',', ')']

theorem Closes.follows {rest : List Char} (h : Closes rest) : Follows rest := by
  intro c hc
  have := h c hc
  simp_all

theorem takeWhile_name {text : String} (h : IsName text) {rest : List Char} (hrest : Follows rest) :
    (text.toList ++ rest).takeWhile isNameChar = text.toList ∧
      (text.toList ++ rest).dropWhile isNameChar = rest := by
  rw [List.takeWhile_append_of_pos h.2, List.dropWhile_append_of_pos h.2]
  cases rest with
  | nil => simp
  | cons c rest =>
    have hmark : ∀ c ∈ ['(', '.', ',', ')'], isNameChar c = false := by simp [isNameChar]
    simp [hmark c (hrest c rfl)]

theorem advance_name {text : String} (h : IsName text) {rest : List Char} (hrest : Follows rest)
    (stack : List Frame) :
    advance ⟨none, text.toList ++ rest, stack⟩ = some ⟨some (.name text), rest, stack⟩ := by
  obtain ⟨hword, htail⟩ := takeWhile_name h hrest
  have hblank : rest.head? ≠ some ' ' := by
    intro hhead
    have := hrest ' ' hhead
    simp at this
  simp [advance, hword, htail, hblank, h.1]

theorem advance_access (e : Expr) {property : String} (h : IsName property) {rest : List Char}
    (hrest : Follows rest) (stack : List Frame) :
    advance ⟨some e, '.' :: (property.toList ++ rest), stack⟩ =
      some ⟨some (.access e property), rest, stack⟩ := by
  obtain ⟨hword, htail⟩ := takeWhile_name h hrest
  simp [advance, hword, htail]

theorem advance_keyword (rest : List Char) (stack : List Frame) :
    advance ⟨none, "await ".toList ++ rest, stack⟩ = some ⟨none, rest, .await :: stack⟩ := by
  simp [advance, isNameChar]

theorem advance_await (e : Expr) {rest : List Char} (h : Closes rest) (stack : List Frame) :
    advance ⟨some e, rest, .await :: stack⟩ = some ⟨some (.await e), rest, stack⟩ := by
  cases rest with
  | nil => rfl
  | cons c rest =>
    have hc := h c rfl
    simp only [List.mem_cons, List.not_mem_nil, or_false] at hc
    rcases hc with rfl | rfl
    · rfl
    · rfl

/-- A reader gets over an expression, whatever comes next. -/
def ReadsOver (e : Expr) : Prop :=
  ∀ rest stack, Follows rest → (e.isAwait = true → Closes rest) →
    Leads ⟨none, e.chars ++ rest, stack⟩ ⟨some e, rest, stack⟩

theorem reads_arguments (callee : Expr) {e : Expr} {es : List Expr}
    (h : ∀ a ∈ e :: es, ReadsOver a) (done : List Expr) (rest : List Char) (stack : List Frame) :
    Leads ⟨none, [',', ' '].intercalate ((e :: es).map chars) ++ ')' :: rest,
        .arguments callee done :: stack⟩
      ⟨some (.call callee (done ++ e :: es)), rest, stack⟩ := by
  induction es generalizing e done with
  | nil =>
    have hclose : Closes (')' :: rest) := by simp [Closes]
    rw [List.map_singleton, List.intercalate_singleton]
    exact (h e List.mem_cons_self _ _ hclose.follows fun _ => hclose).tail rfl
  | cons e' es ih =>
    rw [List.forall_mem_cons] at h
    have hrest := ih h.2 (done ++ [e])
    rw [List.append_assoc, List.singleton_append] at hrest
    have hclose (input : List Char) : Closes (',' :: ' ' :: input) := by simp [Closes]
    rw [List.map_cons, List.map_cons, List.intercalate_cons_cons, List.append_assoc,
      List.append_assoc]
    exact (h.1 _ _ (hclose _).follows fun _ => hclose _).trans (.head rfl hrest)

/-- **A plain expression is read back from its text.** -/
theorem readsOver_of_plain {e : Expr} (h : Plain e) (hn : Named e) : ReadsOver e := by
  induction h with
  | name text =>
    cases hn with
    | name hname => exact fun rest stack hrest _ => .single (advance_name hname hrest stack)
  | @call callee arguments hawait _ _ ihcallee iharguments =>
    cases hn with
    | call hcallee harguments =>
      intro rest stack _ _
      rw [chars_call, List.append_assoc, List.cons_append, List.append_assoc,
        List.singleton_append]
      refine (ihcallee hcallee _ stack (by simp [Follows]) (by simp [hawait])).trans (.head rfl ?_)
      cases arguments with
      | nil => exact .single rfl
      | cons e es =>
        exact reads_arguments callee (fun a ha => iharguments a ha (harguments a ha)) [] rest stack
  | @access object property hawait _ ih =>
    cases hn with
    | access hobject hname =>
      intro rest stack hrest _
      rw [chars_access, List.append_assoc]
      have hread := ih hobject ('.' :: property.toList ++ rest) stack (by simp [Follows])
        (by simp [hawait])
      exact hread.tail (advance_access object hname hrest stack)
  | @await operand _ ih =>
    cases hn with
    | await hoperand =>
      intro rest stack hrest hclose
      have hclose := hclose rfl
      rw [chars_await, List.append_assoc]
      have hread := ih hoperand rest (.await :: stack) hrest fun _ => hclose
      exact .head (advance_keyword _ stack) (hread.tail (advance_await operand hclose stack))

/-- **Plain expressions have different texts.** -/
theorem chars_injective {e e' : Expr} (h : Plain e) (h' : Plain e') (hn : Named e)
    (hn' : Named e') (heq : e.chars = e'.chars) : e = e' := by
  have hend : Closes [] := by simp [Closes]
  have hread := readsOver_of_plain h hn [] [] hend.follows fun _ => hend
  have hread' := readsOver_of_plain h' hn' [] [] hend.follows fun _ => hend
  rw [heq] at hread
  -- Both readers started alike, and neither can go on.
  have hdone (e : Expr) : advance ⟨some e, [], []⟩ = none := by simp [advance]
  have hto := resume_of_end hread hread' (hdone e')
  have hsame := (Relation.reflTransGen_iff_eq fun reader => by simp [hdone e]).mp hto
  simpa using hsame.symm

end Reader

/-! ### What nodes print -/

theorem Piece.render_mark (text : String) : render [mark text] = text := by
  simp [render, Piece.text]

/-- A list of layouts as it is printed. -/
theorem Piece.render_commaSeparated (items : List (List Piece)) :
    (render (commaSeparated items)).toList =
      [',', ' '].intercalate (items.map fun item => (render item).toList) := by
  cases items with
  | nil => rfl
  | cons first rest =>
    rw [commaSeparated, intercalate_cons, List.map_cons, intercalate_cons,
      render_append, String.toList_append]
    congr 1
    induction rest with
    | nil => rfl
    | cons next rest ih =>
      rw [List.flatMap_cons, List.map_cons, List.flatMap_cons, render_append, String.toList_append,
        ih, render_append, String.toList_append]
      rfl

namespace Store
variable {s s' : Store}

/-- At a node stands an expression. -/
inductive HoldsExpr (s : Store) : NodeId → Expr → Prop where
  | name {i : NodeId} {text : String} (h : s.payload? i = some (.identifier text)) :
      HoldsExpr s i (.name text)
  | call {i callee : NodeId} {arguments : List NodeId} {e : Expr} {below : NodeId → Expr}
      (h : s.payload? i = some (.call ⟨some callee, arguments.map some⟩))
      (hcallee : HoldsExpr s callee e) (harguments : ∀ j ∈ arguments, HoldsExpr s j (below j)) :
      HoldsExpr s i (.call e (arguments.map below))
  | access {i object property : NodeId} {e : Expr} {text : String}
      (h : s.payload? i = some (.access ⟨some object, some property⟩))
      (hobject : HoldsExpr s object e) (hproperty : HoldsExpr s property (.name text)) :
      HoldsExpr s i (.access e text)
  | await {i operand : NodeId} {delegates : Bool} {e : Expr}
      (hkind : s.kind? i = some (.suspension .await))
      (h : s.payload? i = some (.suspension ⟨some operand, delegates⟩))
      (hoperand : HoldsExpr s operand e) : HoldsExpr s i (.await e)

section
variable {i : NodeId}

theorem children_of_call {callee : NodeId} {arguments : List NodeId}
    (h : s.payload? i = some (.call ⟨some callee, arguments.map some⟩)) :
    s.children i = callee :: arguments := by
  simp [children, h, Payload.slots]

theorem children_of_access {object property : NodeId}
    (h : s.payload? i = some (.access ⟨some object, some property⟩)) :
    s.children i = [object, property] := by
  simp [children, h, Payload.slots]

theorem children_of_suspension {operand : NodeId} {delegates : Bool}
    (h : s.payload? i = some (.suspension ⟨some operand, delegates⟩)) :
    s.children i = [operand] := by
  simp [children, h, Payload.slots]

/-- Every way down from an expression ends. -/
theorem HoldsExpr.acc {e : Expr} (h : s.HoldsExpr i e) :
    Acc (fun c j => c ∈ s.children j) i := by
  induction h with
  | name h =>
    refine .intro _ fun c hc => ?_
    simp [children, h, Payload.slots] at hc
  | call h _ _ ihcallee iharguments =>
    refine .intro _ ?_
    rw [children_of_call h]
    exact List.forall_mem_cons.mpr ⟨ihcallee, iharguments⟩
  | access h _ _ ihobject ihproperty =>
    refine .intro _ ?_
    rw [children_of_access h]
    exact List.forall_mem_cons.mpr ⟨ihobject, List.forall_mem_singleton.mpr ihproperty⟩
  | await _ h _ ih =>
    refine .intro _ ?_
    rw [children_of_suspension h]
    exact List.forall_mem_singleton.mpr ih

/-- Where every way down ends, none leads back. -/
theorem acyclic_of_acc (h : Acc (fun c j => c ∈ s.children j) i) : s.Acyclic i := by
  intro j hreach
  have hj : Acc (fun c j => c ∈ s.children j) j := by
    induction hreach with
    | refl => exact h
    | tail _ hstep ih => exact ih.inv hstep
  clear hreach
  induction hj with
  | intro j _ ih =>
    intro hcycle
    obtain ⟨c, hc, hback⟩ := Relation.TransGen.head'_iff.mp hcycle
    exact ih c hc (.tail' hback hc)

/-- A node with a payload, laid out over its children. -/
theorem Bounded.exists_payload {depth : Nat} (hd : s.Bounded depth i) {payload : Payload Ref}
    (h : s.payload? i = some payload) :
    ∃ (below : Nat) (header : Header), s.kind? i = some header.kind ∧
      (∀ c ∈ s.children i, s.Bounded below c) ∧
      ∀ level, s.slotPieces depth level (some i) =
        Layout.payload (s.slotPieces below) level s.slotIsObject header payload := by
  obtain ⟨place, ha, _⟩ := payload?_eq_some_iff.mp h
  obtain ⟨header, hheader, hform, _⟩ := address?_eq_some_iff.mp ha
  have hkind : s.kind? i = some header.kind := by rw [kind?, hheader, Option.map_some]
  have hthis : header.kind ≠ .thisKeyword := by
    intro hthis
    rw [hthis] at hform
    cases hform
  cases depth with
  | zero => cases hkind.symm.trans hd
  | succ below =>
    refine ⟨below, header, hkind, hd, fun level => ?_⟩
    rw [slotPieces, Option.elim_some, piecesWithin_succ hheader, if_neg hthis, h, Option.elim_some]

/-- **A node is printed as the expression that stands there.** -/
theorem HoldsExpr.toList_render {e : Expr} (h : s.HoldsExpr i e) {depth : Nat}
    (hd : s.Bounded depth i) (level : Nat) :
    (Piece.render (s.slotPieces depth level (some i))).toList = e.chars := by
  induction h generalizing depth level with
  | name h =>
    obtain ⟨_, _, _, _, hpieces⟩ := hd.exists_payload h
    simp [hpieces, Layout.payload, Piece.render, Piece.text, Expr.chars_name]
  | @call i callee arguments e below h _ _ ihcallee iharguments =>
    obtain ⟨depth, _, _, hbelow, hpieces⟩ := hd.exists_payload h
    rw [children_of_call h, List.forall_mem_cons] at hbelow
    have harguments : (arguments.map some).map
          (fun slot => (Piece.render (s.slotPieces depth level slot)).toList) =
        (arguments.map below).map Expr.chars := by
      rw [List.map_map, List.map_map]
      exact List.map_congr_left fun j hj => iharguments j hj (hbelow.2 j hj) level
    simp only [hpieces, Layout.payload, Layout.list, Piece.render_append, Piece.render_mark,
      String.toList_append, ihcallee hbelow.1, Piece.render_commaSeparated, List.append_assoc]
    rw [List.map_map, Function.comp_def, harguments, Expr.chars_call]
    rfl
  | access h _ _ ihobject ihproperty =>
    obtain ⟨depth, _, _, hbelow, hpieces⟩ := hd.exists_payload h
    rw [children_of_access h, List.forall_mem_cons, List.forall_mem_singleton] at hbelow
    simp only [hpieces, Layout.payload, Piece.render_append, Piece.render_mark,
      String.toList_append, ihobject hbelow.1, ihproperty hbelow.2, Expr.chars_access,
      List.append_assoc]
    rfl
  | await hkind h _ ih =>
    obtain ⟨depth, header, hkind', hbelow, hpieces⟩ := hd.exists_payload h
    rw [children_of_suspension h, List.forall_mem_singleton] at hbelow
    have hawait := Option.some.inj (hkind'.symm.trans hkind)
    simp only [hpieces, Layout.payload, hawait, Layout.suspension, Piece.render_cons,
      String.toList_append, ih hbelow]
    rfl

theorem HoldsExpr.toList_print {e : Expr} (h : s.HoldsExpr i e) : (s.print i).toList = e.chars :=
  h.toList_render (acyclic_of_acc h.acc).bounded 0

end

/-- **Two expressions print alike exactly if they are the same once hoisted.** Where nothing that
is called or accessed is an `await`, hoisting does nothing, and they are the same. -/
theorem print_eq_iff_hoist {i i' : NodeId} {e e' : Expr} (h : s.HoldsExpr i e)
    (h' : s'.HoldsExpr i' e') (hn : e.Named) (hn' : e'.Named) :
    (s.print i = s'.print i' ↔ e.hoist = e'.hoist) ∧
    (e.hoist = e ↔ e.Plain) ∧
    (e.Plain → e'.Plain → s.print i = s'.print i' → e = e') := by
  have hprint : s.print i = s'.print i' ↔ e.hoist = e'.hoist := by
    rw [← String.toList_inj, h.toList_print, h'.toList_print, ← e.chars_hoist, ← e'.chars_hoist]
    refine ⟨fun heq => ?_, congrArg Expr.chars⟩
    exact Reader.chars_injective e.plain_hoist e'.plain_hoist hn.hoist hn'.hoist heq
  refine ⟨hprint, Expr.hoist_eq_self_iff, fun hplain hplain' heq => ?_⟩
  have hhoist := hprint.mp heq
  rwa [hplain.hoist_eq, hplain'.hoist_eq] at hhoist

/-- Node 3 stands for `(await f).a`, node 5 for `await (f.a)`, and node 6 for
`f.a(await (f.a), f)`. -/
def awaiting : Store :=
  ({} : Store)
    |>.push .identifier 0 .zero (.identifier "f")
    |>.push .identifier 0 .zero (.identifier "a")
    |>.push (.suspension .await) 0 .zero (.suspension ⟨some 0, false⟩)
    |>.push .access 0 .zero (.access ⟨some 2, some 1⟩)
    |>.push .access 0 .zero (.access ⟨some 0, some 1⟩)
    |>.push (.suspension .await) 0 .zero (.suspension ⟨some 4, false⟩)
    |>.push .call 0 .zero (.call ⟨some 4, [some 5, some 0]⟩)

section Awaiting
open Settle.Expr

/-- An access to what is awaited. -/
def accessed : Expr := .access (.await (.name "f")) "a"

/-- An access that is awaited. -/
def awaited : Expr := .await (.access (.name "f") "a")

/-- A call to which one is passed. -/
def passed : Expr := .call (.access (.name "f") "a") [awaited, .name "f"]

theorem holdsExpr_accessed : awaiting.HoldsExpr 3 accessed :=
  .access rfl (.await rfl rfl (.name rfl)) (.name rfl)

theorem holdsExpr_awaited : awaiting.HoldsExpr 5 awaited :=
  .await rfl rfl (.access rfl (.name rfl) (.name rfl))

theorem holdsExpr_passed : awaiting.HoldsExpr 6 passed := by
  refine @HoldsExpr.call _ _ 4 [5, 0] _ (fun j => if j = 5 then awaited else .name "f") rfl
    (.access rfl (.name rfl) (.name rfl)) ?_
  rw [List.forall_mem_cons, List.forall_mem_singleton]
  exact ⟨holdsExpr_awaited, .name rfl⟩

theorem print_eq_iff_hoist_awaiting :
    accessed.Named ∧ awaited.Named ∧ passed.Named ∧ awaited.Plain ∧ passed.Plain ∧
      awaiting.print 3 = awaiting.print 5 ∧ awaiting.print 5 ≠ awaiting.print 6 := by
  have hf : IsName "f" := by decide
  have ha : IsName "a" := by decide
  have haccessed : accessed.Named := .access (.await (.name hf)) ha
  have hawaited : awaited.Named := .await (.access (.name hf) ha)
  have hpassed : passed.Named := .call (.access (.name hf) ha) (by simp [hawaited, Named.name hf])
  have hplain : awaited.Plain := .await (.access "a" rfl (.name "f"))
  have hplain' : passed.Plain :=
    .call rfl (.access "a" rfl (.name "f")) (by simp [hplain, Plain.name])
  obtain ⟨hhoist, _, _⟩ :=
    print_eq_iff_hoist holdsExpr_accessed holdsExpr_awaited haccessed hawaited
  obtain ⟨_, _, hinjective⟩ :=
    print_eq_iff_hoist holdsExpr_awaited holdsExpr_passed hawaited hpassed
  refine ⟨haccessed, hawaited, hpassed, hplain, hplain', hhoist.mpr rfl, fun heq => ?_⟩
  cases hinjective hplain hplain' heq

/-- An access to what is awaited prints like an access that is awaited. -/
theorem print_merges_awaits :
    awaiting.HoldsExpr 3 accessed ∧ awaiting.HoldsExpr 5 awaited ∧ accessed.Named ∧
      awaited.Named ∧ awaiting.print 3 = awaiting.print 5 ∧ accessed ≠ awaited := by
  have hf : IsName "f" := by decide
  have ha : IsName "a" := by decide
  refine ⟨holdsExpr_accessed, holdsExpr_awaited, .access (.await (.name hf)) ha,
    .await (.access (.name hf) ha), by decide +kernel, ?_⟩
  intro heq
  cases heq

end Awaiting

end Store
end Settle
