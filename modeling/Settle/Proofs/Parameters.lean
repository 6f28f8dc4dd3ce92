import Settle.Print.Node
import Settle.Proofs.Wrapped

/-! What the names of parameters stand for.

A name stands for what the nearest place around it declares: a parameter of a function, a
variable that belongs to the body of one, or a variable of a block. A `var` may name a
parameter again; in the body of the same function that is the parameter itself, but a
function further in gets a variable of its own (`Bindings.below`).

Lowering puts a generator without parameters around the body of a function. What the body
declared by `var` then belongs to the generator, so a name for a parameter still stands for
it exactly if no `var` in that body has the same name (`settle_parameters`). -/
namespace Settle

/-! ### Declarations -/

namespace Mark

/-- The text of an identifier. -/
def text? (mark : Mark) : Option String :=
  match mark.kind, mark.detail with
  | .identifier, some (.identifier text) => some text
  | _, _ => none

/-- A variable statement written `let` or `const`. -/
def isBlockScoped (mark : Mark) : Bool :=
  mark.flags &&& (Layout.letFlag ||| Layout.constFlag) != 0

/-- Holds statements that may declare something for the block they are in. -/
abbrev IsScope (mark : Mark) : Prop := mark.kind = .block ∨ mark.kind = .sourceFile

end Mark

namespace Tree
variable {α : Type}

def text? : Tree α → Option String
  | .empty => none
  | .node _ mark _ => mark.text?

/-- The name that a declarator declares. -/
def declaredName? : Tree α → Option String
  | .empty => none
  | .node _ mark slots => if mark.kind = .declarator then slots.head?.bind text? else none

/-- The names that a variable statement declares, by `let` and `const` or else by `var`. -/
def declaredNames (blockScoped : Bool) : Tree α → List String
  | .empty => []
  | .node _ mark slots =>
    if mark.kind = .variableStatement ∧ mark.isBlockScoped = blockScoped then
      slots.filterMap declaredName?
    else []

mutual
/-- The names that are declared by `var`, outside the functions in a tree. -/
def hoisted : Tree α → List String
  | .empty => []
  | .node tag mark slots =>
    if mark.kind.isFunction then []
    else declaredNames false (.node tag mark slots) ++ hoistedAll slots
def hoistedAll : List (Tree α) → List String
  | [] => []
  | t :: rest => hoisted t ++ hoistedAll rest
end

theorem hoistedAll_eq (slots : List (Tree α)) : hoistedAll slots = slots.flatMap hoisted := by
  induction slots with
  | nil => rfl
  | cons t rest ih => rw [hoistedAll, ih, List.flatMap_cons]

/-- The names of a function's parameters, which stand between its name and its body. -/
def parameterNames (slots : List (Tree α)) : List String := slots.tail.dropLast.filterMap text?

/-- The names of the variables that belong to a function. -/
def bodyNames (slots : List (Tree α)) : List String := (slots.getLast?.map hoisted).getD []

theorem parameterNames_concat (init : List (Tree α)) (body : Tree α) :
    parameterNames (init ++ [body]) = init.tail.filterMap text? := by
  cases init with
  | nil => rfl
  | cons name parameters => simp [parameterNames]

theorem bodyNames_concat (init : List (Tree α)) (body : Tree α) :
    bodyNames (init ++ [body]) = body.hoisted := by
  simp [bodyNames]

end Tree

/-! ### Names and what they stand for -/

/-- What a name can stand for. -/
inductive Variable where
  | parameter (function : NodeId)
  /-- Declared by `var` in the body of a function. -/
  | var (function : NodeId)
  /-- Declared by `let` or `const` in a block. -/
  | blockScoped (block : NodeId)
  deriving DecidableEq, Repr

/-- What names stand for at a place. -/
abbrev Bindings := String → Option Variable

/-- At the top of a file no name stands for anything yet. -/
def Bindings.file : Bindings := fun _ => none

/-- What names stand for in the slots of a node. -/
def Bindings.below (bindings : Bindings) (tag : NodeId) (mark : Mark)
    (slots : List (Tree NodeId)) : Bindings := fun name =>
  if mark.kind.isFunction then
    if name ∈ Tree.parameterNames slots then some (.parameter tag)
    else if name ∈ Tree.bodyNames slots then some (.var tag)
    else bindings name
  else if mark.IsScope ∧ name ∈ slots.flatMap (Tree.declaredNames true) then
    some (.blockScoped tag)
  else bindings name

namespace Tree

mutual
/-- What names stand for at a node, and what the node says of itself. -/
def place? (i : NodeId) (bindings : Bindings) : Tree NodeId → Option (Bindings × Mark)
  | .empty => none
  | .node tag mark slots =>
    if tag = i then some (bindings, mark) else placeAll? i (bindings.below tag mark slots) slots
def placeAll? (i : NodeId) (bindings : Bindings) : List (Tree NodeId) → Option (Bindings × Mark)
  | [] => none
  | t :: rest => (place? i bindings t).or (placeAll? i bindings rest)
end

theorem placeAll?_eq (i : NodeId) (bindings : Bindings) (slots : List (Tree NodeId)) :
    placeAll? i bindings slots = slots.findSome? (place? i bindings) := by
  induction slots with
  | nil => rfl
  | cons t rest ih =>
    rw [placeAll?, ih, List.findSome?_cons]
    cases place? i bindings t <;> rfl

/-- What an identifier of a file stands for. -/
def denotes (file : Tree NodeId) (i : NodeId) : Option Variable :=
  (file.place? i .file).bind fun place => place.2.text?.bind place.1

end Tree

/-- In a tree that stands under some bindings, another one stands under others. -/
inductive Under : Bindings → Tree NodeId → Bindings → Tree NodeId → Prop where
  | top {bindings : Bindings} {t : Tree NodeId} : Under bindings t bindings t
  | down {bindings bindings' : Bindings} {tag : NodeId} {mark : Mark} {slots : List (Tree NodeId)}
      {k : Nat} {t u : Tree NodeId} (slot : slots[k]? = some t)
      (rest : Under (bindings.below tag mark slots) t bindings' u) :
      Under bindings (.node tag mark slots) bindings' u

section Under
variable {b b₁ b₂ : Bindings} {t u v : Tree NodeId} {i : NodeId} {mark : Mark}
  {slots : List (Tree NodeId)}

theorem Under.trans (h : Under b t b₁ u) (h' : Under b₁ u b₂ v) : Under b t b₂ v := by
  induction h with
  | top => exact h'
  | down slot _ ih => exact .down slot (ih h')

theorem Under.mem_tags (h : Under b t b₁ (.node i mark slots)) : i ∈ t.tags := by
  generalize hu : Tree.node i mark slots = u at h
  induction h with
  | top =>
    subst hu
    exact Tree.mem_tags_of_ref rfl
  | down slot _ ih => exact Tree.mem_tags_node (List.mem_of_getElem? slot) (ih hu)

theorem exists_under_of_place? (h : t.place? i b = some (b₁, mark)) :
    ∃ slots, Under b t b₁ (.node i mark slots) := by
  induction t generalizing b with
  | empty => cases h
  | node tag mark' slots' ih =>
    rw [Tree.place?] at h
    split at h
    · rename_i htag
      cases h
      exact ⟨slots', htag ▸ .top⟩
    · rw [Tree.placeAll?_eq] at h
      obtain ⟨t, ht, hplace⟩ := List.exists_of_findSome?_eq_some h
      obtain ⟨k, hk⟩ := List.mem_iff_getElem?.mp ht
      obtain ⟨slots, hunder⟩ := ih t ht hplace
      exact ⟨slots, .down hk hunder⟩

theorem place?_eq_none (h : i ∉ t.tags) : t.place? i b = none := by
  induction t generalizing b with
  | empty => rfl
  | node tag mark slots ih =>
    rw [Tree.tags_node, List.mem_cons, not_or] at h
    rw [Tree.place?, if_neg (fun htag => h.1 htag.symm), Tree.placeAll?_eq,
      List.findSome?_eq_none_iff]
    exact fun t ht => ih t ht fun hi => h.2 (List.mem_flatMap.mpr ⟨t, ht, hi⟩)

/-- Where tags differ pairwise, there is one place to look at. -/
theorem Under.place? (h : Under b t b₁ (.node i mark slots)) (hn : t.tags.Nodup) :
    t.place? i b = some (b₁, mark) := by
  generalize hu : Tree.node i mark slots = u at h
  induction h with
  | top =>
    subst hu
    rw [Tree.place?, if_pos rfl]
  | @down b b₁ tag mark' slots' k t u slot rest ih =>
    subst hu
    have hi := rest.mem_tags
    rw [Tree.tags_node, List.nodup_cons, List.nodup_flatMap] at hn
    obtain ⟨htag, hslots, hdisjoint⟩ := hn
    have hmem := List.mem_of_getElem? slot
    have hne : tag ≠ i := fun he => htag (he ▸ List.mem_flatMap.mpr ⟨t, hmem, hi⟩)
    rw [Tree.place?, if_neg hne, Tree.placeAll?_eq]
    generalize b.below tag mark' slots' = below at ih ⊢
    obtain ⟨before, after, rfl⟩ := List.append_of_mem hmem
    have hbefore : before.findSome? (Tree.place? i below) = none := by
      refine List.findSome?_eq_none_iff.mpr fun u hu => place?_eq_none fun hiu => ?_
      exact (List.pairwise_append.mp hdisjoint).2.2 u hu t List.mem_cons_self hiu hi
    rw [List.findSome?_append, hbefore, Option.none_or, List.findSome?_cons, ih (hslots t hmem) rfl]

end Under

/-! ### What becomes of declarations -/

/-- As far as declarations go, two marks say the same. -/
structure Mark.Alike (mark mark' : Mark) : Prop where
  text : mark'.text? = mark.text?
  function : mark'.kind.isFunction = mark.kind.isFunction
  declarator : mark'.kind = .declarator ↔ mark.kind = .declarator
  statement : mark'.kind = .variableStatement ↔ mark.kind = .variableStatement
  scope : mark'.IsScope ↔ mark.IsScope
  flags : mark'.flags = mark.flags

theorem Mark.Alike.refl (mark : Mark) : mark.Alike mark :=
  ⟨rfl, rfl, .rfl, .rfl, .rfl, rfl⟩

theorem Mark.alike_byYield (mark : Mark) : mark.Alike mark.byYield := by
  unfold Mark.byYield
  split
  · rename_i hkind
    refine ⟨?_, ?_, ?_, ?_, ?_, rfl⟩ <;>
      simp [hkind, Mark.text?, Kind.isFunction, Mark.IsScope]
  · split
    · rename_i hdetail
      refine ⟨?_, rfl, .rfl, .rfl, .rfl, rfl⟩
      simp [hdetail, Mark.text?]
    · exact .refl mark

theorem Mark.alike_plain (mark : Mark) : mark.Alike mark.plain := by
  unfold Mark.plain
  split
  · rename_i hdetail
    refine ⟨?_, rfl, .rfl, .rfl, .rfl, rfl⟩
    simp [hdetail, Mark.text?]
  · exact .refl mark

/-- As far as declarations go, two trees say the same. -/
structure Tree.SameNames (t t' : Tree NodeId) : Prop where
  text : t'.text? = t.text?
  declared : t'.declaredName? = t.declaredName?
  names : ∀ blockScoped, t'.declaredNames blockScoped = t.declaredNames blockScoped
  hoisted : t'.hoisted = t.hoisted

section SameNames
variable {i : NodeId} {mark mark' : Mark} {slots slots' : List (Tree NodeId)}

theorem sameNames_empty : Tree.SameNames .empty .empty :=
  ⟨rfl, rfl, fun _ => rfl, rfl⟩

/-- What is the same of trees with the same names is the same of lists of them. -/
theorem map_of_sameNames {α : Type} {g : Tree NodeId → α}
    (h : List.Forall₂ Tree.SameNames slots slots') (hg : ∀ t t', Tree.SameNames t t' → g t' = g t) :
    slots'.map g = slots.map g :=
  (map_eq_map_iff_forall₂.mpr (h.imp fun t t' ht => (hg t t' ht).symm)).symm

/-- A function declares nothing around it, whatever its slots are. -/
theorem sameNames_function (h : mark.Alike mark') (hfunction : mark.kind.isFunction = true)
    (slots slots' : List (Tree NodeId)) :
    Tree.SameNames (.node i mark slots) (.node i mark' slots') := by
  have hfunction' := h.function.trans hfunction
  have hdeclarator : mark.kind ≠ .declarator := fun hkind => by
    rw [hkind] at hfunction
    cases hfunction
  have hstatement : mark.kind ≠ .variableStatement := fun hkind => by
    rw [hkind] at hfunction
    cases hfunction
  refine ⟨h.text, ?_, fun blockScoped => ?_, ?_⟩
  · simp only [Tree.declaredName?, h.declarator, hdeclarator, if_false]
  · simp only [Tree.declaredNames, h.statement, hstatement, false_and, if_false]
  · rw [Tree.hoisted, Tree.hoisted, if_pos hfunction, if_pos hfunction']

theorem sameNames_node (h : mark.Alike mark') (hslots : List.Forall₂ Tree.SameNames slots slots') :
    Tree.SameNames (.node i mark slots) (.node i mark' slots') := by
  have hnames : ∀ blockScoped, Tree.declaredNames blockScoped (.node i mark' slots') =
      Tree.declaredNames blockScoped (.node i mark slots) := by
    intro blockScoped
    have hdeclared := map_of_sameNames hslots fun _ _ h => h.declared
    refine if_congr (and_congr h.statement ?_) ?_ rfl
    · rw [Mark.isBlockScoped, Mark.isBlockScoped, h.flags]
    · simpa only [List.filterMap_map, Function.id_comp] using
        congrArg (List.filterMap id) hdeclared
  refine ⟨h.text, ?_, hnames, ?_⟩
  · have hhead : slots'.head?.bind Tree.text? = slots.head?.bind Tree.text? := by
      cases hslots with
      | nil => rfl
      | cons hhead _ => exact hhead.text
    simp only [Tree.declaredName?, h.declarator, hhead]
  · rw [Tree.hoisted, Tree.hoisted, h.function, hnames, Tree.hoistedAll_eq, Tree.hoistedAll_eq,
      List.flatMap_def, List.flatMap_def, map_of_sameNames hslots fun _ _ h => h.hoisted]

theorem hoisted_asBlock (fresh : Nat → NodeId) (t : Tree NodeId) :
    (t.asBlock fresh).hoisted = t.hoisted := by
  cases t with
  | empty => rfl
  | node i mark slots =>
    rw [Tree.asBlock]
    split
    · rfl
    · exact (List.append_nil _).trans (List.append_nil _)

/-- What a generator declares is not declared around it. -/
theorem hoisted_trampoline (fresh : Nat → NodeId) (reference : NodeId) (localName : String)
    (body : Tree NodeId) (forwards : Bool) :
    (Tree.trampoline fresh (.identifier reference localName) body forwards).hoisted = [] := by
  cases forwards <;> rfl

end SameNames

/-! ### What nodes declare -/

/-- A node declares a name for what is in its slots. -/
def Declares (mark : Mark) (slots : List (Tree NodeId)) (name : String) : Prop :=
  if mark.kind.isFunction then name ∈ Tree.parameterNames slots ∨ name ∈ Tree.bodyNames slots
  else mark.IsScope ∧ name ∈ slots.flatMap (Tree.declaredNames true)

section Declares
variable {b : Bindings} {f tag : NodeId} {mark mark' : Mark} {slots slots' : List (Tree NodeId)}
  {x : String}

theorem below_of_not_declares (h : ¬ Declares mark slots x) : b.below tag mark slots x = b x := by
  unfold Declares at h
  unfold Bindings.below
  split at h
  · rename_i hfunction
    rw [not_or] at h
    rw [if_pos hfunction, if_neg h.1, if_neg h.2]
  · rename_i hfunction
    rw [if_neg hfunction, if_neg h]

/-- A parameter is declared by its function only. -/
theorem not_declares_of_below (h : b.below tag mark slots x = some (.parameter f))
    (hne : tag ≠ f) : ¬ Declares mark slots x := by
  intro hdeclares
  unfold Declares at hdeclares
  unfold Bindings.below at h
  split at hdeclares
  · rename_i hfunction
    rw [if_pos hfunction] at h
    split at h
    · cases h
      exact hne rfl
    · rename_i hparameter
      rw [if_pos (hdeclares.resolve_left hparameter)] at h
      cases h
  · rename_i hfunction
    rw [if_neg hfunction, if_pos hdeclares] at h
    cases h

theorem eq_of_below (h : b.below tag mark slots x = some (.parameter f)) (hne : tag ≠ f) :
    b x = some (.parameter f) := by
  rwa [below_of_not_declares (not_declares_of_below h hne)] at h

theorem below_of_mem_parameterNames (hfunction : mark.kind.isFunction = true)
    (hx : x ∈ Tree.parameterNames slots) : b.below tag mark slots x = some (.parameter tag) := by
  rw [Bindings.below, if_pos hfunction, if_pos hx]

theorem mem_parameterNames_of_below (hfunction : mark.kind.isFunction = true)
    (h : b.below tag mark slots x = some (.parameter f)) (hb : b x ≠ some (.parameter f)) :
    x ∈ Tree.parameterNames slots := by
  by_contra hx
  rw [Bindings.below, if_pos hfunction, if_neg hx] at h
  split at h
  · cases h
  · exact hb h

theorem parameterNames_congr {init init' : List (Tree NodeId)}
    (h : List.Forall₂ Tree.SameNames init init') (last last' : Tree NodeId) :
    Tree.parameterNames (init' ++ [last']) = Tree.parameterNames (init ++ [last]) := by
  rw [Tree.parameterNames_concat, Tree.parameterNames_concat]
  cases h with
  | nil => rfl
  | cons _ hrest =>
    have htexts := map_of_sameNames hrest fun _ _ h => h.text
    simpa only [List.filterMap_map, Function.id_comp, List.tail_cons] using
      congrArg (List.filterMap id) htexts

theorem declares_congr (h : mark.Alike mark') (hslots : List.Forall₂ Tree.SameNames slots slots') :
    Declares mark' slots' x ↔ Declares mark slots x := by
  have hnames : Tree.parameterNames slots' = Tree.parameterNames slots ∧
      Tree.bodyNames slots' = Tree.bodyNames slots := by
    rcases List.eq_nil_or_concat slots with rfl | ⟨init, body, rfl⟩
    · cases hslots
      exact ⟨rfl, rfl⟩
    · rw [List.concat_eq_append] at hslots ⊢
      obtain ⟨init', _, hinit, _ | ⟨hbody, _ | _⟩, rfl⟩ := forall₂_append_left hslots
      rw [Tree.bodyNames_concat, Tree.bodyNames_concat]
      exact ⟨parameterNames_congr hinit _ _, hbody.hoisted⟩
  unfold Declares
  rw [h.function, h.scope, List.flatMap_def, List.flatMap_def,
    map_of_sameNames hslots fun _ _ h => h.names true, hnames.1, hnames.2]

/-- Once its body is a generator's, a function declares its parameters only. -/
theorem declares_trampoline {init init' : List (Tree NodeId)} {body body' : Tree NodeId}
    {fresh : Nat → NodeId} {reference : NodeId} {localName : String} {forwards : Bool}
    (hfunction : mark.kind.isFunction = true) (hinit : List.Forall₂ Tree.SameNames init init') :
    Declares mark.plain (init' ++ [.trampoline fresh (.identifier reference localName) body'
        forwards]) x ↔ x ∈ Tree.parameterNames (init ++ [body]) := by
  unfold Declares
  rw [mark.kind_plain, if_pos hfunction, parameterNames_congr hinit body, Tree.bodyNames_concat,
    hoisted_trampoline]
  simp

end Declares

/-! ### New nodes -/

section Under
variable {b : Bindings} {fresh : Nat → NodeId} {t body : Tree NodeId}

/-- A body that becomes a block stands under the same bindings. -/
theorem under_asBlock (hne : t ≠ .empty) : Under b (t.asBlock fresh) b t := by
  cases t with
  | empty => cases hne rfl
  | node i mark slots =>
    rw [Tree.asBlock]
    split
    · exact .top
    · exact .down (k := 0) rfl (.down (k := 0) rfl .top)

/-- The body of a new generator is under what is around it and the variables it declares. -/
theorem under_trampoline (b : Bindings) (fresh : Nat → NodeId) (reference : NodeId)
    (localName : String) (body : Tree NodeId) (forwards : Bool) :
    Under b (.trampoline fresh (.identifier reference localName) body forwards)
      (fun name => if name ∈ body.hoisted then some (.var (fresh 0)) else b name) body := by
  -- the block, what it returns, the call, and the access whose object is the helper's call
  refine .down (k := 0) rfl (.down (k := 0) rfl (.down (k := 0) rfl (.down (k := 0) rfl ?_)))
  refine .down (k := 1) rfl ?_
  refine .down (k := 1) rfl ?_
  exact .top

end Under

/-! ### Names for a parameter -/

/-- Where a name for a parameter leads once the function is lowered: still to the parameter, but to
a variable of a new generator if the body declares the name again. -/
def Redirected (base : Nat) (f : NodeId) (declaredAgain : Prop) (v : Option Variable) : Prop :=
  (¬ declaredAgain → v = some (.parameter f)) ∧ (declaredAgain → ∃ g, base ≤ g ∧ v = some (.var g))

/-- A node at which a name stands for a parameter is in another tree too, and has what becomes of
the name there. -/
def Traced (f i : NodeId) (x : String) (outcome : Option Variable → Prop) (b b' : Bindings)
    (t t' : Tree NodeId) : Prop :=
  ∀ b₁ mark slots, Under b t b₁ (.node i mark slots) → mark.text? = some x →
    b₁ x = some (.parameter f) → ∃ b₁' mark' slots', Under b' t' b₁' (.node i mark' slots') ∧
      mark'.text? = some x ∧ outcome (b₁' x)

section Traced
variable {f i tag : NodeId} {x : String} {outcome : Option Variable → Prop} {b b' b₁' : Bindings}
  {t t' u : Tree NodeId} {mark mark' : Mark} {slots slots' : List (Tree NodeId)}

theorem traced_empty : Traced f i x outcome b b' .empty t' := by
  intro b₁ mark slots hunder
  cases hunder

theorem Traced.within (h : Traced f i x outcome b b₁' t u) (hu : Under b' t' b₁' u) :
    Traced f i x outcome b b' t t' := by
  intro b₁ mark slots hunder htext hx
  obtain ⟨b₂, mark', slots', hunder', h⟩ := h b₁ mark slots hunder htext hx
  exact ⟨b₂, mark', slots', hu.trans hunder', h⟩

theorem Traced.asBlock {fresh : Nat → NodeId} (h : Traced f i x outcome b b' t t') :
    Traced f i x outcome b b' t (t'.asBlock fresh) := by
  cases t' with
  | empty =>
    intro b₁ mark slots hunder htext hx
    obtain ⟨_, _, _, hnone, _⟩ := h b₁ mark slots hunder htext hx
    cases hnone
  | node => exact h.within (under_asBlock nofun)

theorem Traced.node (hmark : mark.Alike mark') (htop : b x = some (.parameter f) → outcome (b' x))
    (hslots : ∀ u ∈ slots, ∃ u' ∈ slots',
      Traced f i x outcome (b.below tag mark slots) (b'.below tag mark' slots') u u') :
    Traced f i x outcome b b' (.node tag mark slots) (.node tag mark' slots') := by
  intro b₁ mark₁ slots₁ hunder htext hx
  cases hunder with
  | top => exact ⟨b', mark', slots', .top, hmark.text.trans htext, htop hx⟩
  | down slot rest =>
    obtain ⟨u', hu', htraced⟩ := hslots _ (List.mem_of_getElem? slot)
    obtain ⟨k, hk⟩ := List.mem_iff_getElem?.mp hu'
    exact htraced.within (.down hk .top) b₁ mark₁ slots₁ rest htext hx

theorem traced_of_not_mem (h : i ∉ t.tags) : Traced f i x outcome b b' t t' :=
  fun _ _ _ hunder => absurd hunder.mem_tags h

end Traced

/-! ### The walk -/

/-- A node in the body of a function that is to be lowered. -/
structure Store.InBody (s : Store) (f i : NodeId) (body : Tree NodeId) : Prop where
  eligible : s.isEligible f = true
  stands : ∃ parts, s.payload? f = some (.function parts) ∧ s.tree? s.size parts.body = some body
  inside : i ∈ body.tags

theorem exists_functionKind_of_form {kind : Kind} (h : kind.form? = some .function) :
    ∃ of, kind = .function of := by
  cases kind with
  | function of => exact ⟨of, rfl⟩
  | _ => cases h

/-- In a held tree, the last slot of the function is that body. -/
theorem Store.InBody.function {s : Store} {f i : NodeId} {body : Tree NodeId} {mark : Mark}
    {slots : List (Tree NodeId)} (h : s.InBody f i body) (hs : s.Sound)
    (held : s.Holds (.node f mark slots)) (hn : (Tree.node f mark slots).tags.Nodup) :
    mark.isAsyncFunction = true ∧ ∃ init, slots = init ++ [body] := by
  obtain ⟨parts, hpayload, hbody⟩ := h.stands
  obtain ⟨node, there, rfl, names, below⟩ := holds_node_iff.mp held
  rw [payload?_of_node? there] at hpayload
  obtain ⟨of, hkind⟩ := exists_functionKind_of_form (form_of_node? there hpayload)
  refine ⟨(isEligible_of_holds hs held hkind).symm.trans h.eligible, ?_⟩
  obtain ⟨parts', init, body', hpayload', rfl, _, href⟩ := hs.function_slots there hkind names
  rw [hpayload] at hpayload'
  cases hpayload'
  rw [Tree.tags_node, List.nodup_cons, List.nodup_flatMap] at hn
  have hlast : body' ∈ init ++ [body'] := List.mem_append_right _ List.mem_cons_self
  rw [← href, (below body' hlast).tree?_size (hn.2.1 body' hlast)] at hbody
  exact ⟨init, by rw [Option.some.inj hbody]⟩

/-- What becomes of a tree declares the same around it, and a node in it is traced from whatever
bindings to whatever bindings that agree on the name. -/
structure Followed (s : Store) (f i : NodeId) (x : String) (outcome : Option Variable → Prop)
    (t t' : Tree NodeId) : Prop where
  names : t.SameNames t'
  traced : s.Holds t → t.tags.Nodup → ∀ b b' : Bindings,
    (b x = some (.parameter f) → outcome (b' x)) → (f ∈ t.tags → b x ≠ some (.parameter f)) →
      Traced f i x outcome b b' t t'

section Followed
variable {s : Store} {f i tag : NodeId} {x : String} {outcome : Option Variable → Prop}
  {b b' b₁' : Bindings} {t t' u u' body : Tree NodeId} {mark mark' : Mark}
  {slots slots' : List (Tree NodeId)}

/-- Below another node than the function, a name that still stands for the parameter is not
declared by that node. -/
theorem Followed.slot (h : Followed s f i x outcome u u') (hu : u ∈ slots) (hne : tag ≠ f)
    (held : s.Holds (.node tag mark slots)) (hn : (Tree.node tag mark slots).tags.Nodup)
    (htop : b x = some (.parameter f) → outcome (b' x))
    (hout : f ∈ (Tree.node tag mark slots).tags → b x ≠ some (.parameter f))
    (hb : ¬ Declares mark slots x → b₁' x = b' x) :
    Traced f i x outcome (b.below tag mark slots) b₁' u u' := by
  obtain ⟨_, _, _, _, below⟩ := Store.holds_node_iff.mp held
  rw [Tree.tags_node, List.nodup_cons, List.nodup_flatMap] at hn
  refine h.traced (below u hu) (hn.2.1 u hu) _ _ (fun hx => ?_) (fun hf hx => ?_)
  · rw [hb (not_declares_of_below hx hne)]
    exact htop (eq_of_below hx hne)
  · exact hout (Tree.mem_tags_node hu hf) (eq_of_below hx hne)

theorem Followed.keep (h : mark.Alike mark') (hs : s.Sound) (hf : s.InBody f i body)
    (hmark : mark.isAsyncFunction = false)
    (hslots : List.Forall₂ (Followed s f i x outcome) slots slots') :
    Followed s f i x outcome (.node tag mark slots) (.node tag mark' slots') where
  names := sameNames_node h (hslots.imp fun _ _ => Followed.names)
  traced := by
    intro held hn b b' htop hout
    have hne : tag ≠ f := by
      rintro rfl
      rw [(hf.function hs held hn).1] at hmark
      cases hmark
    refine .node h htop fun u hu => ?_
    obtain ⟨u', hu', hfollowed⟩ := exists_mem_of_forall₂ hslots hu
    refine ⟨u', hu', hfollowed.slot hu hne held hn htop hout fun hdeclares => ?_⟩
    exact below_of_not_declares
      ((declares_congr h (hslots.imp fun _ _ => Followed.names)).not.mpr hdeclares)

section Lower
variable {base : Nat} {localName : String} {reference : NodeId} {forBlock fresh : Nat → NodeId}
  {forwards : Bool} {init init' : List (Tree NodeId)} {last last' : Tree NodeId}

/-- In another function than the one in question, a name that still stands for the parameter is
looked up past both that function and its generator. -/
theorem traced_lower_other (hne : tag ≠ f) (held : s.Holds (.node tag mark (init ++ [last])))
    (hn : (Tree.node tag mark (init ++ [last])).tags.Nodup) (hmark : mark.isAsyncFunction = true)
    (htop : b x = some (.parameter f) → outcome (b' x))
    (hout : f ∈ (Tree.node tag mark (init ++ [last])).tags → b x ≠ some (.parameter f))
    (hinit : List.Forall₂ (Followed s f i x outcome) init init')
    (hlast : Followed s f i x outcome last last') :
    Traced f i x outcome b b' (.node tag mark (init ++ [last])) (.node tag mark.plain
      (init' ++ [.trampoline fresh (.identifier reference localName) (last'.asBlock forBlock)
        forwards])) := by
  have hfunction := Mark.isFunction_of_isAsyncFunction hmark
  have hundeclared : ¬ Declares mark (init ++ [last]) x →
      x ∉ Tree.parameterNames (init ++ [last]) ∧ x ∉ last.hoisted := fun h => by
    rwa [Declares, if_pos hfunction, Tree.bodyNames_concat, not_or] at h
  have hbelow : ¬ Declares mark (init ++ [last]) x → b'.below tag mark.plain (init' ++
      [.trampoline fresh (.identifier reference localName) (last'.asBlock forBlock) forwards]) x =
        b' x := fun h => below_of_not_declares ((declares_trampoline hfunction
          (hinit.imp fun _ _ => Followed.names)).not.mpr (hundeclared h).1)
  refine .node mark.alike_plain htop fun u hu => ?_
  rcases List.mem_append.mp hu with huinit | hulast
  · obtain ⟨u', hu', hfollowed⟩ := exists_mem_of_forall₂ hinit huinit
    exact ⟨u', List.mem_append_left _ hu', hfollowed.slot hu hne held hn htop hout hbelow⟩
  · obtain rfl := List.mem_singleton.mp hulast
    refine ⟨_, List.mem_append_right _ List.mem_cons_self,
      (hlast.slot hu hne held hn htop hout fun h => ?_).asBlock.within (under_trampoline ..)⟩
    rw [hoisted_asBlock, hlast.names.hoisted, if_neg (hundeclared h).2, hbelow h]

/-- In the function itself, its parameters are looked up past the variables that now belong to the
generator. -/
theorem traced_lower_self (held : s.Holds (.node f mark (init ++ [body])))
    (hn : (Tree.node f mark (init ++ [body])).tags.Nodup) (hmark : mark.isAsyncFunction = true)
    (hi : i ∈ body.tags) (hnew : base ≤ fresh 0)
    (hout : b x ≠ some (.parameter f))
    (hinit : List.Forall₂ (Followed s f i x (Redirected base f (x ∈ body.hoisted))) init init')
    (hlast : Followed s f i x (Redirected base f (x ∈ body.hoisted)) body last') :
    Traced f i x (Redirected base f (x ∈ body.hoisted)) b b' (.node f mark (init ++ [body]))
      (.node f mark.plain (init' ++ [.trampoline fresh (.identifier reference localName)
        (last'.asBlock forBlock) forwards])) := by
  have hfunction := Mark.isFunction_of_isAsyncFunction hmark
  obtain ⟨_, _, _, _, below⟩ := Store.holds_node_iff.mp held
  rw [Tree.tags_node, List.nodup_cons, List.flatMap_append, List.flatMap_singleton,
    List.nodup_append'] at hn
  obtain ⟨hfresh, _, hbody, hdisjoint⟩ := hn
  refine .node mark.alike_plain (fun hx => absurd hx hout) fun u hu => ?_
  rcases List.mem_append.mp hu with huinit | hulast
  · obtain ⟨u', hu', _⟩ := exists_mem_of_forall₂ hinit huinit
    refine ⟨u', List.mem_append_left _ hu', traced_of_not_mem fun hiu => ?_⟩
    exact hdisjoint (List.mem_flatMap.mpr ⟨u, huinit, hiu⟩) hi
  · obtain rfl := List.mem_singleton.mp hulast
    have htraced := hlast.traced (below u hu) hbody (b.below f mark (init ++ [u]))
      (fun name => if name ∈ (last'.asBlock forBlock).hoisted then some (.var (fresh 0))
        else b'.below f mark.plain (init' ++ [.trampoline fresh (.identifier reference localName)
          (last'.asBlock forBlock) forwards]) name) (fun hx => ?_)
      (fun hf => absurd (List.mem_append_right _ hf) hfresh)
    · exact ⟨_, List.mem_append_right _ List.mem_cons_self,
        htraced.asBlock.within (under_trampoline ..)⟩
    · have hparameter := mem_parameterNames_of_below hfunction hx hout
      rw [← parameterNames_congr (hinit.imp fun _ _ => Followed.names)] at hparameter
      rw [hoisted_asBlock, hlast.names.hoisted, below_of_mem_parameterNames
        (mark.kind_plain ▸ hfunction) hparameter]
      exact ⟨fun hx => if_neg hx, fun hx => ⟨fresh 0, hnew, if_pos hx⟩⟩

end Lower

/-- **What becomes of a tree keeps what its names for a parameter stand for**, but for those that
are declared again in the body of their function. -/
theorem Wrapped.followed {base depth : Nat} {localName : String} {own : Bool} (hs : s.Sound)
    (hf : s.InBody f i body) (h : Wrapped base localName own depth t t') :
    Followed s f i x (Redirected base f (x ∈ body.hoisted)) t t' := by
  refine h.induct (motive := fun _ => Followed s f i x (Redirected base f (x ∈ body.hoisted)))
    (fun _ => ⟨sameNames_empty, fun _ _ _ _ _ _ => traced_empty⟩)
    (fun own tag mark slots slots' hmark hslots => ?_) (fun own tag mark hmark => ?_)
    (fun own tag mark init last init' last' reference forBlock fresh hmark _ _ hnew hinit hlast =>
      ?_)
  · refine .keep ?_ hs hf hmark hslots
    split
    · exact mark.alike_byYield
    · exact .refl mark
  · exact ⟨sameNames_function mark.alike_plain (Mark.isFunction_of_isAsyncFunction hmark) _ _,
      fun _ _ _ _ htop _ => .node mark.alike_plain htop nofun⟩
  · refine ⟨sameNames_function mark.alike_plain (Mark.isFunction_of_isAsyncFunction hmark) _ _,
      fun held hn b b' htop hout => ?_⟩
    by_cases hne : tag = f
    · subst hne
      obtain ⟨_, init₀, hslots⟩ := hf.function hs held hn
      obtain ⟨rfl, hlast'⟩ := List.append_inj' hslots rfl
      cases hlast'
      exact traced_lower_self held hn hmark hf.inside (hnew 0) (hout (by simp)) hinit hlast
    · exact traced_lower_other hne held hn hmark htop hout hinit hlast

end Followed

/-! ### Programs -/

theorem Store.Holds.text? {s : Store} {i : NodeId} {mark : Mark} {slots : List (Tree NodeId)}
    (h : s.Holds (.node i mark slots)) {x : String} (hx : mark.text? = some x) :
    s.text? i = some x := by
  obtain ⟨node, there, rfl, _, _⟩ := holds_node_iff.mp h
  rw [Store.text?, payload?_of_node? there]
  unfold Mark.text? at hx
  split at hx
  · rename_i text _ hdetail
    obtain ⟨payload, hpayload, hform⟩ := Option.map_eq_some_iff.mp hdetail
    rw [hpayload]
    cases payload <;> cases hform
    exact hx
  · cases hx

theorem Under.holds {s : Store} {b b₁ : Bindings} {t u : Tree NodeId} (h : Under b t b₁ u)
    (held : s.Holds t) : s.Holds u := by
  induction h with
  | top => exact held
  | down slot _ ih =>
    obtain ⟨_, _, _, _, below⟩ := Store.holds_node_iff.mp held
    exact ih (below _ (List.mem_of_getElem? slot))

theorem exists_under_of_denotes {t : Tree NodeId} {i : NodeId} {v : Variable}
    (h : t.denotes i = some v) : ∃ b mark slots x, Under .file t b (.node i mark slots) ∧
      mark.text? = some x ∧ b x = some v := by
  obtain ⟨⟨b, mark⟩, hplace, hv⟩ := Option.bind_eq_some_iff.mp h
  obtain ⟨x, hx, hv⟩ := Option.bind_eq_some_iff.mp hv
  obtain ⟨slots, hunder⟩ := exists_under_of_place? hplace
  exact ⟨b, mark, slots, x, hunder, hx, hv⟩

theorem Under.denotes {t : Tree NodeId} {b : Bindings} {i : NodeId} {mark : Mark}
    {slots : List (Tree NodeId)} {x : String} (h : Under .file t b (.node i mark slots))
    (hn : t.tags.Nodup) (hx : mark.text? = some x) : t.denotes i = b x := by
  rw [Tree.denotes, h.place? hn, Option.bind_some, hx, Option.bind_some]

/-- No name stands for a parameter yet in the statements of a file, so each of them can be followed
by itself. -/
theorem Program.Grounded.traced {p : Program} {mark : Mark}
    {statements statements' final : List (Tree NodeId)} (h : p.Grounded mark statements)
    {f i : NodeId} {body : Tree NodeId} (hbody : p.store.InBody f i body) {base depth : Nat}
    {localName : String} (hwrapped : List.Forall₂ (Wrapped base localName false depth) statements
      statements') (hfinal : statements' ⊆ final) (x : String) :
    Traced f i x (Redirected base f (x ∈ body.hoisted)) .file .file
      (.node p.root mark statements) (.node p.root mark final) := by
  have hroot : p.root ≠ f := by
    rintro rfl
    have hfunction := Mark.isFunction_of_isAsyncFunction (hbody.function h.sound h.held h.nodup).1
    rw [h.kind] at hfunction
    cases hfunction
  have hnone : Bindings.below .file p.root mark statements x ≠ some (.parameter f) := by
    intro hx
    cases eq_of_below hx hroot
  obtain ⟨_, _, _, _, below⟩ := Store.holds_node_iff.mp h.held
  have hnodup := h.nodup
  rw [Tree.tags_node, List.nodup_cons, List.nodup_flatMap] at hnodup
  refine .node (.refl mark) nofun fun u hu => ?_
  obtain ⟨u', hu', hbecomes⟩ := exists_mem_of_forall₂ hwrapped hu
  exact ⟨u', hfinal hu', (hbecomes.followed h.sound hbody).traced (below u hu) (hnodup.2.1 u hu) _ _
    (fun hx => absurd hx hnone) (fun _ => hnone)⟩

/-- **When whole functions are lowered, a name for a parameter stands for it exactly if the body of
the function does not declare the name again.** Otherwise it stands for a variable of a generator
that was made by the pass. -/
theorem settle_parameters {store : Store} {root : NodeId} {p p' : Program} {options : Options}
    {method source : String} {wrapper : Ref} (hshape : store.TreeShaped root)
    (hp : Program.ofStore store root = .ok p)
    (hstrategy : options.strategy = .wholeFunction method source)
    (hok : ProgramM.settle options p = .ok wrapper p') :
    ∃ t t', p.tree? = some t ∧ p'.tree? = some t' ∧ t'.tags.Nodup ∧
      ∀ (f i : NodeId) (x : String) (body : Tree NodeId), p.store.InBody f i body →
        p.store.text? i = some x → t.denotes i = some (.parameter f) →
          (t'.denotes i = some (.parameter f) ↔ x ∉ body.hoisted) ∧
          (x ∈ body.hoisted → ∃ g, p.store.size ≤ g ∧ t'.denotes i = some (.var g)) := by
  obtain ⟨mark, statements, h, _, htree⟩ := grounded_of_ofStore hshape hp
  obtain ⟨w, statements', rfl, _, hw, hgrown, hwalked⟩ := settle_whole h hstrategy hok
  obtain ⟨_, hnodup⟩ := hw.held h hgrown
  refine ⟨_, _, htree, hw.tree h hgrown, hnodup, fun f i x body hbody hx hdenotes => ?_⟩
  obtain ⟨b, mark₁, slots₁, x', hunder, htext, hb⟩ := exists_under_of_denotes hdenotes
  obtain rfl : x' = x := Option.some.inj (((hunder.holds h.held).text? htext).symm.trans hx)
  have hwrapped : List.Forall₂
      (Wrapped p.store.size (p.names.fresh method).1 false (depthLimit - 1))
      statements statements' := hwalked
  obtain ⟨b', mark', slots', hunder', htext', hkept, hmoved⟩ := h.traced hbody hwrapped
    (fun _ ht => mem_finalStatements.mpr (.inr ht)) x' b mark₁ slots₁ hunder htext hb
  rw [hunder'.denotes hnodup htext']
  refine ⟨⟨fun hparameter hagain => ?_, hkept⟩, hmoved⟩
  obtain ⟨g, _, hg⟩ := hmoved hagain
  rw [hg] at hparameter
  cases hparameter

/-- `async function f(x, y) { var x; return x(y); }`, whose file is node 12. -/
def Store.redeclared : Store :=
  ({} : Store)
    |>.push .identifier 0 .zero (.identifier "f")
    |>.push .identifier 0 .zero (.identifier "x")
    |>.push .identifier 0 .zero (.identifier "y")
    |>.push .identifier 0 .zero (.identifier "x")
    |>.push .declarator 0 .zero (.declarator ⟨some 3, none⟩)
    |>.push .variableStatement 0 .zero (.variableStatement [some 4])
    |>.push .identifier 0 .zero (.identifier "x")
    |>.push .identifier 0 .zero (.identifier "y")
    |>.push .call 0 .zero (.call ⟨some 6, [some 7]⟩)
    |>.push .returnStatement 0 .zero (.returnStatement (some 8))
    |>.push .block 0 .zero (.block [some 5, some 9])
    |>.push (.function .declaration) 0 .zero
      (.function ⟨some 0, [some 1, some 2], some 10, true, false⟩)
    |>.push .sourceFile 0 .zero (.sourceFile ⟨"f.js", [some 11]⟩)

theorem Store.treeShaped_redeclared : redeclared.TreeShaped 12 :=
  treeShaped_iff.mpr ⟨sound_empty.push 0 .zero rfl |>.push 0 .zero rfl |>.push 0 .zero rfl
    |>.push 0 .zero rfl |>.push 0 .zero rfl |>.push 0 .zero rfl |>.push 0 .zero rfl
    |>.push 0 .zero rfl |>.push 0 .zero rfl |>.push 0 .zero rfl |>.push 0 .zero rfl
    |>.push 0 .zero rfl |>.push 0 .zero rfl, _, rfl, by decide⟩

theorem Store.inBody_redeclared {i : NodeId} {body : Tree NodeId}
    (hbody : redeclared.tree? 13 (some 10) = some body) (hi : i ∈ body.tags) :
    redeclared.InBody 11 i body :=
  ⟨rfl, ⟨_, rfl, hbody⟩, hi⟩

theorem settle_parameters_redeclared :
    ∃ p wrapper p' t t', Program.ofStore .redeclared 12 = .ok p ∧
      ProgramM.settle ⟨some "wrap", some "runtime"⟩ p = .ok wrapper p' ∧ p.tree? = some t ∧
      p'.tree? = some t' ∧ t.denotes 7 = some (.parameter 11) ∧
      t'.denotes 7 = some (.parameter 11) ∧ t.denotes 6 = some (.parameter 11) ∧
      ∃ g, 13 ≤ g ∧ t'.denotes 6 = some (.var g) := by
  obtain ⟨p, hp⟩ : ∃ p, Program.ofStore .redeclared 12 = .ok p := ⟨_, rfl⟩
  obtain ⟨wrapper, p', hok⟩ : ∃ wrapper p',
      ProgramM.settle ⟨some "wrap", some "runtime"⟩ p = .ok wrapper p' := by
    cases hp
    exact exists_of_isOk (by decide +kernel)
  obtain ⟨t, t', ht, ht', _, hnames⟩ := settle_parameters Store.treeShaped_redeclared hp rfl hok
  cases hp
  cases ht
  refine ⟨_, wrapper, p', _, t', rfl, hok, rfl, ht', rfl, ?_, rfl, ?_⟩
  · exact (hnames 11 7 "y" _ (Store.inBody_redeclared rfl (by decide)) rfl rfl).1.mpr (by decide)
  · exact (hnames 11 6 "x" _ (Store.inBody_redeclared rfl (by decide)) rfl rfl).2 (by decide)

/-- The `x` that `f` calls was its parameter. Once `f` is lowered, it is a variable that nothing was
assigned to. -/
theorem settle_loses_redeclared_parameter :
    Store.redeclared.TreeShaped 12 ∧ ∃ p wrapper p' t t' body,
      Program.ofStore .redeclared 12 = .ok p ∧
      ProgramM.settle ⟨some "wrap", some "runtime"⟩ p = .ok wrapper p' ∧ p.tree? = some t ∧
      p'.tree? = some t' ∧ p.store.InBody 11 6 body ∧ t.denotes 6 = some (.parameter 11) ∧
      t'.denotes 6 ≠ some (.parameter 11) := by
  obtain ⟨p, hp⟩ : ∃ p, Program.ofStore .redeclared 12 = .ok p := ⟨_, rfl⟩
  obtain ⟨wrapper, p', hok, hlost⟩ : ∃ wrapper p',
      ProgramM.settle ⟨some "wrap", some "runtime"⟩ p = .ok wrapper p' ∧
        (p'.tree?.any fun t' => t'.denotes 6 ≠ some (.parameter 11)) = true := by
    cases hp
    exact exists_of_leaves (by decide +kernel)
  obtain ⟨t', ht', hlost⟩ := (Option.any_eq_true _ _).mp hlost
  cases hp
  exact ⟨Store.treeShaped_redeclared, _, wrapper, p', _, t', _, rfl, hok, rfl, ht',
    Store.inBody_redeclared rfl (by decide), rfl, of_decide_eq_true hlost⟩

end Settle
