import Settle.Proofs.Depth

/-! Scans find what they are meant to find.

A scan takes a reference off a stack, looks at the node, and puts the children on the
stack in its place, until the stack is empty. It marks nothing, so it ends only where
no way leads from a node back to it; there it ends whatever else is the case: nodes may
have several parents, references may name nothing, and a kind need not fit the payload.

The two that collect suspension points (`Collects`) end with what a recursion over the
children lists (`Lists`), in the same order and as often (`scans_eq_recursion`). The one
that looks for `arguments` (`Searches`) stops early, and takes the last child first; it
answers whether there is a way to an `arguments` that stands for the variable
(`mentionsArguments_iff`).

Both are proved by the depth. Where no way leads back, a chain of nodes is no longer than
the store is large (`Acyclic.bounded`), so nothing is cut off that a scan should see. -/
namespace Settle.Store

variable {s : Store} {depth : Nat} {start i j : Nat} {select : NodeId → Bool}

/-! ### Suspension points -/

def isAwait (s : Store) (i : NodeId) : Bool := s.kind? i == some (.suspension .await)

def isAsyncTry (s : Store) (i : NodeId) : Bool := (s.node? i).any Node.isAsyncTry

/-- What a scan from `start` does not look at: a reference that names nothing, and a function other
than the one it started at. -/
def passesOver (s : Store) (start i : NodeId) : Bool :=
  (s.kind? i).all fun kind => i != start && kind.isFunction

/-- What is to be listed from a node on: the node, if it is selected, and what is to be listed from
its children on, one after the other. -/
inductive Lists (s : Store) (start : NodeId) (select : NodeId → Bool) :
    NodeId → List NodeId → Prop where
  | passed {i : NodeId} (h : s.passesOver start i = true) : Lists s start select i []
  | node {i : NodeId} {below : NodeId → List NodeId} (h : s.passesOver start i = false)
      (children : ∀ j ∈ s.children i, Lists s start select j (below j)) :
      Lists s start select i ([i].filter select ++ (s.children i).flatMap below)

/-- The loop of a scan that collects, from a stack and what was found so far to what it ends with. -/
inductive Collects (s : Store) (start : NodeId) (select : NodeId → Bool) :
    (stack found result : List NodeId) → Prop where
  | done {found : List NodeId} : Collects s start select [] found found
  | passed {i : NodeId} {rest found result : List NodeId} (h : s.passesOver start i = true)
      (next : Collects s start select rest found result) :
      Collects s start select (i :: rest) found result
  | node {i : NodeId} {rest found result : List NodeId} (h : s.passesOver start i = false)
      (next : Collects s start select (s.children i ++ rest) (found ++ [i].filter select) result) :
      Collects s start select (i :: rest) found result

theorem Lists.unique {l l' : List NodeId} (h : s.Lists start select i l)
    (h' : s.Lists start select i l') : l = l' := by
  induction h generalizing l' with
  | passed h =>
    cases h' with
    | passed => rfl
    | node h' => exact absurd (h.symm.trans h') Bool.false_ne_true.symm
  | node h _ ih =>
    cases h' with
    | passed h' => exact absurd (h.symm.trans h') Bool.false_ne_true
    | node _ children => rw [List.flatMap_congr fun j hj => ih j hj (children j hj)]

theorem Collects.unique {stack found result result' : List NodeId}
    (h : s.Collects start select stack found result)
    (h' : s.Collects start select stack found result') : result = result' := by
  induction h with
  | done =>
    cases h'
    rfl
  | passed h _ ih =>
    cases h' with
    | passed _ next => exact ih next
    | node h' => exact absurd (h.symm.trans h') Bool.false_ne_true.symm
  | node h _ ih =>
    cases h' with
    | passed h' => exact absurd (h.symm.trans h') Bool.false_ne_true
    | node _ next => exact ih next

/-- Entries at the top of a stack that are each dealt with as they should be. -/
theorem Collects.append {below : NodeId → List NodeId} {result : List NodeId} (is : List NodeId)
    (his : ∀ i ∈ is, ∀ rest found, s.Collects start select rest (found ++ below i) result →
      s.Collects start select (i :: rest) found result) {rest found : List NodeId}
    (h : s.Collects start select rest (found ++ is.flatMap below) result) :
    s.Collects start select (is ++ rest) found result := by
  induction is generalizing found with
  | nil => simpa using h
  | cons i is ih =>
    refine his i List.mem_cons_self _ _ (ih (fun j hj => his j (List.mem_cons_of_mem _ hj)) ?_)
    rwa [List.append_assoc, ← List.flatMap_cons]

/-- The loop takes an entry off the stack with all that comes in its place, and has then found what
is to be listed from there on. -/
theorem Lists.collects {l rest found result : List NodeId} (h : s.Lists start select i l)
    (hrest : s.Collects start select rest (found ++ l) result) :
    s.Collects start select (i :: rest) found result := by
  induction h generalizing rest found with
  | passed h => exact .passed h (by simpa using hrest)
  | node h _ ih =>
    refine .node h (.append _ (fun j hj rest found hrest => ih j hj hrest) ?_)
    rwa [List.append_assoc]

theorem children_of_kind?_none (h : s.kind? i = none) : s.children i = [] := by
  rw [kind?_eq, Option.map_eq_none_iff] at h
  rw [children_eq, h]
  rfl

theorem ownedFrom_eq (s : Store) (start i : NodeId) :
    s.ownedFrom start i = if s.passesOver start i then [] else s.children i := by
  cases hk : s.kind? i with
  | none => simp [ownedFrom, passesOver, hk, children_of_kind?_none hk]
  | some kind => simp [ownedFrom, passesOver, hk]

/-- A list in depth-first order, with depth enough, is what is to be listed. -/
theorem Bounded.lists (h : s.Bounded depth i)
    (hselect : ∀ j, s.passesOver start j = true → select j = false) :
    s.Lists start select i ((Graph.preorder (s.ownedFrom start) depth i).filter select) := by
  induction depth generalizing i with
  | zero => exact .passed (by rw [passesOver, h]; rfl)
  | succ depth ih =>
    rw [Graph.preorder, ← List.singleton_append, List.filter_append, List.filter_flatMap,
      ownedFrom_eq]
    cases hover : s.passesOver start i with
    | true =>
      rw [List.filter_singleton, hselect i hover]
      exact .passed hover
    | false => exact .node hover fun j hj => ih (h j hj)

/-- **A scan for what is neither missing nor a function** is the recursion, and the loop. -/
theorem Acyclic.owned_iff (h : s.Acyclic start)
    (hselect : ∀ j, s.passesOver start j = true → select j = false) (result : List NodeId) :
    (s.Lists start select start result ↔ result = s.owned start select) ∧
      (s.Collects start select [start] [] result ↔ result = s.owned start select) := by
  have hlists : s.Lists start select start (s.owned start select) := by
    rw [owned_eq]
    exact h.bounded.lists hselect
  have hcollects : s.Collects start select [start] [] (s.owned start select) :=
    hlists.collects .done
  constructor
  · exact ⟨fun hr => hr.unique hlists, fun hr => hr ▸ hlists⟩
  · exact ⟨fun hr => hr.unique hcollects, fun hr => hr ▸ hcollects⟩

theorem isAwait_of_passesOver (h : s.passesOver start i = true) : s.isAwait i = false := by
  rw [passesOver] at h
  cases hk : s.kind? i with
  | none => simp [isAwait, hk]
  | some kind =>
    have hfunction : kind.isFunction = true := by simp_all
    cases kind <;> simp_all [isAwait, Kind.isFunction]

theorem isAsyncTry_of_passesOver (h : s.passesOver start i = true) : s.isAsyncTry i = false := by
  cases hn : s.node? i with
  | none => simp [isAsyncTry, hn]
  | some node =>
    rw [passesOver, kind?_of_node? hn] at h
    have hne : node.kind ≠ .tryExpression := by
      intro hk
      simp [hk, Kind.isFunction] at h
    rw [isAsyncTry, hn]
    exact isAsyncTry_eq_false hn hne

theorem asyncTries_eq (s : Store) (start : NodeId) :
    s.asyncTries start = s.owned start s.isAsyncTry := by
  refine congrArg (s.owned start) (funext fun i => ?_)
  cases hn : s.node? i with
  | none => simp [isAsyncTry, payload?_eq, hn]
  | some node =>
    rw [isAsyncTry, hn, payload?_of_node? hn]
    rfl

/-- **The scans for suspension points are the recursion.** Where no way leads back, the loop comes to
an end, and what it ends with is what the recursion lists and what the scan answers. -/
theorem scans_eq_recursion (h : s.Acyclic start) (result : List NodeId) :
    (s.Lists start s.isAwait start result ↔ result = s.awaits start) ∧
      (s.Collects start s.isAwait [start] [] result ↔ result = s.awaits start) ∧
      (s.Lists start s.isAsyncTry start result ↔ result = s.asyncTries start) ∧
      (s.Collects start s.isAsyncTry [start] [] result ↔ result = s.asyncTries start) := by
  obtain ⟨hawaits, hawaits'⟩ := h.owned_iff (fun _ => isAwait_of_passesOver) result
  obtain ⟨htries, htries'⟩ := h.owned_iff (fun _ => isAsyncTry_of_passesOver) result
  rw [asyncTries_eq]
  exact ⟨hawaits, hawaits', htries, htries'⟩

/-- Two blocks. Node 8 is

    { await this; …; try await (await this).arguments; function () { arguments }; await this; }

with one `await this` for all three and a reference to a node that does not exist. Node 9 has it
first, a node second whose kind does not fit and that shows the statements of node 8 too, and then
`() => arguments`. -/
def tangled : Store :=
  ({} : Store)
    |>.pushToken .thisKeyword 0 .zero
    |>.push (.suspension .await) 0 .zero (.suspension ⟨some 0, false⟩)
    |>.push .identifier 0 .zero (.identifier "arguments")
    |>.push .access 0 .zero (.access ⟨some 1, some 2⟩)
    |>.push (.function .arrow) 0 .zero (.function ⟨none, [], some 2, false, false⟩)
    |>.push (.function .expression) 0 .zero (.function ⟨none, [], some 2, false, false⟩)
    |>.push .tryExpression 0 .zero (.tryExpression ⟨some 3, true, false⟩)
    |>.push .block 0 .zero (.literal "x")
    |>.push .block 0 .zero (.block [some 1, some 20, some 6, some 5, some 1])
    |>.push .block 0 .zero (.block [some 8, some 7, some 4])

theorem acyclic_tangled (start : NodeId) : tangled.Acyclic start := acyclic_of_lt (by decide) start

theorem scans_eq_recursion_tangled :
    tangled.Acyclic 9 ∧ tangled.Lists 9 tangled.isAwait 9 [1, 1, 1, 1, 1, 1] ∧
      tangled.Collects 9 tangled.isAwait [9] [] [1, 1, 1, 1, 1, 1] ∧
      tangled.Lists 9 tangled.isAsyncTry 9 [6, 6] ∧
      tangled.Collects 9 tangled.isAsyncTry [9] [] [6, 6] := by
  have hawaits : [1, 1, 1, 1, 1, 1] = tangled.awaits 9 := by decide +kernel
  have htries : [6, 6] = tangled.asyncTries 9 := by decide +kernel
  obtain ⟨hlists, hcollects, _, _⟩ := scans_eq_recursion (acyclic_tangled 9) [1, 1, 1, 1, 1, 1]
  obtain ⟨_, _, hlists', hcollects'⟩ := scans_eq_recursion (acyclic_tangled 9) [6, 6]
  exact ⟨acyclic_tangled 9, hlists.mpr hawaits, hcollects.mpr hawaits, hlists'.mpr htries,
    hcollects'.mpr htries⟩

/-! ### Use of `arguments` -/

/-- Whether a node binds `arguments` anew. -/
def bindsArguments (s : Store) (i : NodeId) : Bool := (s.kind? i).any Kind.bindsArguments

/-- The slot of a property access in which the name stands. -/
def IsNameSlot (s : Store) (i : NodeId) (position : Nat) : Prop :=
  position = 1 ∧ ∃ parts, s.payload? i = some (.access parts)

/-- A step to a child from a node that does not bind `arguments`, and not to the name of a property
access. -/
def Looks (s : Store) (i j : NodeId) : Prop :=
  s.bindsArguments i = false ∧ ∃ position, s.child? i position = some j ∧ ¬s.IsNameSlot i position

/-- From a node such steps lead to an identifier `arguments`. -/
def ReadsArguments (s : Store) (i : NodeId) : Prop :=
  ∃ j, Relation.ReflTransGen s.Looks i j ∧ s.bindsArguments j = false ∧
    s.text? j = some "arguments"

/-- The loop of the scan for `arguments`, from a stack to its answer. The last child is on top. -/
inductive Searches (s : Store) : (stack : List NodeId) → (answer : Bool) → Prop where
  | exhausted : Searches s [] false
  | passed {i : NodeId} {rest : List NodeId} {answer : Bool}
      (h : (s.kind? i).all Kind.bindsArguments = true) (next : Searches s rest answer) :
      Searches s (i :: rest) answer
  | found {i : NodeId} {rest : List NodeId} (h : (s.kind? i).all Kind.bindsArguments = false)
      (text : s.text? i = some "arguments") : Searches s (i :: rest) true
  | node {i : NodeId} {rest : List NodeId} {answer : Bool}
      (h : (s.kind? i).all Kind.bindsArguments = false) (text : s.text? i ≠ some "arguments")
      (next : Searches s ((s.readers i).reverse ++ rest) answer) : Searches s (i :: rest) answer

theorem mem_readers_iff :
    j ∈ s.readers i ↔ ∃ position, s.child? i position = some j ∧ ¬s.IsNameSlot i position := by
  have hplain (hreaders : s.readers i = s.children i) (hname : ∀ k, ¬s.IsNameSlot i k) :
      j ∈ s.readers i ↔ ∃ position, s.child? i position = some j ∧ ¬s.IsNameSlot i position := by
    rw [hreaders, mem_children_iff]
    exact exists_congr fun k => (and_iff_left (hname k)).symm
  cases hp : s.payload? i with
  | none =>
    refine hplain (by rw [readers, hp]) ?_
    rintro k ⟨_, parts, haccess⟩
    rw [hp] at haccess
    cases haccess
  | some payload =>
    cases payload with
    | access parts =>
      have hname : ∀ k, s.IsNameSlot i k ↔ k = 1 := fun k => and_iff_left ⟨parts, hp⟩
      simp only [readers, hp, Option.mem_toList, child?, Option.bind_some, Payload.slots, hname]
      constructor
      · exact fun hj => ⟨0, hj, Nat.zero_ne_one⟩
      · rintro ⟨k, hk, hne⟩
        rcases k with _ | _ | k
        · exact hk
        · exact absurd rfl hne
        · cases hk
    | _ =>
      refine hplain (by rw [readers, hp]) ?_
      rintro k ⟨_, parts, haccess⟩
      rw [hp] at haccess
      cases haccess

theorem readsArguments_iff :
    s.ReadsArguments i ↔ s.bindsArguments i = false ∧
      (s.text? i = some "arguments" ∨ ∃ j ∈ s.readers i, s.ReadsArguments j) := by
  constructor
  · rintro ⟨j, hway, hbinds, htext⟩
    rcases Relation.ReflTransGen.cases_head hway with rfl | ⟨c, ⟨hscope, hstep⟩, hway⟩
    · exact ⟨hbinds, .inl htext⟩
    · exact ⟨hscope, .inr ⟨c, mem_readers_iff.mpr hstep, j, hway, hbinds, htext⟩⟩
  · rintro ⟨hscope, htext | ⟨c, hc, j, hway, hbinds, htext⟩⟩
    · exact ⟨i, .refl, hscope, htext⟩
    · exact ⟨j, .head ⟨hscope, mem_readers_iff.mp hc⟩ hway, hbinds, htext⟩

theorem mem_children_of_mem_readers (h : j ∈ s.readers i) : j ∈ s.children i := by
  obtain ⟨k, hk, _⟩ := mem_readers_iff.mp h
  exact mem_children_iff.mpr ⟨k, hk⟩

/-- Nothing is read at or below a node that the scan passes over. -/
theorem not_readsArguments (h : (s.kind? i).all Kind.bindsArguments = true) :
    ¬s.ReadsArguments i := by
  rw [readsArguments_iff]
  rintro ⟨hscope, hreads⟩
  cases hk : s.kind? i with
  | none =>
    rw [kind?_eq, Option.map_eq_none_iff] at hk
    rcases hreads with htext | ⟨j, hj, _⟩
    · simp [text?, payload?_eq, hk] at htext
    · simp [readers, children, payload?_eq, hk] at hj
  | some kind =>
    rw [bindsArguments, hk] at hscope
    rw [hk] at h
    exact absurd (h.symm.trans hscope) Bool.false_ne_true.symm

/-- A look of depth enough finds exactly what there is to find. -/
theorem Bounded.mentionsArgumentsWithin_iff (h : s.Bounded depth i) :
    s.mentionsArgumentsWithin depth i = true ↔ s.ReadsArguments i := by
  induction depth generalizing i with
  | zero => exact iff_of_false Bool.false_ne_true (not_readsArguments (by rw [h]; rfl))
  | succ depth ih =>
    have hbelow : (s.readers i).reverse.any (s.mentionsArgumentsWithin depth) = true ↔
        ∃ j ∈ s.readers i, s.ReadsArguments j := by
      rw [List.any_eq_true]
      simp only [List.mem_reverse]
      refine exists_congr fun j => and_congr_right fun hj => ih (h j ?_)
      exact mem_children_of_mem_readers hj
    rw [mentionsArgumentsWithin, readsArguments_iff, Bool.and_eq_true, Bool.or_eq_true, hbelow,
      Bool.not_eq_true', beq_iff_eq, bindsArguments]

theorem Searches.unique {stack : List NodeId} {answer answer' : Bool} (h : s.Searches stack answer)
    (h' : s.Searches stack answer') : answer = answer' := by
  induction h with
  | exhausted =>
    cases h'
    rfl
  | passed h _ ih =>
    cases h' with
    | passed _ next => exact ih next
    | found h' => exact absurd (h.symm.trans h') Bool.false_ne_true.symm
    | node h' => exact absurd (h.symm.trans h') Bool.false_ne_true.symm
  | found h text =>
    cases h' with
    | passed h' => exact absurd (h.symm.trans h') Bool.false_ne_true
    | found => rfl
    | node _ text' => exact absurd text text'
  | node h text _ ih =>
    cases h' with
    | passed h' => exact absurd (h.symm.trans h') Bool.false_ne_true
    | found _ text' => exact absurd text' text
    | node _ _ next => exact ih next

/-- The loop takes an entry off the stack with all that comes in its place, unless it stops there. -/
theorem Bounded.searches (h : s.Bounded depth i) {rest : List NodeId} {answer : Bool}
    (hrest : s.Searches rest answer) :
    s.Searches (i :: rest) (s.mentionsArgumentsWithin depth i || answer) := by
  induction depth generalizing i rest answer with
  | zero => exact .passed (by rw [h]; rfl) hrest
  | succ depth ih =>
    have hbelow : ∀ is : List NodeId, (∀ j ∈ is, j ∈ s.readers i) → s.Searches (is ++ rest)
        (is.any (s.mentionsArgumentsWithin depth) || answer) := by
      intro is his
      induction is with
      | nil => exact hrest
      | cons j is ihis =>
        rw [List.any_cons, Bool.or_assoc]
        exact ih (h j (mem_children_of_mem_readers (his j List.mem_cons_self)))
          (ihis fun k hk => his k (List.mem_cons_of_mem _ hk))
    cases hover : (s.kind? i).all Kind.bindsArguments with
    | true =>
      have hnone : s.mentionsArgumentsWithin (depth + 1) i = false :=
        Bool.eq_false_iff.mpr fun hfound =>
          not_readsArguments hover (h.mentionsArgumentsWithin_iff.mp hfound)
      rw [hnone]
      exact .passed hover hrest
    | false =>
      have hscope : (s.kind? i).any Kind.bindsArguments = false := by
        cases hk : s.kind? i with
        | none => rfl
        | some kind =>
          rw [hk] at hover
          exact hover
      rw [mentionsArgumentsWithin, hscope]
      by_cases htext : s.text? i = some "arguments"
      · rw [htext]
        exact .found hover htext
      · have hnot : (s.text? i == some "arguments") = false := beq_eq_false_iff_ne.mpr htext
        rw [hnot]
        exact .node hover htext (hbelow _ fun j hj => List.mem_reverse.mp hj)

/-- **The scan for `arguments` is exact.** Where no way leads back, the loop comes to an end, and the
answer is whether there is a way to an `arguments` that no function on the way binds and that is no
name of a property. -/
theorem mentionsArguments_iff (h : s.Acyclic i) :
    (s.mentionsArguments i = true ↔ s.ReadsArguments i) ∧
      ∀ answer, s.Searches [i] answer ↔ answer = s.mentionsArguments i := by
  have hsearches : s.Searches [i] (s.mentionsArguments i) := by
    have := h.bounded.searches .exhausted
    rwa [Bool.or_false] at this
  refine ⟨h.bounded.mentionsArgumentsWithin_iff, fun answer => ?_⟩
  exact ⟨fun ha => ha.unique hsearches, fun ha => ha ▸ hsearches⟩

theorem mentionsArguments_iff_tangled :
    tangled.Acyclic 8 ∧ ¬tangled.ReadsArguments 8 ∧ tangled.Searches [8] false ∧
      tangled.Acyclic 9 ∧ tangled.ReadsArguments 9 ∧ tangled.Searches [9] true := by
  have hinner : tangled.mentionsArguments 8 = false := by decide +kernel
  have houter : tangled.mentionsArguments 9 = true := by decide +kernel
  obtain ⟨hreads, hsearches⟩ := mentionsArguments_iff (acyclic_tangled 8)
  obtain ⟨hreads', hsearches'⟩ := mentionsArguments_iff (acyclic_tangled 9)
  refine ⟨acyclic_tangled 8, fun hr => ?_, (hsearches false).mpr hinner.symm, acyclic_tangled 9,
    hreads'.mp houter, (hsearches' true).mpr houter.symm⟩
  exact absurd (hinner.symm.trans (hreads.mpr hr)) Bool.false_ne_true

end Settle.Store
