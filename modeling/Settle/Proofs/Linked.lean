import Mathlib.Data.List.Nodup
import Mathlib.Data.List.Perm.Subperm
import Settle.Proofs.Visit

/-! Parent links.

Every operation that puts a node into a slot also has to point it to its parent, and no
node may be put into a second slot. `Store.Linked` says that both are so: a child names
the node whose slot it stands in, and no list of children names a node twice. Two nodes
cannot then have a child in common, since it has one parent.

Nodes that were made and stand nowhere yet are kept in hand. Making a node takes its
children out of the hand and puts the node itself in, so that what each operation needs
and what it leaves can be read off the hand. A body or operand on its way to another
place is for a while named by two nodes; what the first of them owes is written down
as a loan, which ends when that node gets another child in its place
(`Linked.exchange`). -/
namespace Settle

/-- The nodes that the slots name. -/
def Payload.children (payload : Payload Ref) : List NodeId := payload.slots.filterMap id

/-- A child that a node still names, although it has been given away. -/
structure Loan where
  lender : NodeId
  /-- What the lender carries as long as the loan lasts. -/
  payload : Payload Ref
  child : Ref

/-- Whether a child of a node is given away. -/
def Lends (loan : Option Loan) (i c : NodeId) : Prop :=
  ∃ l ∈ loan, l.lender = i ∧ l.child = some c

theorem not_lends_none (i c : NodeId) : ¬Lends none i c := by
  rintro ⟨_, h, _⟩
  cases h

theorem lends_some {l : Loan} {i c : NodeId} :
    Lends (some l) i c ↔ l.lender = i ∧ l.child = some c := by
  simp [Lends]

namespace Store
variable {s s' : Store} {loan : Option Loan} {hand hand' rest : List NodeId} {i j : NodeId}

/-- Children name their parents, and no child is named twice, but for what is on loan. The nodes in
hand are different from each other and stand nowhere. -/
structure Linked (s : Store) (loan : Option Loan) (hand : List NodeId) : Prop where
  sound : s.Sound
  parents : s.parents.size = s.size
  lender : ∀ l ∈ loan, s.payload? l.lender = some l.payload
  exist : ∀ {i c : Nat}, c ∈ s.children i → c < s.size
  distinct : ∀ i, (s.children i).Nodup
  parent : ∀ {i c : Nat}, c ∈ s.children i → ¬Lends loan i c → s.parent c = some i
  handExist : ∀ c : Nat, c ∈ hand → c < s.size
  handDistinct : hand.Nodup
  free : ∀ {i c : Nat}, c ∈ hand → c ∈ s.children i → Lends loan i c

theorem children_of_payload? {payload : Payload Ref} (h : s.payload? i = some payload) :
    s.children i = payload.children := by
  rw [children, h]
  rfl

/-- **No node stands in two places.** -/
theorem Linked.nodup_children (h : s.Linked none hand) :
    ((List.range s.size).flatMap s.children).Nodup := by
  refine List.nodup_flatMap.mpr ⟨fun i _ => h.distinct i, ?_⟩
  refine List.nodup_range.imp fun {i j} hne c hi hj => hne ?_
  have hparent : some i = some j :=
    (h.parent hi (not_lends_none i c)).symm.trans (h.parent hj (not_lends_none j c))
  exact Option.some.inj hparent

theorem linked_empty : ({} : Store).Linked none [] where
  sound := ⟨fun i kind h => by simp [kind?, header?] at h, fun i j address h => by
    simp [address?, header?] at h⟩
  parents := rfl
  lender := fun l h => absurd h (Option.not_mem_none l)
  exist := fun h => by simp [children, payload?, address?, header?] at h
  distinct := fun i => by simp [children, payload?, address?, header?]
  parent := fun h => by simp [children, payload?, address?, header?] at h
  handExist := fun c h => absurd h List.not_mem_nil
  handDistinct := List.nodup_nil
  free := fun h => absurd h List.not_mem_nil

/-- Nodes in hand may be put in another order, or left lying. -/
theorem Linked.subperm (h : s.Linked loan hand) (hsub : hand'.Subperm hand) :
    s.Linked loan hand' :=
  {h with
    handExist := fun c hc => h.handExist c (hsub.subset hc)
    handDistinct := by
      obtain ⟨l, hperm, hl⟩ := hsub
      exact hperm.nodup_iff.mp (h.handDistinct.sublist hl)
    free := fun hc => h.free (hsub.subset hc)}

theorem Linked.perm (h : s.Linked loan hand) (hperm : hand'.Perm hand) : s.Linked loan hand' :=
  h.subperm hperm.subperm

theorem Linked.drop {c : NodeId} (h : s.Linked loan (c :: rest)) : s.Linked loan rest :=
  h.subperm (List.sublist_cons_self c rest).subperm

/-! ### New nodes -/

theorem size_parents_adopt (s : Store) (parent : NodeId) (slots : List Ref) :
    (s.adopt parent slots).parents.size = s.parents.size := by
  show (slots.foldl (link · parent) s.parents).size = _
  induction slots generalizing s with
  | nil => rfl
  | cons slot rest ih =>
    rw [List.foldl_cons, ih {s with parents := link s.parents parent slot}, size_link]

theorem mem_payload_children {payload : Payload Ref} {c : NodeId} :
    c ∈ payload.children ↔ some c ∈ payload.slots := by
  simp [Payload.children]

theorem parent_push (hp : s.parents.size = s.size) (kind : Kind) (flags : UInt32) (span : Span)
    (payload : Payload Ref) {c : Nat} (hc : c < s.size) :
    (s.push kind flags span payload).parent c =
      if c ∈ payload.children then some s.size else s.parent c := by
  rw [push, parent_adopt, Array.size_push, hp]
  have hold : (s.parents.push none)[c]? = s.parents[c]? := by
    rw [Array.getElem?_push, if_neg (by omega)]
  have hlt : c < s.size + 1 := by omega
  simp only [parent, hold, hlt, and_true, mem_payload_children]

/-- **Making a node** takes its children out of the hand and puts it in. -/
theorem Linked.push (h : s.Linked loan hand) {kind : Kind} (flags : UInt32) (span : Span)
    {payload : Payload Ref} (hk : kind.form? = some payload.form)
    (hperm : hand.Perm (payload.children ++ rest)) :
    (s.push kind flags span payload).Linked loan (s.size :: rest) := by
  have hand' := h.perm hperm.symm
  obtain ⟨hchildren, hrest, hdisjoint⟩ := List.nodup_append'.mp hand'.handDistinct
  have hself : (s.push kind flags span payload).children s.size = payload.children :=
    children_of_payload? (payload?_push_self s flags span hk)
  have hother : ∀ i : Nat, i ≠ s.size →
      (s.push kind flags span payload).children i = s.children i :=
    fun i hi => by rw [children, h.sound.payload?_push flags span hi, children]
  have hlt : ∀ c : Nat, c ∈ payload.children ++ rest → c < s.size := hand'.handExist
  -- a child of an old node is not in hand, unless it is on loan
  have hkept : ∀ {i c : Nat}, c ∈ s.children i → ¬Lends loan i c → c ∉ payload.children :=
    fun hc hl hp => hl (hand'.free (List.mem_append_left _ hp) hc)
  refine ⟨h.sound.push flags span hk, ?_,
    fun l hl => payload?_push_of_eq_some (h.lender l hl) _ _ _ _, fun {i c} hc => ?_, fun i => ?_,
    fun {i c} hc hl => ?_, fun c hc => ?_, ?_, fun {i c} hc hi => ?_⟩
  · rw [Store.push, size_parents_adopt, Array.size_push, h.parents]
    exact (size_push s kind flags span payload).symm
  · rw [size_push]
    by_cases hi : i = s.size
    · rw [hi, hself] at hc
      exact Nat.lt_succ_of_lt (hlt c (List.mem_append_left _ hc))
    · rw [hother i hi] at hc
      exact Nat.lt_succ_of_lt (h.exist hc)
  · by_cases hi : i = s.size
    · rwa [hi, hself]
    · rw [hother i hi]
      exact h.distinct i
  · by_cases hi : i = s.size
    · rw [hi, hself] at hc
      rw [parent_push h.parents _ _ _ _ (hlt c (List.mem_append_left _ hc)), if_pos hc, hi]
    · rw [hother i hi] at hc
      rw [parent_push h.parents _ _ _ _ (h.exist hc), if_neg (hkept hc hl), h.parent hc hl]
  · rw [size_push]
    rcases List.mem_cons.mp hc with rfl | hc
    · exact Nat.lt_succ_self _
    · exact Nat.lt_succ_of_lt (hlt c (List.mem_append_right _ hc))
  · exact List.nodup_cons.mpr
      ⟨fun hc => Nat.lt_irrefl _ (hlt _ (List.mem_append_right _ hc)), hrest⟩
  · by_cases hself' : i = s.size
    · rw [hself', hself] at hi
      rcases List.mem_cons.mp hc with rfl | hc
      · exact absurd (hlt _ (List.mem_append_left _ hi)) (Nat.lt_irrefl _)
      · exact absurd hc (hdisjoint hi)
    · rw [hother i hself'] at hi
      rcases List.mem_cons.mp hc with rfl | hc
      · exact absurd (h.exist hi) (Nat.lt_irrefl _)
      · exact hand'.free (List.mem_append_right _ hc) hi

theorem Linked.pushToken (h : s.Linked loan hand) {kind : Kind} (flags : UInt32) (span : Span)
    (hk : kind.form? = none) : (s.pushToken kind flags span).Linked loan (s.size :: hand) := by
  have hchildren : ∀ i, (s.pushToken kind flags span).children i = s.children i :=
    fun i => by rw [children, payload?_pushToken, children]
  refine ⟨(revision_pushToken h.sound flags span hk).sound, ?_, fun l hl => ?_, fun {i c} hc => ?_,
    fun i => ?_, fun {i c} hc hl => ?_, fun c hc => ?_, ?_, fun {i c} hc hi => ?_⟩
  · rw [Store.pushToken, Array.size_push, h.parents]
    exact (size_pushToken s kind flags span).symm
  · rw [payload?_pushToken, h.lender l hl]
  · rw [hchildren] at hc
    rw [size_pushToken]
    exact Nat.lt_succ_of_lt (h.exist hc)
  · rw [hchildren]
    exact h.distinct i
  · rw [hchildren] at hc
    have hlt := h.exist hc
    rw [← h.parent hc hl, Store.pushToken, Store.parent, Array.getElem?_push,
      if_neg (by rw [h.parents]; omega), Store.parent]
  · rw [size_pushToken]
    rcases List.mem_cons.mp hc with rfl | hc
    · exact Nat.lt_succ_self _
    · exact Nat.lt_succ_of_lt (h.handExist c hc)
  · exact List.nodup_cons.mpr
      ⟨fun hc => Nat.lt_irrefl _ (h.handExist _ hc), h.handDistinct⟩
  · rw [hchildren] at hi
    rcases List.mem_cons.mp hc with rfl | hc
    · exact absurd (h.exist hi) (Nat.lt_irrefl _)
    · exact h.free hc hi

/-! ### Changes in place -/

theorem Revision.children_eq {edit : NodeId → Node → Node} (h : Revision s s' edit []) {i : Nat}
    (hi : ∀ node, s.node? i = some node → (edit i node).children = node.children) :
    s'.children i = s.children i := by
  by_cases hlt : i < s.size
  · obtain ⟨node, there⟩ := node?_of_lt_size hlt
    have there' : s'.node? i = some (edit i node) := by rw [h.old i hlt, there, Option.map_some]
    rw [children_of_node? there, children_of_node? there', hi node there]
  · have hsize : s'.size = s.size := h.size
    rw [Store.children_eq, node?_eq_none (by omega), Store.children_eq, node?_eq_none (by omega)]

/-- A change that leaves children and parents as they are. -/
theorem Linked.unmoved {edit : NodeId → Node → Node} (h : s.Linked loan hand)
    (hrev : Revision s s' edit [])
    (hchildren : ∀ (j : Nat) (node : Node), s.node? j = some node →
      (edit j node).children = node.children)
    (hlender : ∀ l ∈ loan, s'.payload? l.lender = some l.payload)
    (hparents : s'.parents.size = s.parents.size) (hparent : ∀ c, s'.parent c = s.parent c) :
    s'.Linked loan hand := by
  have hsame : ∀ i, s'.children i = s.children i := fun i => hrev.children_eq (hchildren i)
  have hsize : s'.size = s.size := hrev.size
  refine ⟨hrev.sound, by rw [hparents, h.parents, hsize], hlender, fun hc => ?_, fun i => ?_,
    fun {i c} hc hl => ?_, fun c hc => ?_, h.handDistinct, fun {i c} hc hi => ?_⟩
  · rw [hsame] at hc
    rw [hsize]
    exact h.exist hc
  · rw [hsame]
    exact h.distinct i
  · rw [hsame] at hc
    rw [hparent, h.parent hc hl]
  · rw [hsize]
    exact h.handExist c hc
  · rw [hsame] at hi
    exact h.free hc hi

/-- A child is given away: it is in hand while its parent still names it. -/
theorem Linked.lend (h : s.Linked none hand) {payload : Payload Ref} {child : Ref}
    (hp : s.payload? i = some payload) (hchild : ∀ c, child = some c → c ∈ payload.children) :
    s.Linked (some ⟨i, payload, child⟩) (child.toList ++ hand) := by
  have hmem : ∀ c ∈ child.toList, c ∈ s.children i := fun c hc => by
    rw [children_of_payload? hp]
    exact hchild c (Option.mem_toList.mp hc)
  refine ⟨h.sound, h.parents, fun l hl => ?_, h.exist, h.distinct,
    fun hc _ => h.parent hc (not_lends_none _ _), fun c hc => ?_, ?_, fun {j c} hc hj => ?_⟩
  · rw [← Option.some.inj hl]
    exact hp
  · rcases List.mem_append.mp hc with hc | hc
    · exact h.exist (hmem c hc)
    · exact h.handExist c hc
  · refine List.nodup_append'.mpr ⟨?_, h.handDistinct, fun c hc hc' => ?_⟩
    · cases child with
      | none => exact List.nodup_nil
      | some c => exact List.nodup_singleton c
    · exact not_lends_none i c (h.free hc' (hmem c hc))
  · rcases List.mem_append.mp hc with hc | hc
    · refine lends_some.mpr ⟨?_, Option.mem_toList.mp hc⟩
      exact Option.some.inj ((h.parent (hmem c hc) (not_lends_none _ _)).symm.trans
        (h.parent hj (not_lends_none _ _)))
    · exact absurd (h.free hc hj) (not_lends_none j c)

/-- **A loan ends** when the lender gets the first node in hand in place of the child that it gave
away. -/
theorem Linked.exchange {payload : Payload Ref} {child : Ref} {c : NodeId} {kept : List NodeId}
    {g : Node → Node} (h : s.Linked (some ⟨i, payload, child⟩) (c :: rest))
    (hrev : Revision s s' (editAt i g) [])
    (hparents : s'.parents = (s.adopt i [some c]).parents)
    (hold : payload.children.Perm (child.toList ++ kept))
    (hnew : (s'.children i).Perm (c :: kept)) : s'.Linked none rest := by
  have hsize : s'.size = s.size := hrev.size
  have hchildren : s.children i = payload.children :=
    children_of_payload? (h.lender _ rfl)
  have hother : ∀ j : Nat, j ≠ i → s'.children j = s.children j :=
    fun j hj => hrev.children_eq fun node _ => by rw [editAt_of_ne hj]
  have hparent : ∀ d : Nat, s'.parent d = if d = c then some i else s.parent d := by
    intro d
    have hlt : c < s.parents.size := by
      rw [h.parents]
      exact h.handExist c List.mem_cons_self
    rw [Store.parent, hparents, ← Store.parent, parent_adopt]
    by_cases hd : d = c
    · rw [hd, if_pos ⟨List.mem_singleton.mpr rfl, hlt⟩, if_pos rfl]
    · rw [if_neg fun hmem => hd (Option.some.inj (List.mem_singleton.mp hmem.1)), if_neg hd]
  obtain ⟨_, hkept, hdisjoint⟩ :=
    List.nodup_append'.mp (hold.nodup_iff.mp (hchildren ▸ h.distinct i))
  -- what the lender keeps was its own all along
  have hown : ∀ d ∈ kept, d ∈ s.children i ∧ ¬Lends (some ⟨i, payload, child⟩) i d := by
    intro d hd
    refine ⟨?_, fun hl => hdisjoint (Option.mem_toList.mpr (lends_some.mp hl).2) hd⟩
    rw [hchildren, hold.mem_iff]
    exact List.mem_append_right _ hd
  have hnone : ∀ {j d : Nat}, j ≠ i → ¬Lends (some ⟨i, payload, child⟩) j d :=
    fun hj hl => hj (lends_some.mp hl).1.symm
  have hc : c ∉ kept := fun hd =>
    (hown c hd).2 (h.free List.mem_cons_self (hown c hd).1)
  obtain ⟨hcrest, hrest⟩ := List.nodup_cons.mp h.handDistinct
  refine ⟨hrev.sound, ?_, fun l hl => absurd hl (Option.not_mem_none l), fun {j d} hd => ?_,
    fun j => ?_, fun {j d} hd _ => ?_, fun d hd => ?_, hrest, fun {j d} hd hj => ?_⟩
  · rw [hparents, size_parents_adopt, h.parents, hsize]
  · rw [hsize]
    by_cases hj : j = i
    · rw [hj, hnew.mem_iff] at hd
      rcases List.mem_cons.mp hd with rfl | hd
      · exact h.handExist d List.mem_cons_self
      · exact h.exist (hown d hd).1
    · rw [hother j hj] at hd
      exact h.exist hd
  · by_cases hj : j = i
    · rw [hj, hnew.nodup_iff]
      exact List.nodup_cons.mpr ⟨hc, hkept⟩
    · rw [hother j hj]
      exact h.distinct j
  · rw [hparent]
    by_cases hj : j = i
    · rw [hj, hnew.mem_iff] at hd
      rcases List.mem_cons.mp hd with rfl | hd
      · rw [if_pos rfl, hj]
      · have hne : d ≠ c := fun heq => hc (heq ▸ hd)
        rw [if_neg hne, h.parent (hown d hd).1 (hown d hd).2, hj]
    · rw [hother j hj] at hd
      rw [if_neg, h.parent hd (hnone hj)]
      rintro rfl
      exact hnone hj (h.free List.mem_cons_self hd)
  · rw [hsize]
    exact h.handExist d (List.mem_cons_of_mem _ hd)
  · by_cases hji : j = i
    · rw [hji, hnew.mem_iff] at hj
      rcases List.mem_cons.mp hj with rfl | hj
      · exact absurd hd hcrest
      · exact absurd (h.free (List.mem_cons_of_mem _ hd) (hown d hj).1) (hown d hj).2
    · rw [hother j hji] at hj
      exact absurd (h.free (List.mem_cons_of_mem _ hd) hj) (hnone hji)

end Store

namespace Edit
open Store
variable {s : Store} {loan : Option Loan} {hand rest : List NodeId} {helper : NodeId}

/-! ### Making nodes -/

theorem make_linked (kind : Kind) (payload : Payload Ref) (h : s.Linked loan hand)
    (hk : kind.form? = some payload.form) (hperm : hand.Perm (payload.children ++ rest)) :
    ∃ j s', make kind payload s = (j, s') ∧ s'.Linked loan (j :: rest) :=
  ⟨_, _, rfl, h.push 0 .zero hk hperm⟩

theorem blockOf_linked {body : Ref} (h : s.Linked loan (body.toList ++ rest)) :
    ∃ j s', blockOf body s = (j, s') ∧ s'.Linked loan (j :: rest) := by
  rw [blockOf, bind_run (get_run s)]
  cases body with
  | none => exact make_linked .block (.block []) h rfl (.refl _)
  | some i =>
    obtain ⟨node, there⟩ := node?_of_lt_size (h.handExist i List.mem_cons_self)
    have hwrap : ∃ j s', (makeReturn (some i) >>= fun result => makeBlock [some result]) s =
        (j, s') ∧ s'.Linked loan (j :: rest) := by
      obtain ⟨result, s₁, run₁, h₁⟩ :=
        make_linked .returnStatement (.returnStatement (some i)) h rfl (.refl _)
      obtain ⟨block, s₂, run₂, h₂⟩ := make_linked .block (.block [some result]) h₁ rfl (.refl _)
      exact ⟨block, s₂, (bind_run run₁).trans run₂, h₂⟩
    simp only [kind?_of_node? there]
    cases node.kind with
    | block => exact ⟨i, s, rfl, h⟩
    | _ => exact hwrap

/-- The block that returns the call of a method of what is wrapped, with what is passed to it. -/
theorem makeInvocation_linked {wrapped : NodeId} (passed : List NodeId) (method : String)
    (h : s.Linked loan (passed ++ wrapped :: rest)) :
    ∃ top s', (do
        let method ← makeIdentifier method
        let callee ← make .access (.access ⟨some wrapped, some method⟩)
        let invoke ← makeCall (some callee) (passed.map some)
        let result ← makeReturn (some invoke)
        makeBlock [some result]) s = (top, s') ∧ s'.Linked loan (top :: rest) := by
  obtain ⟨name, s₁, run₁, h₁⟩ := make_linked .identifier (.identifier method) h rfl (.refl _)
  have hcallee : (name :: (passed ++ wrapped :: rest)).Perm ([wrapped, name] ++ (passed ++ rest)) :=
    (List.perm_middle.cons name).trans (.swap wrapped name _)
  obtain ⟨callee, s₂, run₂, h₂⟩ := make_linked .access (.access ⟨some wrapped, some name⟩) h₁ rfl
    hcallee
  have hpassed : (Payload.call ⟨some callee, passed.map some⟩).children = callee :: passed := by
    simp [Payload.children, Payload.slots]
  obtain ⟨invoke, s₃, run₃, h₃⟩ := make_linked .call (.call ⟨some callee, passed.map some⟩) h₂ rfl
    (show (callee :: (passed ++ rest)).Perm (Payload.children _ ++ rest) by rw [hpassed]; rfl)
  obtain ⟨result, s₄, run₄, h₄⟩ := make_linked .returnStatement (.returnStatement (some invoke)) h₃
    rfl (.refl _)
  obtain ⟨top, s₅, run₅, h₅⟩ := make_linked .block (.block [some result]) h₄ rfl (.refl _)
  exact ⟨top, s₅, (bind_run run₁).trans <| (bind_run run₂).trans <| (bind_run run₃).trans <|
    (bind_run run₄).trans run₅, h₅⟩

/-- A trampoline uses up the body and the reference to the helper. -/
theorem makeTrampoline_linked {body : NodeId} (h : s.Linked loan (body :: helper :: rest))
    (forwards : Bool) :
    ∃ top s', makeTrampoline (some helper) body forwards s = (top, s') ∧
      s'.Linked loan (top :: rest) := by
  obtain ⟨generator, s₁, run₁, h₁⟩ := make_linked (.function .expression)
    (.function ⟨none, [], some body, false, true⟩) h rfl (.refl _)
  obtain ⟨wrapped, s₂, run₂, h₂⟩ := make_linked .call
    (.call ⟨some helper, [some generator]⟩) h₁ rfl (.swap _ _ _)
  obtain ⟨receiver, s₃, run₃, h₃⟩ : ∃ j s', addToken .thisKeyword 0 .zero s₂ = (j, s') ∧
    s'.Linked loan (j :: wrapped :: rest) := ⟨_, _, rfl, h₂.pushToken 0 .zero rfl⟩
  cases forwards with
  | false =>
    obtain ⟨top, s', run, h'⟩ := makeInvocation_linked [receiver] "call" h₃
    exact ⟨top, s', (bind_run run₁).trans <| (bind_run run₂).trans <| (bind_run run₃).trans run, h'⟩
  | true =>
    obtain ⟨arguments, s₄, run₄, h₄⟩ := make_linked .identifier (.identifier "arguments") h₃ rfl
      (.refl _)
    obtain ⟨top, s', run, h'⟩ := makeInvocation_linked [receiver, arguments] "apply"
      (h₄.perm (.swap _ _ _))
    exact ⟨top, s', (bind_run run₁).trans <| (bind_run run₂).trans <| (bind_run run₃).trans <|
      (bind_run run₄).trans run, h'⟩

/-! ### Suspension points -/

theorem revise_of_some {i : NodeId} {change : Payload Ref → Option (Payload Ref)}
    {new : Payload Ref} (h : (s.payload? i).bind change = some new) :
    revise i change s = (true, s.write i new) := by
  simp only [revise, modifyGet, MonadStateOf.modifyGet, StateT.modifyGet, h]
  rfl

theorem revise_of_none {i : NodeId} {change : Payload Ref → Option (Payload Ref)}
    (h : (s.payload? i).bind change = none) : revise i change s = (false, s) := by
  simp only [revise, modifyGet, MonadStateOf.modifyGet, StateT.modifyGet, h]
  rfl

theorem parents_revise (i : NodeId) (change : Payload Ref → Option (Payload Ref)) (s : Store) :
    (revise i change s).2.parents = s.parents := by
  cases h : (s.payload? i).bind change with
  | none => rw [revise_of_none h]
  | some new => rw [revise_of_some h, parents_write]

theorem parents_adopt_write (s : Store) (i : NodeId) (payload : Payload Ref) (parent : NodeId)
    (slots : List Ref) : ((s.write i payload).adopt parent slots).parents =
      (s.adopt parent slots).parents := by
  show slots.foldl _ (s.write i payload).parents = _
  rw [parents_write]
  rfl

/-- A function keeps its payload where an edit leaves functions alone. -/
theorem payload?_of_editAt {s' : Store} {g : Node → Node} {i j : Nat} {payload : Payload Ref}
    (hrev : Revision s s' (editAt i g) [])
    (hg : ∀ node : Node, node.payload = some payload → g node = node)
    (h : s.payload? j = some payload) : s'.payload? j = some payload := by
  obtain ⟨node, there, hnode⟩ := exists_node_of_payload? h
  have hedit : editAt i g j node = node := by
    by_cases hj : j = i
    · rw [hj, editAt_self, hg node hnode]
    · exact editAt_of_ne hj g node
  rw [payload?_eq, hrev.old j (lt_size_of_node? there), there, Option.map_some, hedit]
  exact hnode

theorem children_editAt {g : Node → Node} (hg : ∀ node, (g node).children = node.children)
    (i j : NodeId) (node : Node) : (editAt i g j node).children = node.children := by
  by_cases hj : j = i
  · rw [hj, editAt_self, hg]
  · rw [editAt_of_ne hj]

theorem exists_function_of_form {payload : Payload Ref} (h : payload.form = .function) :
    ∃ parts, payload = .function parts := by
  cases payload with
  | function parts => exact ⟨parts, rfl⟩
  | _ => cases h

/-- `await e` keeps its operand when it becomes `yield e`, and the operand has the parent that it is
given. -/
theorem yieldAwait_linked (h : s.Linked loan hand)
    (hloan : ∀ l ∈ loan, l.payload.form = .function) (i : Nat) :
    ∃ s', yieldAwait i s = ((), s') ∧ s'.Linked loan hand := by
  obtain ⟨s', hrun, hrev⟩ := yieldAwait_run h.sound i
  have hsame : s'.parents.size = s.parents.size ∧ ∀ c, s'.parent c = s.parent c := by
    rcases yieldAwait_cases s i with ⟨_, hrun'⟩ | ⟨parts, hp, hrun'⟩
    · obtain rfl : s' = s := congrArg Prod.snd (hrun.symm.trans hrun')
      exact ⟨rfl, fun _ => rfl⟩
    · have hparents : s'.parents = (s.adopt i [parts.operand]).parents :=
        congrArg (fun result => result.2.parents) (hrun.symm.trans hrun')
      refine ⟨by rw [hparents, size_parents_adopt], fun c => ?_⟩
      rw [Store.parent, hparents, ← Store.parent, parent_adopt]
      split
      · rename_i hc
        have hchild : c ∈ s.children i := by
          rw [children_of_payload? hp, mem_payload_children]
          exact hc.1
        refine (h.parent hchild ?_).symm
        rintro ⟨l, hl, hlender, _⟩
        have hlent := h.lender l hl
        rw [hlender, hp] at hlent
        cases (Option.some.inj hlent) ▸ hloan l hl
      · rfl
  refine ⟨s', hrun, h.unmoved hrev (fun j node _ => children_editAt Node.children_yielding i j node)
    (fun l hl => payload?_of_editAt hrev (fun node hnode => ?_) (h.lender l hl)) hsame.1 hsame.2⟩
  obtain ⟨parts, hparts⟩ := exists_function_of_form (hloan l hl)
  rw [Node.yielding, hnode, hparts]

theorem yieldTry_linked (h : s.Linked loan hand) (hloan : ∀ l ∈ loan, l.payload.form = .function)
    (i : Nat) : ∃ s', yieldTry i s = ((), s') ∧ s'.Linked loan hand := by
  obtain ⟨s', hrun, hrev⟩ := yieldTry_run h.sound i
  have hparents : s'.parents = s.parents :=
    (congrArg (fun result => result.2.parents) hrun).symm.trans (parents_revise i _ s)
  refine ⟨s', hrun, h.unmoved hrev
    (fun j node _ => children_editAt Node.children_tryYielding i j node)
    (fun l hl => payload?_of_editAt hrev (fun node hnode => ?_) (h.lender l hl))
    (by rw [hparents]) (fun c => by rw [Store.parent, hparents, Store.parent])⟩
  obtain ⟨parts, hparts⟩ := exists_function_of_form (hloan l hl)
  rw [Node.tryYielding, hnode, hparts]

theorem forM_linked {f : NodeId → Edit Unit}
    (hf : ∀ (s : Store) (i : Nat), s.Linked loan hand →
      ∃ s', f i s = ((), s') ∧ s'.Linked loan hand)
    (is : List NodeId) (h : s.Linked loan hand) :
    ∃ s', is.forM f s = ((), s') ∧ s'.Linked loan hand := by
  induction is generalizing s with
  | nil => exact ⟨s, rfl, h⟩
  | cons i rest ih =>
    obtain ⟨s₁, run₁, h₁⟩ := hf s i h
    obtain ⟨s₂, run₂, h₂⟩ := ih h₁
    exact ⟨s₂, (bind_run run₁).trans run₂, h₂⟩

theorem suspendByYield_linked (h : s.Linked loan hand)
    (hloan : ∀ l ∈ loan, l.payload.form = .function) (body : NodeId) :
    ∃ s', suspendByYield body s = ((), s') ∧ s'.Linked loan hand := by
  obtain ⟨s₁, run₁, h₁⟩ :=
    forM_linked (fun _ i h => yieldAwait_linked h hloan i) (s.awaits body) h
  obtain ⟨s₂, run₂, h₂⟩ :=
    forM_linked (fun _ i h => yieldTry_linked h hloan i) (s₁.asyncTries body) h₁
  exact ⟨s₂, (bind_run (get_run s)).trans <| (bind_run run₁).trans <|
    (bind_run (get_run s₁)).trans run₂, h₂⟩

/-! ### Lowering -/

theorem children_function (parts : FunctionParts Ref) :
    (Payload.function parts).children.Perm
      (parts.body.toList ++ (parts.name :: parts.parameters).filterMap id) := by
  have hsplit : (Payload.function parts).children =
      (parts.name :: parts.parameters).filterMap id ++ [parts.body].filterMap id :=
    List.filterMap_append
  have hbody : [parts.body].filterMap id = parts.body.toList := by cases parts.body <;> rfl
  rw [hsplit, hbody]
  exact List.perm_append_comm

theorem parents_setBody {i : NodeId} {parts : FunctionParts Ref}
    (h : s.payload? i = some (.function parts)) (body : Ref) :
    (setBody i body s).2.parents = (s.adopt i [body]).parents := by
  have hrun : setBody i body s = (true, (s.write i (.function {parts with body})).adopt i [body]) :=
    (bind_run (revise_of_some (by rw [h, Option.bind_some]))).trans rfl
  rw [hrun, parents_adopt_write]

/-- **Lowering a function** uses up the reference to the helper. The function lends its body, and
gets the trampoline for it in the end. -/
theorem lowerFunction_linked {i : Nat} {parts : FunctionParts Ref}
    (h : s.Linked none (helper :: rest)) (hp : s.payload? i = some (.function parts))
    (kind : FunctionKind) :
    ∃ s', lowerFunction i kind parts.body (some helper) s = ((), s') ∧ s'.Linked none rest := by
  have hbody : ∀ c, parts.body = some c → c ∈ (Payload.function parts).children := fun c hc =>
    (children_function parts).mem_iff.mpr (List.mem_append_left _ (Option.mem_toList.mpr hc))
  obtain ⟨block, s₁, run₁, h₁⟩ := blockOf_linked (h.lend hp hbody)
  obtain ⟨s₂, run₂, h₂⟩ := suspendByYield_linked h₁ (fun l hl => by cases hl; rfl) block
  obtain ⟨top, s₃, run₃, h₃⟩ := makeTrampoline_linked h₂ (forwards s kind parts.body)
  have hp₃ : s₃.payload? i = some (.function parts) := h₃.lender _ rfl
  obtain ⟨done, s₄, run₄, rev₄⟩ := setBody_run h₃.sound i (some top)
  have hparents₄ : s₄.parents = (s₃.adopt i [some top]).parents :=
    (congrArg (fun result => result.2.parents) run₄).symm.trans (parents_setBody hp₃ (some top))
  have hchildren₄ : s₄.children i =
      (Payload.function {parts with body := some top}).children := by
    obtain ⟨node, there, hnode⟩ := exists_node_of_payload? hp₃
    refine children_of_payload? ?_
    rw [payload?_eq, rev₄.old i (lt_size_of_node? there), there, Option.map_some, editAt_self,
      Option.bind_some, Node.withBody, hnode]
  have h₄ : s₄.Linked none rest :=
    h₃.exchange rev₄ hparents₄ (children_function parts) (hchildren₄ ▸ children_function _)
  obtain ⟨s₅, run₅, rev₅⟩ := makePlain_run h₄.sound i
  have hparents₅ : s₅.parents = s₄.parents :=
    (congrArg (fun result => result.2.parents) run₅).symm.trans (parents_revise i _ s₄)
  refine ⟨s₅, ?_, h₄.unmoved rev₅ (fun j node _ => children_editAt Node.children_plain i j node)
    (fun l hl => absurd hl (Option.not_mem_none l)) (by rw [hparents₅])
    (fun c => by rw [Store.parent, hparents₅, Store.parent])⟩
  exact (bind_run (get_run s)).trans <|
    (bind_run run₁).trans <| (bind_run run₂).trans <| (bind_run run₃).trans <|
    (bind_run run₄).trans run₅

/-- **Lowering a try expression** uses up the reference to the helper. The node lends its operand,
and gets the call for it in the end. -/
theorem lowerTry_linked {i : Nat} {parts : TryParts Ref} (h : s.Linked none (helper :: rest))
    (hp : s.payload? i = some (.tryExpression parts)) :
    ∃ s', lowerTry i parts.operand (some helper) s = ((), s') ∧ s'.Linked none rest := by
  have hchildren : (Payload.tryExpression parts).children = parts.operand.toList := by
    simp only [Payload.children, Payload.slots]
    cases parts.operand <;> rfl
  have hoperand : ∀ c, parts.operand = some c → c ∈ (Payload.tryExpression parts).children :=
    fun c hc => by rw [hchildren]; exact Option.mem_toList.mpr hc
  have hcall : (parts.operand.toList ++ helper :: rest).Perm
      ((Payload.call ⟨some helper, [parts.operand]⟩).children ++ rest) := by
    simp only [Payload.children, Payload.slots]
    cases parts.operand with
    | none => exact .refl _
    | some c => exact .swap _ _ _
  obtain ⟨call, s₁, run₁, h₁⟩ := make_linked .call (.call ⟨some helper, [parts.operand]⟩)
    (h.lend hp hoperand) rfl hcall
  have hlt : i < s₁.size := by
    obtain ⟨node, there, _⟩ := exists_node_of_payload? (h₁.lender _ rfl)
    exact lt_size_of_node? there
  have run₂ := becomeSuspension_eq hlt (.suspension .await) ⟨some call, false⟩
  have rev₂ := revision_adopt (revision_suspended h₁.sound hlt
    (show (Kind.suspension .await).form? = some .suspension from rfl) ⟨some call, false⟩) i
    [some call]
  refine ⟨_, (bind_run run₁).trans ((bind_run run₂).trans (pure_run () _)),
    h₁.exchange rev₂ rfl (List.Perm.of_eq (hchildren.trans (List.append_nil _).symm)) ?_⟩
  obtain ⟨node, there⟩ := node?_of_lt_size hlt
  have there₂ := rev₂.old i hlt
  rw [there, Option.map_some, editAt_self] at there₂
  rw [children_of_node? there₂]
  exact .refl _

/-! ### Statements -/

/-- What a payload becomes when a statement is put into its list, if it has one. -/
def inserted (position : Nat) (statement : Ref) : Payload Ref → Option (Payload Ref)
  | .sourceFile parts => some (.sourceFile {parts with
      statements := parts.statements.take position ++ statement :: parts.statements.drop position})
  | .block statements =>
    some (.block (statements.take position ++ statement :: statements.drop position))
  | _ => none

theorem form_inserted {position : Nat} {statement : Ref} {old new : Payload Ref}
    (h : inserted position statement old = some new) : new.form = old.form := by
  cases old <;> cases h <;> rfl

theorem children_inserted {position : Nat} {c : NodeId} {old new : Payload Ref}
    (h : inserted position (some c) old = some new) : new.children.Perm (c :: old.children) := by
  have hlist : ∀ statements : List Ref,
      ((statements.take position ++ some c :: statements.drop position).filterMap id).Perm
        (c :: statements.filterMap id) := by
    intro statements
    have hcons : (some c :: statements.drop position).filterMap id =
        c :: (statements.drop position).filterMap id := rfl
    rw [List.filterMap_append, hcons]
    refine List.perm_middle.trans (.cons c ?_)
    rw [← List.filterMap_append, List.take_append_drop]
  cases old with
  | sourceFile parts =>
    cases h
    exact hlist parts.statements
  | block statements =>
    cases h
    exact hlist statements
  | _ => cases h

theorem insertStatement_eq (i : NodeId) (position : Nat) (statement : Ref) :
    insertStatement i position statement = (do
      let done ← revise i (inserted position statement)
      if done then adopt i statement
      return done) := rfl

/-- **Putting a statement into a list** uses it up; if there is no list it is left lying. -/
theorem insertStatement_linked {c : NodeId} (h : s.Linked none (c :: rest)) (i : NodeId)
    (position : Nat) :
    ∃ done s', insertStatement i position (some c) s = (done, s') ∧ s'.Linked none rest := by
  rw [insertStatement_eq]
  cases hnew : (s.payload? i).bind (inserted position (some c)) with
  | none => exact ⟨false, s, bind_run (revise_of_none hnew), h.drop⟩
  | some new =>
    obtain ⟨old, hp, hinserted⟩ := Option.bind_eq_some_iff.mp hnew
    have hform := form_inserted hinserted
    have hlend : s.Linked (some ⟨i, old, none⟩) (c :: rest) :=
      h.lend hp fun d hd => absurd hd.symm (Option.some_ne_none d)
    have hchildren : ((s.write i new).adopt i [some c]).children i = new.children := by
      refine children_of_payload? ?_
      rw [payload?_adopt, payload?_write hp hform, if_pos rfl]
    exact ⟨true, _, bind_run (revise_of_some hnew),
      hlend.exchange (revision_adopt (revision_write h.sound hp hform) i [some c])
        (parents_adopt_write s i new i [some c]) (.refl _)
        (hchildren ▸ children_inserted hinserted)⟩

/-! ### Copies -/

/-- Filling the slots of a payload is filling a list. -/
theorem mapSlotsM_run (f : Ref → Edit Ref) (payload : Payload Ref) (s : Store) :
    ∃ payload', payload.mapSlotsM f s = (payload', (payload.slots.mapM f s).2) ∧
      payload'.slots = (payload.slots.mapM f s).1 ∧ payload'.form = payload.form := by
  cases payload <;> simp only [Payload.slots, List.mapM_append, List.mapM_cons, List.mapM_nil] <;>
    exact ⟨_, rfl, rfl, rfl⟩

theorem mapM_linked {f : Ref → Edit Ref}
    (hf : ∀ (s : Store) (hand : List NodeId) (ref : Ref), s.Linked loan hand →
      ∃ ref' s', f ref s = (ref', s') ∧ s'.Linked loan (ref'.toList ++ hand))
    (refs : List Ref) (h : s.Linked loan hand) :
    ∃ refs' s', refs.mapM f s = (refs', s') ∧ s'.Linked loan (refs'.filterMap id ++ hand) := by
  induction refs generalizing s hand with
  | nil => exact ⟨[], s, rfl, h⟩
  | cons ref rest ih =>
    obtain ⟨ref', s₁, run₁, h₁⟩ := hf s hand ref h
    obtain ⟨rest', s₂, run₂, h₂⟩ := ih h₁
    have hrun : (ref :: rest).mapM f s = (ref' :: rest', s₂) := by
      rw [List.mapM_cons]
      exact (bind_run run₁).trans ((bind_run run₂).trans rfl)
    have hsplit : (ref' :: rest').filterMap id = ref'.toList ++ rest'.filterMap id := by
      cases ref' <;> rfl
    refine ⟨ref' :: rest', s₂, hrun, h₂.perm ?_⟩
    rw [hsplit, List.append_assoc]
    exact List.perm_append_comm_assoc _ _ _

/-- A node over copies of the children of another. -/
theorem copyNode_linked {f : Ref → Edit Ref}
    (hf : ∀ (s : Store) (hand : List NodeId) (ref : Ref), s.Linked loan hand →
      ∃ ref' s', f ref s = (ref', s') ∧ s'.Linked loan (ref'.toList ++ hand))
    {kind : Kind} {payload : Payload Ref} (hk : kind.form? = some payload.form) (flags : UInt32)
    (span : Span) (h : s.Linked loan hand) :
    ∃ ref s', (do
        let payload ← payload.mapSlotsM f
        return some (← add kind flags span payload)) s = (ref, s') ∧
      s'.Linked loan (ref.toList ++ hand) := by
  obtain ⟨refs, s₁, run₁, h₁⟩ := mapM_linked hf payload.slots h
  obtain ⟨payload', run, hslots, hform⟩ := mapSlotsM_run f payload s
  rw [run₁] at run hslots
  have hperm : (refs.filterMap id ++ hand).Perm (payload'.children ++ hand) := by
    rw [Payload.children, hslots]
  exact ⟨some s₁.size, _, (bind_run run).trans rfl,
    h₁.push flags span (by rw [hk, hform]) hperm⟩

/-- **A copy** is a node in hand, if it is one at all. -/
theorem copyWithin_linked (depth : Nat) (i : NodeId) (h : s.Linked loan hand) :
    ∃ ref s', copyWithin depth i s = (ref, s') ∧ s'.Linked loan (ref.toList ++ hand) := by
  induction depth generalizing i s hand with
  | zero => exact ⟨none, s, rfl, h⟩
  | succ depth ih =>
    rw [copyWithin, bind_run (get_run s)]
    cases hheader : s.header? i with
    | none => exact ⟨none, s, rfl, h⟩
    | some header =>
      cases hform : header.kind.form? with
      | none =>
        simp only [hform]
        exact ⟨some s.size, _, rfl, h.pushToken header.flags header.span hform⟩
      | some form =>
        simp only [hform]
        cases hp : s.payload? i with
        | none => exact ⟨none, s, rfl, h⟩
        | some payload =>
          have there : s.node? i = some ⟨header.kind, header.flags, header.span, some payload⟩ := by
            rw [node?, hheader, Option.map_some, hp]
          refine copyNode_linked (fun s hand ref h => ?_) (form_of_node? there rfl) _ _ h
          cases ref with
          | none => exact ⟨none, s, rfl, h⟩
          | some child => exact ih child h

end Edit
end Settle
