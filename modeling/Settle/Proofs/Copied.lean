import Settle.Proofs.Idempotence
import Settle.Proofs.Linked
import Settle.Proofs.Printed

/-! Copies are faithful and stand apart.

A copy is made while the store grows, so what it reads has to be there unchanged at each
step. `Store.Extends` says that of two stores: the later one has every header of the
earlier and everything that stood in its pools. `Copied` is the invariant of the
recursion. It speaks of a list of trees and their copies, since the slots of a node are
copied one after the other before the node itself: the copies are the same trees over
the ids from the old end of the store on, in the order in which they were made. A single
copy (`copyWithin_copied`) is a list of one.

Nothing is asked of the rest of the store. A node elsewhere whose address lies past the
end of its pool finds a payload there as soon as the pool has grown so far; every other
node keeps its own (`Extends.payload?_eq_iff`). -/
namespace Settle

/-! ### The order of making -/

/-- Says what its kind leads one to expect. -/
def Mark.Complete (mark : Mark) : Prop := mark.kind.form?.isSome → mark.detail.isSome

namespace Tree
variable {α : Type}

mutual
/-- The tags of a tree, each after those below it. -/
def postorder : Tree α → List α
  | .empty => []
  | .node tag _ slots => postorderAll slots ++ [tag]
def postorderAll : List (Tree α) → List α
  | [] => []
  | t :: rest => postorder t ++ postorderAll rest
end

theorem postorderAll_eq (slots : List (Tree α)) :
    postorderAll slots = slots.flatMap postorder := by
  induction slots with
  | nil => rfl
  | cons t rest ih => rw [postorderAll, ih, List.flatMap_cons]

theorem postorder_node (tag : α) (mark : Mark) (slots : List (Tree α)) :
    (node tag mark slots).postorder = slots.flatMap postorder ++ [tag] := by
  rw [postorder, postorderAll_eq]

theorem mem_postorder {t : Tree α} {tag : α} : tag ∈ t.postorder ↔ tag ∈ t.tags := by
  induction t with
  | empty => rfl
  | node tag' mark slots ih =>
    rw [postorder_node, tags_node, List.mem_append, List.mem_singleton, List.mem_cons,
      List.mem_flatMap, List.mem_flatMap, or_comm]
    exact or_congr_right (exists_congr fun t => and_congr_right fun ht => ih t ht)

/-- Every node of a kind that carries a payload has one. -/
def Complete (t : Tree α) : Prop := ∀ entry ∈ t.nodes, entry.2.Complete

theorem complete_node {tag : α} {mark : Mark} {slots : List (Tree α)} :
    (node tag mark slots).Complete ↔ mark.Complete ∧ ∀ t ∈ slots, t.Complete := by
  simp only [Complete, nodes, nodesAll_eq, List.mem_cons, List.mem_flatMap]
  constructor
  · intro h
    exact ⟨h _ (.inl rfl), fun t ht entry he => h entry (.inr ⟨t, ht, he⟩)⟩
  · rintro ⟨hmark, hslots⟩ entry (rfl | ⟨t, ht, he⟩)
    · exact hmark
    · exact hslots t ht entry he

theorem height_erase (t : Tree α) : t.erase.height = t.height := by
  induction t with
  | empty => rfl
  | node tag mark slots ih =>
    have hall : heightAll (slots.map erase) = heightAll slots := by
      clear mark
      induction slots with
      | nil => rfl
      | cons t rest ihrest =>
        rw [List.map_cons, heightAll, heightAll, ih t List.mem_cons_self,
          ihrest fun t ht => ih t (List.mem_cons_of_mem _ ht)]
    rw [erase_node, height, height, hall]

end Tree

namespace Store
variable {s s' s'' : Store} {i j : Nat}

/-! ### Stores that grow -/

/-- The later store has every node of the earlier one, and what stood in its pools. -/
structure Extends (s s' : Store) : Prop where
  grows : s.size ≤ s'.size
  header : ∀ j < s.size, s'.header? j = s.header? j
  pools : ∀ form k payload, s.pools.get? form k = some payload →
    s'.pools.get? form k = some payload

theorem Extends.refl (s : Store) : s.Extends s :=
  ⟨Nat.le_refl _, fun _ _ => rfl, fun _ _ _ h => h⟩

theorem Extends.trans (h : s.Extends s') (h' : s'.Extends s'') : s.Extends s'' where
  grows := Nat.le_trans h.grows h'.grows
  header := fun j hj => (h'.header j (Nat.lt_of_lt_of_le hj h.grows)).trans (h.header j hj)
  pools := fun form k payload hk => h'.pools form k payload (h.pools form k payload hk)

theorem extends_pushToken (s : Store) (kind : Kind) (flags : UInt32) (span : Span) :
    s.Extends (s.pushToken kind flags span) where
  grows := by
    rw [size_pushToken]
    exact Nat.le_succ _
  header := fun j hj => by rw [header?_pushToken, if_neg (Nat.ne_of_lt hj)]
  pools := fun _ _ _ h => h

theorem extends_push (s : Store) (kind : Kind) (flags : UInt32) (span : Span)
    (payload : Payload Ref) : s.Extends (s.push kind flags span payload) where
  grows := by
    rw [size_push]
    exact Nat.le_succ _
  header := fun j hj => by rw [header?_push, if_neg (Nat.ne_of_lt hj)]
  pools := fun form k old h => by
    have hlt : k < s.pools.size form := Pools.get?_isSome_iff.mp (by rw [h]; rfl)
    show (s.pools.add payload).get? form k = some old
    rw [Pools.get?_add, if_neg (fun hc => Nat.ne_of_lt hlt hc.2), h]

theorem Extends.address? (h : s.Extends s') (hj : j < s.size) : s'.address? j = s.address? j := by
  rw [Store.address?, h.header j hj, Store.address?]

theorem lt_size_of_payload? {payload : Payload Ref} (h : s.payload? j = some payload) :
    j < s.size := by
  obtain ⟨node, there, _⟩ := exists_node_of_payload? h
  exact lt_size_of_node? there

theorem Extends.payload? (h : s.Extends s') {payload : Payload Ref}
    (hp : s.payload? j = some payload) : s'.payload? j = some payload := by
  obtain ⟨place, haddress, hget⟩ := payload?_eq_some_iff.mp hp
  refine payload?_eq_some_iff.mpr ⟨place, ?_, h.pools _ _ _ hget⟩
  rw [h.address? (lt_size_of_payload? hp), haddress]

/-- The address of a node lies past the end of its pool, and within it later. -/
def Overtaken (s s' : Store) (j : NodeId) : Prop :=
  ∃ form place, s.address? j = some (form, place) ∧
    s.pools.size form ≤ place ∧ place < s'.pools.size form

/-- A node finds the payload that it found before, unless its pool has grown up to it: given that
what stood at its address still stands there. -/
theorem payload?_eq_iff_of_address (haddress : s'.address? j = s.address? j)
    (hkept : ∀ payload, s.payload? j = some payload → s'.payload? j = some payload) :
    s'.payload? j = s.payload? j ↔ ¬s.Overtaken s' j := by
  cases hp : s.payload? j with
  | some payload =>
    refine iff_of_true (hkept payload hp) ?_
    rintro ⟨form, place, haddress, hle, -⟩
    rw [Store.payload?, haddress, Option.bind_some] at hp
    have hlt : place < s.pools.size form := Pools.get?_isSome_iff.mp (by rw [hp]; rfl)
    omega
  | none =>
    rw [Store.payload?, haddress]
    cases haddress : s.address? j with
    | none =>
      refine iff_of_true rfl ?_
      rintro ⟨form, place, haddress', -⟩
      rw [haddress] at haddress'
      cases haddress'
    | some address =>
      rw [Store.payload?, haddress, Option.bind_some] at hp
      have hpast : s.pools.size address.1 ≤ address.2 := by
        by_contra hlt
        rw [Nat.not_le, ← Pools.get?_isSome_iff, hp] at hlt
        cases hlt
      rw [Option.bind_some, ← Option.not_isSome_iff_eq_none, Pools.get?_isSome_iff, not_iff_not]
      constructor
      · exact fun hlt => ⟨address.1, address.2, haddress, hpast, hlt⟩
      · rintro ⟨form, place, haddress', -, hlt⟩
        rw [haddress] at haddress'
        cases haddress'
        exact hlt

theorem Extends.payload?_eq_iff (h : s.Extends s') (hj : j < s.size) :
    s'.payload? j = s.payload? j ↔ ¬s.Overtaken s' j :=
  payload?_eq_iff_of_address (h.address? hj) fun _ => h.payload?

theorem Extends.node? (h : s.Extends s') {node : Node} (there : s.node? j = some node)
    (hc : node.mark.Complete) : s'.node? j = some node := by
  obtain ⟨header, hheader, rfl⟩ := Option.map_eq_some_iff.mp there
  rw [Store.node?, h.header j (lt_size_of_node? there), hheader, Option.map_some]
  cases hp : s.payload? j with
  | some payload => rw [h.payload? hp]
  | none =>
    -- a node of a kind without payload has no address, so the pools do not matter
    have hform : header.kind.form? = none := by
      cases hform : header.kind.form? with
      | none => rfl
      | some form =>
        have hdetail := hc (Option.isSome_iff_exists.mpr ⟨form, hform⟩)
        rw [Node.mark, hp] at hdetail
        cases hdetail
    have haddress : s'.address? j = none := by
      rw [h.address? (lt_size_of_node? there), Store.address?, hheader]
      simp [hform]
    rw [Store.payload?, haddress]
    rfl

theorem Holds.extend {t : Tree NodeId} (held : s.Holds t) (hc : t.Complete) (h : s.Extends s') :
    s'.Holds t := by
  induction held with
  | empty => exact .empty
  | node there names below ih =>
    obtain ⟨hmark, hslots⟩ := Tree.complete_node.mp hc
    exact .node (h.node? there hmark) names fun t ht => ih t ht (hslots t ht)

/-! ### New nodes -/

theorem node?_push_self (s : Store) {kind : Kind} (flags : UInt32) (span : Span)
    {payload : Payload Ref} (h : kind.form? = some payload.form) :
    (s.push kind flags span payload).node? s.size = some ⟨kind, flags, span, some payload⟩ := by
  rw [node?, header?_push, if_pos rfl, payload?_push_self s flags span h]
  rfl

theorem node?_pushToken_self (s : Store) (kind : Kind) (flags : UInt32) (span : Span) :
    (s.pushToken kind flags span).node? s.size = some ⟨kind, flags, span, none⟩ := by
  rw [node?, header?_pushToken, if_pos rfl, payload?_pushToken,
    payload?_of_header? (header?_size s)]
  rfl

theorem parent_push_self (hp : s.parents.size = s.size) (kind : Kind) (flags : UInt32)
    (span : Span) {payload : Payload Ref} (hself : s.size ∉ payload.children) :
    (s.push kind flags span payload).parent s.size = none := by
  have hnew : (s.parents.push none)[s.size]? = some none := by
    rw [← hp, Array.getElem?_push_size]
  rw [push, parent_adopt, if_neg fun h => hself (mem_payload_children.mpr h.1), parent, hnew]
  rfl

theorem parent_pushToken (s : Store) (kind : Kind) (flags : UInt32) (span : Span) (j : Nat) :
    (s.pushToken kind flags span).parent j = s.parent j := by
  show ((s.parents.push none)[j]?).join = (s.parents[j]?).join
  rw [Array.getElem?_push]
  split
  · rename_i hj
    rw [hj, Array.getElem?_eq_none (Nat.le_refl _)]
    rfl
  · rfl

theorem size_parents_push (hp : s.parents.size = s.size) (kind : Kind) (flags : UInt32)
    (span : Span) (payload : Payload Ref) :
    (s.push kind flags span payload).parents.size = (s.push kind flags span payload).size := by
  rw [push, size_parents_adopt, Array.size_push, hp]
  exact (size_push s kind flags span payload).symm

theorem size_parents_pushToken (hp : s.parents.size = s.size) (kind : Kind) (flags : UInt32)
    (span : Span) :
    (s.pushToken kind flags span).parents.size = (s.pushToken kind flags span).size := by
  rw [pushToken, Array.size_push, hp]
  exact (size_pushToken s kind flags span).symm

/-! ### Copies -/

/-- Below the top of a tree each node names the one that it stands in as its parent. -/
inductive Parented (s : Store) : Tree NodeId → Prop where
  | empty : Parented s .empty
  | node {i : NodeId} {mark : Mark} {slots : List (Tree NodeId)}
      (links : ∀ t ∈ slots, ∀ c, t.ref = some c → s.parent c = some i)
      (below : ∀ t ∈ slots, s.Parented t) : Parented s (.node i mark slots)

theorem Parented.frame {t : Tree NodeId} (h : s.Parented t)
    (hs : ∀ c ∈ t.tags, ∀ p, s.parent c = some p → s'.parent c = some p) : s'.Parented t := by
  induction h with
  | empty => exact .empty
  | node links below ih =>
    refine .node (fun t ht c href => ?_) fun t ht => ih t ht fun c hc => ?_
    · exact hs c (Tree.mem_tags_node ht (Tree.mem_tags_of_ref href)) _ (links t ht c href)
    · exact hs c (Tree.mem_tags_node ht hc)

/-- The later store has copies of trees, made one after the other from the end of the earlier one
on. -/
structure Copied (s s' : Store) (ts ts' : List (Tree NodeId)) : Prop where
  keeps : s.Extends s'
  aligned : s'.parents.size = s'.size
  parent : ∀ j < s.size, s'.parent j = s.parent j
  same : ts'.map Tree.erase = ts.map Tree.erase
  held : ∀ t ∈ ts', s'.Holds t
  complete : ∀ t ∈ ts', t.Complete
  size : s'.size = s.size + (ts.flatMap Tree.tags).length
  order : ts'.flatMap Tree.postorder = List.range' s.size (ts.flatMap Tree.tags).length
  parented : ∀ t ∈ ts', s'.Parented t
  free : ∀ t ∈ ts', ∀ i, t.ref = some i → s'.parent i = none

theorem Copied.nil (hp : s.parents.size = s.size) : Copied s s [] [] where
  keeps := .refl s
  aligned := hp
  parent := fun _ _ => rfl
  same := rfl
  held := fun _ ht => absurd ht List.not_mem_nil
  complete := fun _ ht => absurd ht List.not_mem_nil
  size := rfl
  order := rfl
  parented := fun _ ht => absurd ht List.not_mem_nil
  free := fun _ ht => absurd ht List.not_mem_nil

theorem Copied.empty (hp : s.parents.size = s.size) : Copied s s [.empty] [.empty] where
  keeps := .refl s
  aligned := hp
  parent := fun _ _ => rfl
  same := rfl
  held := List.forall_mem_singleton.mpr .empty
  complete := List.forall_mem_singleton.mpr fun _ h => absurd h List.not_mem_nil
  size := rfl
  order := rfl
  parented := List.forall_mem_singleton.mpr .empty
  free := List.forall_mem_singleton.mpr fun i hi => by cases hi

/-- The ids of copies begin where the earlier store ends. -/
theorem Copied.size_le {ts ts' : List (Tree NodeId)} (h : Copied s s' ts ts') {t : Tree NodeId}
    (ht : t ∈ ts') {i : Nat} (hi : i ∈ t.tags) : s.size ≤ i := by
  have hmem : i ∈ ts'.flatMap Tree.postorder :=
    List.mem_flatMap.mpr ⟨t, ht, Tree.mem_postorder.mpr hi⟩
  rw [h.order, List.mem_range'_1] at hmem
  exact hmem.1

theorem Copied.cons {t t' : Tree NodeId} {ts ts' : List (Tree NodeId)}
    (h : Copied s s' [t] [t']) (hrest : Copied s' s'' ts ts') :
    Copied s s'' (t :: ts) (t' :: ts') where
  keeps := h.keeps.trans hrest.keeps
  aligned := hrest.aligned
  parent := fun j hj =>
    (hrest.parent j (Nat.lt_of_lt_of_le hj h.keeps.grows)).trans (h.parent j hj)
  same := by
    rw [List.map_cons, List.map_cons, hrest.same, List.singleton_inj.mp h.same]
  held := List.forall_mem_cons.mpr
    ⟨(h.held t' List.mem_cons_self).extend (h.complete t' List.mem_cons_self) hrest.keeps,
      hrest.held⟩
  complete := List.forall_mem_cons.mpr ⟨h.complete t' List.mem_cons_self, hrest.complete⟩
  size := by
    rw [hrest.size, h.size, List.flatMap_cons, List.flatMap_cons, List.flatMap_nil, List.append_nil,
      List.length_append, Nat.add_assoc]
  order := by
    have hfirst := h.order
    rw [List.flatMap_singleton, List.flatMap_singleton] at hfirst
    rw [List.flatMap_cons, hfirst, hrest.order, h.size, List.flatMap_singleton, List.flatMap_cons,
      List.length_append, List.range'_append_1]
  parented := by
    refine List.forall_mem_cons.mpr ⟨?_, hrest.parented⟩
    refine (h.parented t' List.mem_cons_self).frame fun c hc p hparent => ?_
    rw [hrest.parent c ((h.held t' List.mem_cons_self).lt_size c hc), hparent]
  free := List.forall_mem_cons.mpr ⟨fun i hi => by
      have hlt := (h.held t' List.mem_cons_self).lt_size i (Tree.mem_tags_of_ref hi)
      rw [hrest.parent i hlt, h.free t' List.mem_cons_self i hi], hrest.free⟩

theorem Copied.token (hp : s.parents.size = s.size) {kind : Kind} (flags : UInt32) (span : Span)
    (hform : kind.form? = none) (i : NodeId) :
    Copied s (s.pushToken kind flags span) [.node i (Node.mark ⟨kind, flags, span, none⟩) []]
      [.node s.size (Node.mark ⟨kind, flags, span, none⟩) []] where
  keeps := extends_pushToken s kind flags span
  aligned := size_parents_pushToken hp kind flags span
  parent := fun j _ => parent_pushToken s kind flags span j
  same := rfl
  held := List.forall_mem_singleton.mpr
    (.node (node?_pushToken_self s kind flags span) rfl fun _ ht => absurd ht List.not_mem_nil)
  complete := List.forall_mem_singleton.mpr <| Tree.complete_node.mpr ⟨fun h => by
    rw [Node.mark, hform] at h
    exact absurd h Bool.false_ne_true, fun _ ht => absurd ht List.not_mem_nil⟩
  size := size_pushToken s kind flags span
  order := rfl
  parented := List.forall_mem_singleton.mpr
    (.node (fun _ ht => absurd ht List.not_mem_nil) fun _ ht => absurd ht List.not_mem_nil)
  free := List.forall_mem_singleton.mpr fun j hj => by
    obtain rfl := Option.some.inj hj
    rw [parent_pushToken, Store.parent, Array.getElem?_eq_none (Nat.le_of_eq hp)]
    rfl

/-- A node over copies of the slots of another. -/
theorem Copied.node {slots slots' : List (Tree NodeId)} (h : Copied s s' slots slots') {kind : Kind}
    (flags : UInt32) (span : Span) {payload payload' : Payload Ref}
    (hform : kind.form? = some payload'.form) (hdetail : payload'.detail = payload.detail)
    (hslots : payload'.slots = slots'.map Tree.ref) (i : NodeId) :
    Copied s (s'.push kind flags span payload')
      [.node i (Node.mark ⟨kind, flags, span, some payload⟩) slots]
      [.node s'.size (Node.mark ⟨kind, flags, span, some payload'⟩) slots'] := by
  have hchild : ∀ c : Nat, c ∈ payload'.children ↔ ∃ t ∈ slots', t.ref = some c := by
    intro c
    rw [mem_payload_children, hslots, List.mem_map]
  have hlt : ∀ c : Nat, c ∈ payload'.children → c < s'.size := by
    intro c hc
    obtain ⟨t, ht, href⟩ := (hchild c).mp hc
    exact (h.held t ht).lt_size c (Tree.mem_tags_of_ref href)
  have hlength : ([Tree.node i (Node.mark ⟨kind, flags, span, some payload⟩) slots].flatMap
      Tree.tags).length = (slots.flatMap Tree.tags).length + 1 := by
    rw [List.flatMap_singleton, Tree.tags_node, List.length_cons]
  have hpush := extends_push s' kind flags span payload'
  refine ⟨h.keeps.trans hpush, size_parents_push h.aligned kind flags span payload',
    fun j hj => ?_, ?_, ?_, ?_, ?_, ?_, ?_, ?_⟩
  · -- the new parent is that of copies only
    have hother : j ∉ payload'.children := by
      intro hc
      obtain ⟨t, ht, href⟩ := (hchild j).mp hc
      exact Nat.not_lt_of_le (h.size_le ht (Tree.mem_tags_of_ref href)) hj
    rw [parent_push h.aligned _ _ _ _ (Nat.lt_of_lt_of_le hj h.keeps.grows), if_neg hother,
      h.parent j hj]
  · rw [List.map_singleton, List.map_singleton, Tree.erase_node, Tree.erase_node, h.same, Node.mark,
      Node.mark, Option.map_some, Option.map_some, hdetail]
  · refine List.forall_mem_singleton.mpr (.node (node?_push_self s' flags span hform) hslots ?_)
    exact fun t ht => (h.held t ht).extend (h.complete t ht) hpush
  · exact List.forall_mem_singleton.mpr (Tree.complete_node.mpr ⟨fun _ => rfl, h.complete⟩)
  · rw [size_push, h.size, hlength, Nat.add_assoc]
  · rw [hlength, List.range'_1_concat, List.flatMap_singleton, Tree.postorder_node, h.order, h.size]
  · refine List.forall_mem_singleton.mpr (.node (fun t ht c href => ?_) fun t ht => ?_)
    · have hc := (hchild c).mpr ⟨t, ht, href⟩
      rw [parent_push h.aligned _ _ _ _ (hlt c hc), if_pos hc]
    · -- a node with a parent is not one of those that get one
      refine (h.parented t ht).frame fun c hc p hparent => ?_
      have hother : c ∉ payload'.children := by
        intro hmem
        obtain ⟨t, ht, href⟩ := (hchild c).mp hmem
        rw [h.free t ht c href] at hparent
        cases hparent
      rw [parent_push h.aligned _ _ _ _ ((h.held t ht).lt_size c hc), if_neg hother, hparent]
  · refine List.forall_mem_singleton.mpr fun j hj => ?_
    obtain rfl := Option.some.inj hj
    exact parent_push_self h.aligned kind flags span fun hself => Nat.lt_irrefl _ (hlt _ hself)

end Store

namespace Edit
variable {s₀ s : Store}

open Store

theorem detail_mapSlotsM (f : Ref → Edit Ref) (payload : Payload Ref) (s : Store) :
    (payload.mapSlotsM f s).1.detail = payload.detail := by
  cases payload <;> rfl

/-- Filling the slots of a payload goes by the list of its slots. -/
theorem mapSlotsM_eq_iff {f : Ref → Edit Ref} {payload payload' : Payload Ref} {s s' : Store} :
    payload.mapSlotsM f s = (payload', s') ↔
      payload.slots.mapM f s = (payload'.slots, s') ∧ payload'.detail = payload.detail := by
  obtain ⟨filled, hrun, hslots, _⟩ := mapSlotsM_run f payload s
  have hdetail := detail_mapSlotsM f payload s
  rw [hrun] at hdetail ⊢
  constructor
  · intro h
    cases h
    exact ⟨Prod.ext hslots.symm rfl, hdetail⟩
  · rintro ⟨hmap, hdetail'⟩
    rw [hmap] at hslots ⊢
    obtain rfl : filled = payload' := Payload.ext_detail (hdetail.trans hdetail'.symm) hslots
    rfl

/-- Trees copied one after the other. -/
theorem mapM_copied {f : Ref → Edit Ref} {ts : List (Tree NodeId)}
    (hf : ∀ t ∈ ts, ∀ s, s₀.Extends s → s.parents.size = s.size →
      ∃ t' s', f t.ref s = (t'.ref, s') ∧ Copied s s' [t] [t'])
    (hs : s₀.Extends s) (hp : s.parents.size = s.size) :
    ∃ ts' s', (ts.map Tree.ref).mapM f s = (ts'.map Tree.ref, s') ∧ Copied s s' ts ts' := by
  induction ts generalizing s with
  | nil => exact ⟨[], s, rfl, .nil hp⟩
  | cons t rest ih =>
    obtain ⟨t', s₁, run₁, h₁⟩ := hf t List.mem_cons_self s hs hp
    obtain ⟨rest', s₂, run₂, h₂⟩ :=
      ih (fun t ht => hf t (List.mem_cons_of_mem _ ht)) (hs.trans h₁.keeps) h₁.aligned
    refine ⟨t' :: rest', s₂, ?_, h₁.cons h₂⟩
    rw [List.map_cons, List.mapM_cons]
    exact (bind_run run₁).trans ((bind_run run₂).trans rfl)

theorem copyWithin_token {depth : Nat} {i : NodeId} {kind : Kind} {flags : UInt32} {span : Span}
    {payload : Option (Payload Ref)} (there : s.node? i = some ⟨kind, flags, span, payload⟩)
    (hform : kind.form? = none) :
    copyWithin (depth + 1) i s = (some s.size, s.pushToken kind flags span) := by
  obtain ⟨header, hheader, hnode⟩ := Option.map_eq_some_iff.mp there
  obtain ⟨rfl, rfl, rfl, _⟩ := Node.mk.inj hnode
  rw [copyWithin, bind_run (get_run s), hheader]
  simp only [hform]
  rfl

/-- A node that should carry something and does not is not copied. -/
theorem copyWithin_bare {depth : Nat} {i : NodeId} {kind : Kind} {flags : UInt32} {span : Span}
    (there : s.node? i = some ⟨kind, flags, span, none⟩) (hform : kind.form?.isSome) :
    copyWithin (depth + 1) i s = (none, s) := by
  obtain ⟨header, hheader, hnode⟩ := Option.map_eq_some_iff.mp there
  obtain ⟨rfl, rfl, rfl, hpayload⟩ := Node.mk.inj hnode
  obtain ⟨form, hform⟩ := Option.isSome_iff_exists.mp hform
  rw [copyWithin, bind_run (get_run s), hheader]
  simp only [hform, hpayload]
  rfl

/-- Copies what stands in a slot. -/
def copySlot (depth : Nat) (slot : Ref) : Edit Ref := slot.elim (pure none) (copyWithin depth)

/-- The slots are copied before the node. -/
theorem copyWithin_node {depth : Nat} {i : NodeId} {kind : Kind} {flags : UInt32} {span : Span}
    {payload payload' : Payload Ref} {s' : Store}
    (there : s.node? i = some ⟨kind, flags, span, some payload⟩)
    (hrun : payload.mapSlotsM (copySlot depth) s = (payload', s')) :
    copyWithin (depth + 1) i s = (some s'.size, s'.push kind flags span payload') := by
  obtain ⟨header, hheader, hnode⟩ := Option.map_eq_some_iff.mp there
  obtain ⟨rfl, rfl, rfl, hpayload⟩ := Node.mk.inj hnode
  rw [copyWithin, bind_run (get_run s), hheader]
  simp only [form_of_node? there rfl, hpayload]
  refine bind_run (Eq.trans (congrFun (congrArg payload.mapSlotsM ?_) s) hrun)
  funext slot
  cases slot <;> rfl

theorem mapM_keeps {P : Store → Prop} {f : Ref → Edit Ref}
    (hf : ∀ ref s, P s → P (f ref s).2) (refs : List Ref) (hs : P s) :
    P (refs.mapM f s).2 := by
  induction refs generalizing s with
  | nil => exact hs
  | cons ref rest ih =>
    rw [List.mapM_cons]
    exact ih (hf ref s hs)

/-- **A copy only makes nodes**, each of a kind that fits what it carries: it keeps whatever making
such a node keeps. -/
theorem copyWithin_keeps {P : Store → Prop}
    (htoken : ∀ s kind flags span, P s → kind.form? = none → P (s.pushToken kind flags span))
    (hnode : ∀ s kind flags span payload, P s → kind.form? = some payload.form →
      P (s.push kind flags span payload))
    (depth : Nat) (i : NodeId) (hs : P s) : P (copyWithin depth i s).2 := by
  induction depth generalizing i s with
  | zero => exact hs
  | succ depth ih =>
    cases there : s.node? i with
    | none =>
      have hheader : s.header? i = none := Option.map_eq_none_iff.mp there
      rw [copyWithin, bind_run (get_run s), hheader]
      exact hs
    | some node =>
      obtain ⟨kind, flags, span, payload⟩ := node
      cases payload with
      | some payload =>
        obtain ⟨payload', hrun, _, hform'⟩ := mapSlotsM_run (copySlot depth) payload s
        have hslots : P (payload.slots.mapM (copySlot depth) s).2 := by
          refine mapM_keeps (fun ref s hs => ?_) payload.slots hs
          cases ref with
          | none => exact hs
          | some child => exact ih child hs
        rw [copyWithin_node there hrun]
        exact hnode _ kind flags span payload' hslots (by rw [hform', form_of_node? there rfl])
      | none =>
        cases hform : kind.form? with
        | none =>
          rw [copyWithin_token there hform]
          exact htoken s kind flags span hs hform
        | some form =>
          rw [copyWithin_bare there (by rw [hform]; rfl)]
          exact hs

/-- **A copy of a tree**, in any store that has grown out of the one where the tree is held. -/
theorem copyWithin_copied {t : Tree NodeId} (held : s₀.Holds t) (hc : t.Complete) {depth : Nat}
    (hd : t.height ≤ depth) {i : NodeId} (hi : t.ref = some i) (hs : s₀.Extends s)
    (hp : s.parents.size = s.size) :
    ∃ t' s', copyWithin depth i s = (t'.ref, s') ∧ Copied s s' [t] [t'] := by
  induction t generalizing depth i s with
  | empty => cases hi
  | node tag mark slots ih =>
    obtain rfl := Option.some.inj hi
    obtain ⟨⟨kind, flags, span, payload⟩, there, rfl, names, below⟩ := holds_node_iff.mp held
    obtain ⟨hmark, hslots⟩ := Tree.complete_node.mp hc
    cases depth with
    | zero => cases hd
    | succ depth =>
      have hnode := hs.node? there hmark
      cases payload with
      | none =>
        have hform : kind.form? = none := by
          cases hform : kind.form? with
          | none => rfl
          | some form => cases hmark (by rw [Node.mark, hform]; rfl)
        obtain rfl : slots = [] := List.map_eq_nil_iff.mp names.symm
        exact ⟨_, _, copyWithin_token hnode hform, .token hp flags span hform tag⟩
      | some payload =>
        have hslot : ∀ t ∈ slots, ∀ s, s₀.Extends s → s.parents.size = s.size →
            ∃ t' s', copySlot depth t.ref s = (t'.ref, s') ∧ Copied s s' [t] [t'] := by
          intro t ht s hs hp
          cases t with
          | empty => exact ⟨.empty, s, rfl, .empty hp⟩
          | node child mark below' =>
            have hheight := Nat.le_trans (Tree.height_le_heightAll ht) (Nat.le_of_succ_le_succ hd)
            exact ih _ ht (below _ ht) (hslots _ ht) hheight rfl hs hp
        obtain ⟨slots', s₁, hslotsRun, hcopied⟩ := mapM_copied hslot hs hp
        obtain ⟨payload', hpayloadRun, hslots', hform⟩ := mapSlotsM_run (copySlot depth) payload s
        have hdetail := detail_mapSlotsM (copySlot depth) payload s
        have hnames : payload.slots = slots.map Tree.ref := names
        rw [hpayloadRun] at hdetail
        rw [hnames, hslotsRun] at hpayloadRun hslots'
        refine ⟨.node s₁.size (Node.mark ⟨kind, flags, span, some payload'⟩) slots', _,
          copyWithin_node hnode hpayloadRun, hcopied.node flags span ?_ hdetail hslots' tag⟩
        rw [form_of_node? there rfl, hform]

end Edit

/-! ### What can be copied -/

namespace Store
variable {s s' : Store} {i j : Nat}

/-- From a node downwards all that is named exists and is whole, and no way leads back to where it
began. -/
structure Copyable (s : Store) (i : NodeId) : Prop where
  exist : ∀ j : Nat, s.Reaches i j → j < s.size
  carried : ∀ j kind, s.Reaches i j → s.kind? j = some kind → kind.form?.isSome →
    (s.payload? j).isSome
  acyclic : ∀ j, s.Reaches i j → ¬Relation.TransGen (fun i j => j ∈ s.children i) j j

theorem exists_map_ref {P : Tree NodeId → Prop} {refs : List Ref}
    (h : ∀ ref ∈ refs, ∃ t : Tree NodeId, t.ref = ref ∧ P t) :
    ∃ ts : List (Tree NodeId), refs = ts.map Tree.ref ∧ ∀ t ∈ ts, P t := by
  induction refs with
  | nil => exact ⟨[], rfl, fun _ ht => absurd ht List.not_mem_nil⟩
  | cons ref rest ih =>
    obtain ⟨t, rfl, ht⟩ := h ref List.mem_cons_self
    obtain ⟨ts, rfl, hts⟩ := ih fun ref href => h ref (List.mem_cons_of_mem _ href)
    exact ⟨t :: ts, rfl, List.forall_mem_cons.mpr ⟨ht, hts⟩⟩

/-- A tree of the height that is left stands below each node. -/
theorem Copyable.exists_holds (h : s.Copyable i) (depth : Nat) {j : Nat} (hj : s.Reaches i j)
    (hbounded : s.Bounded depth j) :
    ∃ t : Tree NodeId, t.ref = some j ∧ s.Holds t ∧ t.Complete ∧ t.height ≤ depth := by
  obtain ⟨node, there⟩ := node?_of_lt_size (h.exist j hj)
  induction depth generalizing j node with
  | zero => exact absurd ((kind?_of_node? there).symm.trans hbounded) (Option.some_ne_none _)
  | succ depth ih =>
    have hslot : ∀ ref ∈ node.slots,
        ∃ t : Tree NodeId, t.ref = ref ∧ s.Holds t ∧ t.Complete ∧ t.height ≤ depth := by
      intro ref href
      cases ref with
      | none =>
        exact ⟨.empty, rfl, .empty, fun _ hentry => absurd hentry List.not_mem_nil, Nat.zero_le _⟩
      | some c =>
        have hc : c ∈ s.children j := by
          rw [children_of_node? there]
          exact List.mem_filterMap.mpr ⟨some c, href, rfl⟩
        obtain ⟨child, hchild⟩ := node?_of_lt_size (h.exist c (hj.tail hc))
        exact ih (hj.tail hc) (hbounded c hc) child hchild
    obtain ⟨slots, names, hslots⟩ := exists_map_ref hslot
    refine ⟨.node j node.mark slots, rfl, .node there names fun t ht => (hslots t ht).1, ?_, ?_⟩
    · refine Tree.complete_node.mpr ⟨fun hform => ?_, fun t ht => (hslots t ht).2.1⟩
      have hcarried := h.carried j node.kind hj (kind?_of_node? there) hform
      rw [payload?_of_node? there] at hcarried
      rwa [Node.mark, Option.isSome_map]
    · exact Nat.succ_le_succ (Tree.heightAll_le fun t ht => (hslots t ht).2.2)

theorem Copyable.exists_tree (h : s.Copyable i) :
    ∃ t : Tree NodeId, t.ref = some i ∧ s.Holds t ∧ t.Complete ∧ t.height ≤ s.size :=
  h.exists_holds s.size .refl (Acyclic.bounded h.acyclic)

/-! ### The copy -/

theorem Parented.child {t : Tree NodeId} (h : s.Parented t) (held : s.Holds t) (hj : j ∈ t.tags)
    {c : NodeId} (hc : c ∈ s.children j) : s.parent c = some j := by
  induction h with
  | empty => cases hj
  | node links below ih =>
    rw [Tree.tags_node, List.mem_cons, List.mem_flatMap] at hj
    rcases hj with rfl | ⟨t, ht, hj⟩
    · rw [held.children] at hc
      obtain ⟨t, ht, href⟩ := List.mem_filterMap.mp hc
      exact links t ht c href
    · obtain ⟨_, _, _, _, hbelow⟩ := holds_node_iff.mp held
      exact ih t ht (hbelow t ht) hj

/-- The top of a copy is made last. -/
theorem Copied.last {ts : List (Tree NodeId)} {t' : Tree NodeId} (h : Copied s s' ts [t'])
    {clone : Nat} (hclone : t'.ref = some clone) : clone + 1 = s'.size := by
  cases t' with
  | empty => cases hclone
  | node tag mark slots' =>
    obtain rfl := Option.some.inj hclone
    have horder := h.order
    rw [List.flatMap_singleton, Tree.postorder_node] at horder
    cases hlength : (ts.flatMap Tree.tags).length with
    | zero =>
      rw [hlength] at horder
      exact absurd horder (List.append_ne_nil_of_right_ne_nil _ (List.cons_ne_nil _ _))
    | succ n =>
      rw [hlength, List.range'_1_concat] at horder
      have hlast := List.singleton_inj.mp (List.append_inj_right' horder rfl)
      rw [h.size, hlength, hlast, Nat.add_assoc]

theorem Copied.exists_ref {t t' : Tree NodeId} (h : Copied s s' [t] [t']) (hi : t.ref = some i) :
    ∃ clone, t'.ref = some clone := by
  have hsame : t'.erase = t.erase := List.singleton_inj.mp h.same
  cases t with
  | empty => cases hi
  | node tag mark slots =>
    cases t' with
    | empty => cases hsame
    | node clone mark' slots' => exact ⟨clone, rfl⟩

/-- The tree at a node and a copy of it in the store that copying leaves. -/
structure CopyOf (s : Store) (i : NodeId) (s' : Store) (clone : Nat) (t t' : Tree NodeId) :
    Prop where
  original : s.tree? s.size (some i) = some t
  copy : s'.tree? s'.size (some clone) = some t'
  same : t'.erase = t.erase
  print : s'.print clone = s.print i
  last : clone + 1 = s'.size
  size : s'.size = s.size + t.tags.length
  order : t'.postorder = List.range' s.size t.tags.length
  links : ∀ j, s.size ≤ j → ∀ c : Nat, c ∈ s'.children j →
    s.size ≤ c ∧ c < s'.size ∧ s'.parent c = some j
  free : s'.parent clone = none
  header : ∀ j < s.size, s'.header? j = s.header? j
  parent : ∀ j < s.size, s'.parent j = s.parent j
  payload : ∀ j < s.size, s'.payload? j = s.payload? j ↔ ¬s.Overtaken s' j

theorem Copied.copyOf {t t' : Tree NodeId} (h : Copied s s' [t] [t']) (held : s.Holds t)
    (hd : t.height ≤ s.size) (hi : t.ref = some i) {clone : Nat} (hclone : t'.ref = some clone) :
    CopyOf s i s' clone t t' := by
  have held' := h.held t' List.mem_cons_self
  have hsame : t'.erase = t.erase := List.singleton_inj.mp h.same
  have hsize : s'.size = s.size + t.tags.length := by rw [h.size, List.flatMap_singleton]
  have horder : t'.postorder = List.range' s.size t.tags.length := by
    rw [← List.flatMap_singleton Tree.postorder, h.order, List.flatMap_singleton]
  have hd' : t'.height ≤ s'.size := by
    rw [← t'.height_erase, hsame, t.height_erase]
    exact Nat.le_trans hd h.keeps.grows
  have hnew : ∀ j : Nat, s.size ≤ j → j < s'.size → j ∈ t'.tags := by
    intro j hj hlt
    rw [← Tree.mem_postorder, horder, List.mem_range'_1]
    omega
  refine ⟨hi ▸ held.tree? hd, hclone ▸ held'.tree? hd', hsame,
    held'.print_eq held hsame hclone hi hd' hd, h.last hclone, hsize, horder, fun j hj c hc => ?_,
    h.free t' List.mem_cons_self clone hclone, h.keeps.header, h.parent,
    fun j hj => h.keeps.payload?_eq_iff hj⟩
  have hjtags : j ∈ t'.tags := by
    refine hnew j hj ?_
    by_contra hge
    rw [children_eq, node?_eq_none (Nat.le_of_not_lt hge)] at hc
    cases hc
  have hctags := held'.mem_of_mem_children hjtags hc
  exact ⟨h.size_le List.mem_cons_self hctags, held'.lt_size c hctags,
    (h.parented t' List.mem_cons_self).child held' hjtags hc⟩

/-- **A copy is faithful and stands apart.** -/
theorem copy_faithful (hp : s.parents.size = s.size) (h : s.Copyable i) :
    ∃ clone s' t t', Edit.copy i s = (some clone, s') ∧ CopyOf s i s' clone t t' := by
  obtain ⟨t, hi, held, hcomplete, hd⟩ := h.exists_tree
  obtain ⟨t', s', hrun, hcopied⟩ := Edit.copyWithin_copied held hcomplete
    (Nat.le_trans hd (Nat.le_add_right s.size Edit.idBound)) hi (.refl s) hp
  obtain ⟨clone, hclone⟩ := hcopied.exists_ref hi
  refine ⟨clone, s', t, t', ?_, hcopied.copyOf held hd hi hclone⟩
  rw [Edit.copy_run, hrun, hclone]

theorem Layered.copyable (h : s.Layered i) : s.Copyable i :=
  ⟨h.exist, fun j kind _ => h.sound.carried j kind, h.acyclic⟩

/-- A node with two parents is copied twice. -/
theorem copy_faithful_sharedAsync :
    sharedAsync.parents.size = sharedAsync.size ∧ sharedAsync.Copyable 5 ∧
      ∃ clone s' t t', Edit.copy 5 sharedAsync = (some clone, s') ∧
        CopyOf sharedAsync 5 s' clone t t' :=
  ⟨rfl, layered_sharedAsync.copyable, copy_faithful rfl layered_sharedAsync.copyable⟩

/-- Two literals and an identifier. The second literal has the kind of an identifier, so that its
place is one past the end of the pool where it is looked for. -/
def misplaced : Store :=
  ({} : Store)
    |>.push (.literal .string) 0 .zero (.literal "a")
    |>.push .identifier 0 .zero (.literal "b")
    |>.push .identifier 0 .zero (.identifier "x")

theorem copyable_misplaced : misplaced.Copyable 2 := by
  have hleaf : misplaced.children 2 = [] := rfl
  refine ⟨fun j hj => ?_, fun j kind hj _ _ => ?_, acyclic_of_leaf hleaf⟩
  · rw [eq_of_reaches_leaf hleaf hj]
    decide
  · rw [eq_of_reaches_leaf hleaf hj]
    rfl

/-- **A copy can change what another node carries**: the copy of the identifier stands where the
misplaced literal looks. -/
theorem copy_overtakes_misplaced :
    misplaced.parents.size = misplaced.size ∧ misplaced.Copyable 2 ∧ misplaced.payload? 1 = none ∧
      (Edit.copy 2 misplaced).2.payload? 1 = some (.identifier "x") :=
  ⟨rfl, copyable_misplaced, rfl, by decide +kernel⟩

end Store
end Settle
