import Settle.Proofs.Copied

/-! Stores that grow around one change.

While a program is asked for references, its store changes in two ways. Nodes are made, whose
children were made shortly before (`Builds`): an import, an identifier, a copy of anything. And
the list of statements of the root is written anew, at the one address where it stands.

`Amends` says what this leaves alone, for stores that may be ill formed in every way: kinds that do
not fit, payloads that are shared, references that name nothing yet. `Tidy` is what a store that
has grown out of another keeps to: what was made since stands where nothing stood before, and
names only what was made since, and of this not the nodes that were given away as answers. -/
namespace Settle

/-- A node of a kind that goes with its payload, the children of which are between two ids. -/
structure Node.Fits (node : Node) (low high : Nat) : Prop where
  form : node.kind.form? = node.payload.map Payload.form
  children : ∀ c ∈ node.children, low ≤ c ∧ c < high

theorem Node.complete_of_form {node : Node}
    (h : node.kind.form? = node.payload.map Payload.form) : node.mark.Complete := by
  intro hsome
  change node.kind.form?.isSome at hsome
  rw [h, Option.isSome_map] at hsome
  rwa [Node.mark, Option.isSome_map]

namespace Store
variable {s s' s'' start : Store} {home : Form × Nat} {low : Nat} {node : Node}

/-! ### One more node -/

/-- Makes a node. -/
def grow (s : Store) (node : Node) : Store :=
  match node.payload with
  | none => s.pushToken node.kind node.flags node.span
  | some payload => s.push node.kind node.flags node.span payload

theorem size_grow (s : Store) (node : Node) : (s.grow node).size = s.size + 1 := by
  unfold grow
  split
  · exact size_pushToken s _ _ _
  · exact size_push s _ _ _ _

theorem extends_grow (s : Store) (node : Node) : s.Extends (s.grow node) := by
  unfold grow
  split
  · exact extends_pushToken s _ _ _
  · exact extends_push s _ _ _ _

theorem aligned_grow (h : s.parents.size = s.size) (node : Node) :
    (s.grow node).parents.size = (s.grow node).size := by
  unfold grow
  split
  · exact size_parents_pushToken h _ _ _
  · exact size_parents_push h _ _ _ _

theorem node?_grow (s : Store) (h : node.kind.form? = node.payload.map Payload.form) :
    (s.grow node).node? s.size = some node := by
  obtain ⟨kind, flags, span, payload⟩ := node
  cases payload with
  | none => exact node?_pushToken_self s kind flags span
  | some payload => exact node?_push_self s flags span h

theorem parent_grow (h : s.parents.size = s.size) {c : NodeId} (hc : c < s.size) :
    (s.grow node).parent c = if c ∈ node.children then some s.size else s.parent c := by
  obtain ⟨kind, flags, span, payload⟩ := node
  cases payload with
  | none => exact parent_pushToken s kind flags span c
  | some payload => exact parent_push h kind flags span payload hc

/-- What a pool has gained with a node is what the node carries. -/
theorem get?_grow {form : Form} {k : Nat} {payload : Payload Ref}
    (h : (s.grow node).pools.get? form k = some payload) :
    s.pools.get? form k = some payload ∨ node.payload = some payload := by
  obtain ⟨kind, flags, span, carried⟩ := node
  cases carried with
  | none => exact .inl h
  | some carried =>
    change (s.pools.add carried).get? form k = some payload at h
    rw [Pools.get?_add] at h
    split at h
    · exact .inr h
    · exact .inl h

theorem size_pools_grow (s : Store) (node : Node) (form : Form) :
    s.pools.size form ≤ (s.grow node).pools.size form := by
  unfold grow
  split
  · exact Nat.le_refl _
  · show _ ≤ (s.pools.add _).size form
    rw [Pools.size_add]
    exact Nat.le_add_right _ _

/-- The address of a node that was just made is the new end of its pool. -/
theorem address?_grow {form : Form} {k : Nat}
    (hform : node.kind.form? = node.payload.map Payload.form)
    (h : (s.grow node).address? s.size = some (form, k)) :
    s.pools.size form = k ∧ k < (s.grow node).pools.size form := by
  obtain ⟨kind, flags, span, carried⟩ := node
  cases carried with
  | none =>
    change (s.pushToken kind flags span).address? s.size = _ at h
    rw [address?_pushToken, Store.address?, header?_size] at h
    cases h
  | some carried =>
    change (s.push kind flags span carried).address? s.size = _ at h
    rw [address?_push_of_fits s flags span hform, if_pos rfl] at h
    cases h
    refine ⟨rfl, ?_⟩
    show _ < (s.pools.add carried).size carried.form
    rw [Pools.size_add, if_pos rfl]
    exact Nat.lt_succ_self _

theorem address?_grow_of_ne {j : NodeId} (hj : j ≠ s.size) :
    (s.grow node).address? j = s.address? j := by
  unfold grow
  split
  · exact address?_pushToken s _ _ _ j
  · rw [address?_push, if_neg hj]

/-! ### Nodes one after the other -/

/-- The later store has nodes made in addition, with children from `low` on. -/
inductive Builds (low : Nat) (s : Store) : Store → Prop where
  | refl : Builds low s s
  | grow {s' : Store} {node : Node} (h : Builds low s s') (fits : node.Fits low s'.size) :
      Builds low s (s'.grow node)

theorem Builds.trans (h : Builds low s s') (h' : Builds low s' s'') : Builds low s s'' := by
  induction h' with
  | refl => exact h
  | grow _ fits ih => exact .grow ih fits

theorem Builds.extends (h : Builds low s s') : s.Extends s' := by
  induction h with
  | refl => exact .refl s
  | grow _ _ ih => exact ih.trans (extends_grow _ _)

theorem Builds.size_le (h : Builds low s s') : s.size ≤ s'.size := h.extends.grows

theorem size_foldl_grow (nodes : List Node) (s : Store) :
    (nodes.foldl grow s).size = s.size + nodes.length := by
  induction nodes generalizing s with
  | nil => rfl
  | cons node rest ih =>
    rw [List.foldl_cons, ih, size_grow, List.length_cons]
    omega

theorem builds_foldl_grow {nodes : List Node}
    (h : ∀ (k : Nat) (node : Node), nodes[k]? = some node → node.Fits low (s.size + k)) :
    Builds low s (nodes.foldl grow s) := by
  induction nodes generalizing s with
  | nil => exact .refl
  | cons node rest ih =>
    have hfirst : Builds low s (s.grow node) := .grow .refl (h 0 node rfl)
    refine hfirst.trans (ih fun k other hk => ?_)
    have hfits := h (k + 1) other hk
    rwa [← Nat.add_assoc, Nat.add_right_comm, ← size_grow s node] at hfits

theorem extends_foldl_grow (nodes : List Node) (s : Store) : s.Extends (nodes.foldl grow s) := by
  induction nodes generalizing s with
  | nil => exact .refl s
  | cons node rest ih => exact (extends_grow s node).trans (ih (s.grow node))

/-- Nodes that are made one after the other are there afterwards. -/
theorem node?_foldl_grow {nodes : List Node}
    (h : ∀ node ∈ nodes, node.kind.form? = node.payload.map Payload.form) (s : Store) {k : Nat}
    (hk : k < nodes.length) : (nodes.foldl grow s).node? (s.size + k) = nodes[k]? := by
  induction nodes generalizing s k with
  | nil => cases hk
  | cons node rest ih =>
    rw [List.forall_mem_cons] at h
    cases k with
    | zero =>
      exact (extends_foldl_grow rest (s.grow node)).node? (node?_grow s h.1)
        (Node.complete_of_form h.1)
    | succ k =>
      have hrest := ih h.2 (s.grow node) (Nat.lt_of_succ_lt_succ hk)
      rwa [size_grow, Nat.add_right_comm] at hrest

end Store

namespace Edit
open Store
variable {s : Store} {low : Nat}

/-- What a copy comes to: a node over others that were made before it. Only the slots differ from
the original. -/
def MakesCopy (low : Nat) (s : Store) (original : Node) (ref : Ref) (s' : Store) : Prop :=
  ∃ made node, Builds low s made ∧ node.Fits low made.size ∧ node.mark = original.mark ∧
    ref = some made.size ∧ s' = made.grow node

theorem MakesCopy.builds {original : Node} {ref : Ref} {s' : Store}
    (h : MakesCopy low s original ref s') (hs : low ≤ s.size) :
    Builds low s s' ∧ ∀ c ∈ ref, low ≤ c ∧ c < s'.size := by
  obtain ⟨made, node, hbuilds, fits, _, rfl, rfl⟩ := h
  refine ⟨.grow hbuilds fits, fun c hc => ?_⟩
  obtain rfl := Option.some.inj hc
  rw [size_grow]
  exact ⟨Nat.le_trans hs hbuilds.size_le, Nat.lt_succ_self _⟩

/-- A node that does not exist is not copied. -/
theorem copyWithin_missing {i : NodeId} (h : s.node? i = none) (depth : Nat) :
    copyWithin depth i s = (none, s) := by
  cases depth with
  | zero => rfl
  | succ depth =>
    have hheader : s.header? i = none := Option.map_eq_none_iff.mp h
    rw [copyWithin, bind_run (get_run s), hheader]
    rfl

/-- Slots copied one after the other. -/
theorem mapM_builds {f : Ref → Edit Ref}
    (hf : ∀ ref s, low ≤ s.size → Builds low s (f ref s).2 ∧
      ∀ c ∈ (f ref s).1, low ≤ c ∧ c < (f ref s).2.size)
    (refs : List Ref) (hs : low ≤ s.size) :
    Builds low s (refs.mapM f s).2 ∧
      ∀ c : NodeId, some c ∈ (refs.mapM f s).1 → low ≤ c ∧ c < (refs.mapM f s).2.size := by
  induction refs generalizing s with
  | nil => exact ⟨.refl, fun c hc => absurd hc List.not_mem_nil⟩
  | cons ref rest ih =>
    obtain ⟨hbuilds, hfirst⟩ := hf ref s hs
    obtain ⟨hbuilds', hrest⟩ := ih (Nat.le_trans hs hbuilds.size_le)
    rw [List.mapM_cons]
    refine ⟨hbuilds.trans hbuilds', fun c hc => ?_⟩
    rcases List.mem_cons.mp hc with hc | hc
    · obtain ⟨hlow, hlt⟩ := hfirst c hc.symm
      exact ⟨hlow, Nat.lt_of_lt_of_le hlt hbuilds'.size_le⟩
    · exact hrest c hc

theorem copySlot_builds {depth : Nat}
    (h : ∀ child, copyWithin depth child s = (none, s) ∨ ∃ original, s.node? child = some original ∧
      MakesCopy low s original (copyWithin depth child s).1 (copyWithin depth child s).2)
    (hs : low ≤ s.size) (slot : Ref) :
    Builds low s (copySlot depth slot s).2 ∧
      ∀ c ∈ (copySlot depth slot s).1, low ≤ c ∧ c < (copySlot depth slot s).2.size := by
  cases slot with
  | none => exact ⟨.refl, fun c hc => absurd hc (Option.not_mem_none c)⟩
  | some child =>
    rcases h child with hnone | ⟨original, _, hcopy⟩
    · rw [copySlot, Option.elim_some, hnone]
      exact ⟨.refl, fun c hc => absurd hc (Option.not_mem_none c)⟩
    · exact hcopy.builds hs

/-- **A copy makes nodes over nodes that it has made.** -/
theorem copyWithin_builds (depth : Nat) (i : NodeId) (hs : low ≤ s.size) :
    copyWithin depth i s = (none, s) ∨
      ∃ original, s.node? i = some original ∧
        MakesCopy low s original (copyWithin depth i s).1 (copyWithin depth i s).2 := by
  induction depth generalizing i s with
  | zero => exact .inl rfl
  | succ depth ih =>
    cases there : s.node? i with
    | none => exact .inl (copyWithin_missing there (depth + 1))
    | some node =>
      obtain ⟨kind, flags, span, payload⟩ := node
      cases payload with
      | none =>
        cases hform : kind.form? with
        | none =>
          refine .inr ⟨_, rfl, s, ⟨kind, flags, span, none⟩, .refl, ⟨hform, ?_⟩, rfl, ?_⟩
          · exact fun c hc => absurd hc List.not_mem_nil
          · rw [copyWithin_token there hform]
            exact ⟨rfl, rfl⟩
        | some form => exact .inl (copyWithin_bare there (by rw [hform]; rfl))
      | some payload =>
        have hslot (ref : Ref) (s : Store) (hs : low ≤ s.size) :=
          copySlot_builds (s := s) (fun child => ih child hs) hs ref
        obtain ⟨payload', hrun, hslots, hform⟩ := mapSlotsM_run (copySlot depth) payload s
        have hdetail := detail_mapSlotsM (copySlot depth) payload s
        obtain ⟨hbuilds, hchildren⟩ := mapM_builds hslot payload.slots hs
        refine .inr ⟨_, rfl, _, ⟨kind, flags, span, some payload'⟩, hbuilds, ⟨?_, ?_⟩, ?_, ?_⟩
        · rw [form_of_node? there rfl, Option.map_some, hform]
        · intro c hc
          have hmem := mem_payload_children.mp (show c ∈ payload'.children from hc)
          exact hchildren c (hslots ▸ hmem)
        · rw [hrun] at hdetail
          simp [Node.mark, hdetail]
        · rw [copyWithin_node there hrun]
          exact ⟨rfl, rfl⟩

end Edit

namespace Store
variable {s s' s'' start : Store} {home : Form × Nat} {low : Nat} {node : Node}
  {answers : List NodeId}

/-! ### What is left alone -/

/-- The later store has every header of the earlier, the parents of the nodes before `low`, and what
stood in the pools, save at one address. -/
structure Amends (home : Form × Nat) (low : Nat) (s s' : Store) : Prop where
  grows : s.size ≤ s'.size
  header : ∀ j < s.size, s'.header? j = s.header? j
  pools : ∀ form k payload, (form, k) ≠ home → s.pools.get? form k = some payload →
    s'.pools.get? form k = some payload
  places : ∀ form, s.pools.size form ≤ s'.pools.size form
  parent : ∀ j < low, s'.parent j = s.parent j

namespace Amends

theorem refl (home : Form × Nat) (low : Nat) (s : Store) : Amends home low s s :=
  ⟨Nat.le_refl _, fun _ _ => rfl, fun _ _ _ _ h => h, fun _ => Nat.le_refl _, fun _ _ => rfl⟩

theorem trans (h : Amends home low s s') (h' : Amends home low s' s'') :
    Amends home low s s'' where
  grows := Nat.le_trans h.grows h'.grows
  header := fun j hj => (h'.header j (Nat.lt_of_lt_of_le hj h.grows)).trans (h.header j hj)
  pools := fun form k payload hk hp => h'.pools form k payload hk (h.pools form k payload hk hp)
  places := fun form => Nat.le_trans (h.places form) (h'.places form)
  parent := fun j hj => (h'.parent j hj).trans (h.parent j hj)

theorem mono {low' : Nat} (h : Amends home low s s') (hle : low' ≤ low) :
    Amends home low' s s' :=
  {h with parent := fun j hj => h.parent j (Nat.lt_of_lt_of_le hj hle)}

theorem address? (h : Amends home low s s') {j : NodeId} (hj : j < s.size) :
    s'.address? j = s.address? j := by
  rw [Store.address?, h.header j hj, Store.address?]

theorem payload? (h : Amends home low s s') {j : NodeId} (hj : s.address? j ≠ some home)
    {payload : Payload Ref} (hp : s.payload? j = some payload) : s'.payload? j = some payload := by
  obtain ⟨place, haddress, hget⟩ := payload?_eq_some_iff.mp hp
  refine payload?_eq_some_iff.mpr ⟨place, ?_, h.pools _ _ _ ?_ hget⟩
  · rw [h.address? (lt_size_of_payload? hp), haddress]
  · rintro rfl
    exact hj haddress

theorem payload?_eq_iff (h : Amends home low s s') {j : NodeId} (hj : j < s.size)
    (hhome : s.address? j ≠ some home) : s'.payload? j = s.payload? j ↔ ¬s.Overtaken s' j :=
  payload?_eq_iff_of_address (h.address? hj) fun _ => h.payload? hhome

/-- A new node leaves the parents of those alone that are not its children. -/
theorem grow (h : Amends home low s s') (haligned : s'.parents.size = s'.size)
    (hlow : low ≤ s'.size) (fits : node.Fits low s'.size) : Amends home low s (s'.grow node) := by
  have hgrow := extends_grow s' node
  refine h.trans ⟨hgrow.grows, hgrow.header, fun form k payload _ => hgrow.pools form k payload,
    size_pools_grow s' node, fun j hj => ?_⟩
  have hother : j ∉ node.children := fun hmem => Nat.not_lt_of_le (fits.children j hmem).1 hj
  rw [parent_grow haligned (Nat.lt_of_lt_of_le hj hlow), if_neg hother]

end Amends

theorem Builds.amends (h : Builds low s s') (haligned : s.parents.size = s.size)
    (hlow : low ≤ s.size) (home : Form × Nat) :
    Amends home low s s' ∧ s'.parents.size = s'.size := by
  induction h with
  | refl => exact ⟨.refl home low s, haligned⟩
  | grow h fits ih =>
    exact ⟨ih.1.grow ih.2 (Nat.le_trans hlow h.size_le) fits, aligned_grow ih.2 _⟩

/-! ### What was made since -/

/-- A store that has grown out of another, around what is kept at one address, and has given away
some of its new nodes. -/
structure Tidy (start : Store) (home : Form × Nat) (answers : List NodeId) (s : Store) : Prop where
  amends : Amends home start.size start s
  aligned : s.parents.size = s.size
  /-- New nodes carry what was made with them. -/
  placed : ∀ j form k, start.size ≤ j → s.address? j = some (form, k) →
    start.pools.size form ≤ k ∧ k < s.pools.size form
  /-- What was made names new nodes, and none that was given away. -/
  inner : ∀ form k payload, start.pools.size form ≤ k → s.pools.get? form k = some payload →
    ∀ c ∈ payload.children, start.size ≤ c ∧ c < s.size ∧ c ∉ answers
  answered : ∀ r ∈ answers, start.size ≤ r ∧ r < s.size

namespace Tidy

/-- A node that is given away as soon as it is made. -/
theorem answer (h : Tidy start home answers s) (hlow : start.size ≤ low)
    (hanswers : ∀ r ∈ answers, r < low) (fits : node.Fits low s.size) :
    Tidy start home (s.size :: answers) (s.grow node) where
  amends := h.amends.grow h.aligned h.amends.grows ⟨fits.form, fun c hc =>
    ⟨Nat.le_trans hlow (fits.children c hc).1, (fits.children c hc).2⟩⟩
  aligned := aligned_grow h.aligned node
  placed := fun j form k hj haddress => by
    by_cases hnew : j = s.size
    · subst hnew
      obtain ⟨rfl, hlt⟩ := address?_grow fits.form haddress
      exact ⟨h.amends.places form, hlt⟩
    · rw [address?_grow_of_ne hnew] at haddress
      obtain ⟨hle, hlt⟩ := h.placed j form k hj haddress
      exact ⟨hle, Nat.lt_of_lt_of_le hlt (size_pools_grow s node form)⟩
  inner := fun form k payload hk hget c hc => by
    have hold : start.size ≤ c ∧ c < s.size ∧ c ∉ answers := by
      rcases get?_grow hget with hget | hpayload
      · exact h.inner form k payload hk hget c hc
      · have hmem : c ∈ node.children := by
          rw [Node.children, Node.slots, hpayload]
          exact hc
        obtain ⟨hle, hlt⟩ := fits.children c hmem
        exact ⟨Nat.le_trans hlow hle, hlt, fun hr => Nat.not_lt_of_le hle (hanswers c hr)⟩
    rw [size_grow, List.mem_cons, not_or]
    exact ⟨hold.1, Nat.lt_succ_of_lt hold.2.1, Nat.ne_of_lt hold.2.1, hold.2.2⟩
  answered := by
    rw [size_grow, List.forall_mem_cons]
    exact ⟨⟨h.amends.grows, Nat.lt_succ_self _⟩,
      fun r hr => ⟨(h.answered r hr).1, Nat.lt_succ_of_lt (h.answered r hr).2⟩⟩

theorem drop {r : NodeId} (h : Tidy start home (r :: answers) s) : Tidy start home answers s where
  amends := h.amends
  aligned := h.aligned
  placed := h.placed
  inner := fun form k payload hk hget c hc => by
    obtain ⟨hle, hlt, hr⟩ := h.inner form k payload hk hget c hc
    exact ⟨hle, hlt, fun hmem => hr (List.mem_cons_of_mem _ hmem)⟩
  answered := (List.forall_mem_cons.mp h.answered).2

/-- Nodes that are made on the way. -/
theorem builds (h : Tidy start home answers s) (hlow : start.size ≤ low)
    (hanswers : ∀ r ∈ answers, r < low) (hbuilds : Builds low s s') :
    Tidy start home answers s' := by
  induction hbuilds with
  | refl => exact h
  | grow _ fits ih => exact (ih.answer hlow hanswers fits).drop

/-- A node that was made stays as it is. -/
theorem node?_eq (h : Tidy start home answers s) (hhome : home.2 < start.pools.size home.1)
    (h' : Amends home low s s') {j : NodeId} (hj : start.size ≤ j) (hlt : j < s.size) :
    s'.node? j = s.node? j := by
  have hpayload : s'.payload? j = s.payload? j := by
    cases haddress : s.address? j with
    | none =>
      rw [Store.payload?, h'.address? hlt, Store.payload?, haddress]
      rfl
    | some address =>
      obtain ⟨hle, hplace⟩ := h.placed j address.1 address.2 hj haddress
      have hne : s.address? j ≠ some home := by
        rw [haddress]
        intro heq
        obtain rfl := Option.some.inj heq
        exact Nat.not_lt_of_le hle hhome
      have hcarried : (s.payload? j).isSome := by
        rw [Store.payload?, haddress]
        exact Pools.get?_isSome_iff.mpr hplace
      obtain ⟨payload, hp⟩ := Option.isSome_iff_exists.mp hcarried
      rw [hp, h'.payload? hne hp]
  rw [node?, node?, h'.header j hlt, hpayload]

end Tidy

/-! ### The change at one address -/

section Rewrite
variable {root i : NodeId} {old new : Payload Ref}

theorem get?_write (hroot : s.address? root = some home) (hold : s.payload? root = some old)
    (hform : new.form = old.form) {form : Form} {k : Nat} (hne : (form, k) ≠ home) :
    (s.write root new).pools.get? form k = s.pools.get? form k := by
  obtain ⟨place, haddress, _⟩ := payload?_eq_some_iff.mp hold
  obtain rfl := Option.some.inj (hroot.symm.trans haddress)
  simp only [write, haddress]
  rw [Pools.get?_set, if_neg]
  rintro ⟨rfl, rfl, _⟩
  exact hne (by rw [hform])

theorem size_pools_write (s : Store) (root : NodeId) (new : Payload Ref) (form : Form) :
    (s.write root new).pools.size form = s.pools.size form := by
  unfold write
  split
  · exact Pools.size_set _ _ _ _
  · rfl

theorem Amends.rewrite (hroot : s.address? root = some home) (hold : s.payload? root = some old)
    (hform : new.form = old.form) (hi : low ≤ i) :
    Amends home low s ((s.write root new).adopt root [some i]) where
  grows := Nat.le_of_eq (congrArg Array.size (headers_write s root new)).symm
  header := fun j _ => congrArg (·[j]?) (headers_write s root new)
  pools := fun form k payload hne hget => (get?_write hroot hold hform hne).trans hget
  places := fun form => Nat.le_of_eq (size_pools_write s root new form).symm
  parent := fun j hj => by
    have hother : ¬(some j ∈ [some i] ∧ j < (s.write root new).parents.size) := by
      rintro ⟨hmem, _⟩
      obtain rfl := Option.some.inj (List.mem_singleton.mp hmem)
      exact Nat.not_lt_of_le hi hj
    rw [parent_adopt, if_neg hother, Store.parent, parents_write, Store.parent]

theorem Tidy.rewrite (h : Tidy start home answers s) (hhome : home.2 < start.pools.size home.1)
    (hroot : s.address? root = some home) (hold : s.payload? root = some old)
    (hform : new.form = old.form) (hi : start.size ≤ i) :
    Tidy start home answers ((s.write root new).adopt root [some i]) where
  amends := h.amends.trans (.rewrite hroot hold hform hi)
  aligned := by
    rw [size_parents_adopt, parents_write, h.aligned]
    exact congrArg Array.size (headers_write s root new).symm
  placed := fun j form k hj haddress => by
    have hsame : ((s.write root new).adopt root [some i]).address? j = s.address? j :=
      address?_write s root j new
    rw [hsame] at haddress
    rw [show ((s.write root new).adopt root [some i]).pools.size form = s.pools.size form from
      size_pools_write s root new form]
    exact h.placed j form k hj haddress
  inner := fun form k payload hk hget c hc => by
    have hne : (form, k) ≠ home := by
      rintro rfl
      exact Nat.not_lt_of_le hk hhome
    have hget' : s.pools.get? form k = some payload :=
      (get?_write hroot hold hform hne).symm.trans hget
    rw [show ((s.write root new).adopt root [some i]).size = s.size from
      congrArg Array.size (headers_write s root new)]
    exact h.inner form k payload hk hget' c hc
  answered := by
    rw [show ((s.write root new).adopt root [some i]).size = s.size from
      congrArg Array.size (headers_write s root new)]
    exact h.answered

end Rewrite
end Store
end Settle
