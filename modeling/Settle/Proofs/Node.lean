import Settle.Store.Edit
import Settle.Store.Scan

/-! Nodes as they are seen.

A reader of a store never sees where a payload is kept: all it can tell of a node
is its kind, flags and span and the payload that a look-up finds (`Node`,
`Store.node?`). Every question the rest of the library asks of a store is
answered by the seen node alone.

A store is sound (`Store.Sound`) when each node of a kind that carries a payload has
one, and no two nodes have the same. In a sound store the operations act on seen
nodes one by one: `Revision` says of two stores that the later one has every old
node edited and some nodes added, and nothing else. Revisions compose
(`Revision.trans`), so whatever is made of the operations is described by one
edit and one list. -/
namespace Settle

/-- A node as it is seen. -/
structure Node where
  kind : Kind
  flags : UInt32
  span : Span
  payload : Option (Payload Ref)
  deriving DecidableEq, Repr

namespace Node

def slots (node : Node) : List Ref := (node.payload.map Payload.slots).getD []

/-- The nodes that the slots name. -/
def children (node : Node) : List NodeId := node.slots.filterMap id

/-- Marked `async`, and not a generator. -/
def isEligible (node : Node) : Bool :=
  match node.payload with
  | some (.function parts) => parts.isAsync && !parts.isGenerator
  | some (.tryExpression parts) => parts.isAsync && !parts.isGenerator
  | _ => false

/-- A node that no source text stands behind. -/
def made (kind : Kind) (payload : Payload Ref) : Node := ⟨kind, 0, .zero, some payload⟩

end Node

namespace Store
variable {s s' s'' : Store} {i j : Nat}

def node? (s : Store) (i : NodeId) : Option Node :=
  (s.header? i).map fun header => ⟨header.kind, header.flags, header.span, s.payload? i⟩

/-! ### Every look-up is one at the seen node -/

theorem kind?_eq (s : Store) (i : NodeId) : s.kind? i = (s.node? i).map Node.kind := by
  simp only [kind?, node?, Option.map_map]
  rfl

theorem payload?_of_header? (h : s.header? i = none) : s.payload? i = none := by
  simp [payload?, address?, h]

theorem payload?_eq (s : Store) (i : NodeId) : s.payload? i = (s.node? i).bind Node.payload := by
  cases h : s.header? i with
  | none => simp [node?, h, payload?_of_header? h]
  | some header => simp [node?, h]

theorem children_eq (s : Store) (i : NodeId) :
    s.children i = ((s.node? i).map Node.children).getD [] := by
  cases h : s.node? i with
  | none => simp [children, payload?_eq, h]
  | some node =>
    cases hp : node.payload with
    | none => simp [children, payload?_eq, h, hp, Node.children, Node.slots]
    | some payload => simp [children, payload?_eq, h, hp, Node.children, Node.slots]

theorem children_of_node? {node : Node} (h : s.node? i = some node) :
    s.children i = node.children := by
  simp [children_eq, h]

theorem kind?_of_node? {node : Node} (h : s.node? i = some node) : s.kind? i = some node.kind := by
  simp [kind?_eq, h]

theorem payload?_of_node? {node : Node} (h : s.node? i = some node) :
    s.payload? i = node.payload := by
  simp [payload?_eq, h]

theorem exists_node_of_payload? {payload : Payload Ref} (h : s.payload? i = some payload) :
    ∃ node, s.node? i = some node ∧ node.payload = some payload :=
  Option.bind_eq_some_iff.mp (payload?_eq s i ▸ h)

theorem isEligible_of_node? {node : Node} (h : s.node? i = some node) :
    s.isEligible i = node.isEligible := by
  rw [isEligible, payload?_of_node? h]
  rfl

theorem node?_isSome_iff : (s.node? i).isSome ↔ i < s.size := by
  simp [node?, header?, size]

theorem lt_size_of_node? {node : Node} (h : s.node? i = some node) : i < s.size :=
  node?_isSome_iff.mp (by rw [h]; rfl)

theorem node?_of_lt_size (h : i < s.size) : ∃ node, s.node? i = some node :=
  Option.isSome_iff_exists.mp (node?_isSome_iff.mpr h)

theorem node?_eq_none (h : s.size ≤ i) : s.node? i = none := by
  cases hi : s.node? i with
  | none => rfl
  | some node => exact absurd (lt_size_of_node? hi) (by omega)

/-! ### Soundness -/

/-- Every node of a kind that carries a payload has one, and shares it with no other node. -/
structure Sound (s : Store) : Prop where
  carried : ∀ i kind, s.kind? i = some kind → kind.form?.isSome → (s.payload? i).isSome
  unshared : ∀ i j address, s.address? i = some address → s.address? j = some address → i = j

theorem address?_eq_some_iff {address : Form × Nat} :
    s.address? i = some address ↔ ∃ header, s.header? i = some header ∧
      header.kind.form? = some address.1 ∧ header.place = some address.2 := by
  obtain ⟨form, place⟩ := address
  simp only [address?, Option.bind_eq_bind, Option.bind_eq_some_iff, Option.pure_def,
    Option.some.injEq, Prod.mk.injEq]
  constructor
  · rintro ⟨header, hheader, _, hform, _, hplace, rfl, rfl⟩
    exact ⟨header, hheader, hform, hplace⟩
  · rintro ⟨header, hheader, hform, hplace⟩
    exact ⟨header, hheader, _, hform, _, hplace, rfl, rfl⟩

theorem address?_eq_some {address : Form × Nat} (h : s.address? i = some address) :
    ∃ kind, s.kind? i = some kind ∧ kind.form? = some address.1 := by
  obtain ⟨header, hheader, hform, _⟩ := address?_eq_some_iff.mp h
  exact ⟨header.kind, by rw [kind?, hheader, Option.map_some], hform⟩

/-- A node carries the form of payload that its kind asks for. -/
theorem form_of_node? {node : Node} {payload : Payload Ref} (h : s.node? i = some node)
    (hp : node.payload = some payload) : node.kind.form? = some payload.form := by
  rw [← payload?_of_node? h] at hp
  obtain ⟨place, ha, _⟩ := payload?_eq_some_iff.mp hp
  obtain ⟨kind, hkind, hform⟩ := address?_eq_some ha
  rw [kind?_of_node? h] at hkind
  obtain rfl := Option.some.inj hkind
  exact hform

theorem Sound.payload_of_node? (hs : s.Sound) {node : Node} (h : s.node? i = some node)
    (hform : node.kind.form?.isSome) :
    ∃ payload, node.payload = some payload ∧ node.kind.form? = some payload.form := by
  have hcarried := hs.carried i node.kind (kind?_of_node? h) hform
  rw [payload?_of_node? h] at hcarried
  obtain ⟨payload, hp⟩ := Option.isSome_iff_exists.mp hcarried
  exact ⟨payload, hp, form_of_node? h hp⟩

/-- In a sound store an address is never that of nothing. -/
theorem Sound.payload?_of_address? (hs : s.Sound) {address : Form × Nat}
    (h : s.address? i = some address) :
    ∃ payload, s.payload? i = some payload ∧ payload.form = address.1 ∧
      address.2 < s.pools.size payload.form := by
  obtain ⟨kind, hkind, hform⟩ := address?_eq_some h
  obtain ⟨payload, hp⟩ := Option.isSome_iff_exists.mp (hs.carried i kind hkind (by rw [hform]; rfl))
  obtain ⟨place, ha, hget⟩ := payload?_eq_some_iff.mp hp
  rw [h] at ha
  obtain rfl := Option.some.inj ha
  exact ⟨payload, hp, rfl, Pools.get?_isSome_iff.mp (by rw [hget]; rfl)⟩

theorem Sound.place_lt (hs : s.Sound) {address : Form × Nat} (h : s.address? i = some address) :
    address.2 < s.pools.size address.1 := by
  obtain ⟨payload, _, hform, hlt⟩ := hs.payload?_of_address? h
  rwa [hform] at hlt

theorem Sound.address?_of_payload?_none (hs : s.Sound) (h : s.payload? i = none) :
    s.address? i = none := by
  cases ha : s.address? i with
  | none => rfl
  | some address =>
    obtain ⟨payload, hp, _⟩ := hs.payload?_of_address? ha
    rw [h] at hp
    cases hp

/-! ### Revisions -/

/-- The later store has every old node edited and some nodes added, in this order; it is sound. -/
structure Revision (s s' : Store) (edit : NodeId → Node → Node) (added : List Node) : Prop where
  sound : s'.Sound
  size : s'.size = s.size + added.length
  old : ∀ j : Nat, j < s.size → s'.node? j = (s.node? j).map (edit j)
  new : ∀ (k : Nat) (node : Node), added[k]? = some node → s'.node? (s.size + k) = some node

/-- Leaves every node alone. -/
def keep : NodeId → Node → Node := fun _ node => node

/-- Edits one node. -/
def editAt (i : NodeId) (f : Node → Node) : NodeId → Node → Node :=
  fun j node => if j = i then f node else node

@[simp]
theorem keep_apply (j : NodeId) (node : Node) : keep j node = node := rfl

@[simp]
theorem editAt_self (i : NodeId) (f : Node → Node) (node : Node) : editAt i f i node = f node :=
  if_pos rfl

theorem editAt_of_ne {i j : NodeId} (h : j ≠ i) (f : Node → Node) (node : Node) :
    editAt i f j node = node :=
  if_neg h

theorem Revision.refl (h : s.Sound) : Revision s s keep [] where
  sound := h
  size := rfl
  old := fun j _ => by
    cases s.node? j <;> rfl
  new := fun k node hk => by simp at hk

/-- One revision after another. What the second does to the nodes that the first added must be
nothing: they are listed as they were made. -/
theorem Revision.trans {edit edit' : NodeId → Node → Node} {added added' : List Node}
    (h : Revision s s' edit added) (h' : Revision s' s'' edit' added')
    (hkeep : ∀ (k : Nat) (node : Node), added[k]? = some node → edit' (s.size + k) node = node) :
    Revision s s'' (fun j node => edit' j (edit j node)) (added ++ added') where
  sound := h'.sound
  size := by rw [h'.size, h.size, List.length_append, Nat.add_assoc]
  old := fun j hj => by
    rw [h'.old j (by rw [h.size]; omega), h.old j hj, Option.map_map]
    rfl
  new := fun k node hk => by
    by_cases hlt : k < added.length
    · rw [List.getElem?_append_left hlt] at hk
      rw [h'.old _ (by rw [h.size]; omega), h.new k node hk, Option.map_some, hkeep k node hk]
    · rw [List.getElem?_append_right (by omega)] at hk
      have hnew := h'.new (k - added.length) node hk
      rw [h.size] at hnew
      rw [show s.size + k = s.size + added.length + (k - added.length) by omega]
      exact hnew

/-- A revision after one that only adds. -/
theorem Revision.trans_add {edit : NodeId → Node → Node} {added added' : List Node}
    (h : Revision s s' edit added) (h' : Revision s' s'' keep added') :
    Revision s s'' edit (added ++ added') :=
  h.trans h' fun _ _ _ => rfl

theorem Revision.old_of_eq {edit : NodeId → Node → Node} {added : List Node}
    (h : Revision s s' edit added) (hj : j < s.size) (he : ∀ node, edit j node = node) :
    s'.node? j = s.node? j := by
  rw [h.old j hj, show edit j = id from funext he, Option.map_id]
  rfl

theorem Revision.old_of_keep {added : List Node} (h : Revision s s' keep added) (hj : j < s.size) :
    s'.node? j = s.node? j :=
  h.old_of_eq hj fun _ => rfl

theorem Revision.grows {edit : NodeId → Node → Node} {added : List Node}
    (h : Revision s s' edit added) : s.size ≤ s'.size := by
  rw [h.size]
  omega

/-- Every node of the later store is an old one, edited, or an added one. -/
theorem Revision.cases {edit : NodeId → Node → Node} {added : List Node}
    (h : Revision s s' edit added) {node : Node} (hj : s'.node? j = some node) :
    (j < s.size ∧ ∃ old, s.node? j = some old ∧ node = edit j old) ∨
      ∃ k, j = s.size + k ∧ added[k]? = some node := by
  have hlt := lt_size_of_node? hj
  rw [h.size] at hlt
  by_cases hold : j < s.size
  · left
    obtain ⟨old, ho⟩ := node?_of_lt_size hold
    rw [h.old j hold, ho] at hj
    exact ⟨hold, old, ho, (Option.some.inj hj).symm⟩
  · right
    refine ⟨j - s.size, by omega, ?_⟩
    have hk : j - s.size < added.length := by omega
    have hnew := h.new (j - s.size) _ (List.getElem?_eq_getElem hk)
    rw [show s.size + (j - s.size) = j by omega, hj] at hnew
    rw [List.getElem?_eq_getElem hk]
    exact hnew.symm

theorem Revision.children_new {edit : NodeId → Node → Node} {added : List Node}
    (h : Revision s s' edit added) (hj : s.size ≤ j) {c : NodeId} (hc : c ∈ s'.children j) :
    ∃ node ∈ added, c ∈ node.children := by
  cases hn : s'.node? j with
  | none =>
    rw [children_eq, hn] at hc
    cases hc
  | some node =>
    rw [children_of_node? hn] at hc
    rcases h.cases hn with ⟨hlt, _⟩ | ⟨k, _, hk⟩
    · omega
    · exact ⟨node, List.mem_of_getElem? hk, hc⟩

/-! ### The operations as revisions -/

theorem revision_adopt {edit : NodeId → Node → Node} {added : List Node}
    (h : Revision s s' edit added) (parent : NodeId) (slots : List Ref) :
    Revision s (s'.adopt parent slots) edit added :=
  ⟨⟨h.sound.carried, h.sound.unshared⟩, h.size, h.old, h.new⟩

/-- Nodes have addresses of their own as long as a node gets none that another has. -/
theorem unshared_of_fresh {fresh : Form × Nat}
    (h : ∀ i j address, s.address? i = some address → s.address? j = some address → i = j)
    (haddress : ∀ j, s'.address? j = if j = i then some fresh else s.address? j)
    (hfresh : ∀ j, s.address? j ≠ some fresh) :
    ∀ j k address, s'.address? j = some address → s'.address? k = some address → j = k := by
  intro j k address hj hk
  rw [haddress] at hj hk
  split at hj <;> split at hk
  · rename_i hj' hk'
    rw [hj', hk']
  · exact absurd (hk.trans hj.symm) (hfresh k)
  · exact absurd (hj.trans hk.symm) (hfresh j)
  · exact h j k address hj hk

theorem address?_push (s : Store) (kind : Kind) (flags : UInt32) (span : Span)
    (payload : Payload Ref) (j : NodeId) :
    (s.push kind flags span payload).address? j =
      if j = s.size then kind.form?.map (·, s.pools.size payload.form) else s.address? j := by
  rw [address?, header?_push]
  split
  · cases h : kind.form? <;> simp [h]
  · rfl

theorem address?_push_of_fits (s : Store) {kind : Kind} (flags : UInt32) (span : Span)
    {payload : Payload Ref} (hk : kind.form? = some payload.form) (j : NodeId) :
    (s.push kind flags span payload).address? j =
      if j = s.size then some (payload.form, s.pools.size payload.form) else s.address? j := by
  rw [address?_push, hk, Option.map_some]

theorem kind?_push (s : Store) (kind : Kind) (flags : UInt32) (span : Span) (payload : Payload Ref)
    (j : NodeId) : (s.push kind flags span payload).kind? j =
      if j = s.size then some kind else s.kind? j := by
  rw [kind?, header?_push]
  split <;> rfl

/-- In a sound store a new node changes no look-up at another, found or not. -/
theorem Sound.payload?_push (hs : s.Sound) {kind : Kind} (flags : UInt32) (span : Span)
    {payload : Payload Ref} (hne : j ≠ s.size) :
    (s.push kind flags span payload).payload? j = s.payload? j := by
  cases hj : s.payload? j with
  | some old => exact payload?_push_of_eq_some hj kind flags span payload
  | none => rw [payload?, address?_push, if_neg hne, hs.address?_of_payload?_none hj]; rfl

theorem Sound.push (hs : s.Sound) {kind : Kind} (flags : UInt32) (span : Span)
    {payload : Payload Ref} (hk : kind.form? = some payload.form) :
    (s.push kind flags span payload).Sound where
  carried := fun j kind' hj hform => by
    by_cases he : j = s.size
    · subst he
      rw [payload?_push_self s flags span hk]
      rfl
    · rw [kind?_push, if_neg he] at hj
      rw [hs.payload?_push flags span he]
      exact hs.carried j kind' hj hform
  unshared :=
    -- an old address lies inside its pool, the new one at the end of it
    unshared_of_fresh hs.unshared (address?_push_of_fits s flags span hk) fun j hj =>
      Nat.lt_irrefl _ (hs.place_lt hj)

theorem revision_push (hs : s.Sound) {kind : Kind} (flags : UInt32) (span : Span)
    {payload : Payload Ref} (hk : kind.form? = some payload.form) :
    Revision s (s.push kind flags span payload) keep [⟨kind, flags, span, some payload⟩] where
  sound := hs.push flags span hk
  size := size_push s kind flags span payload
  old := fun j hj => by
    have hne : j ≠ s.size := by omega
    rw [node?, header?_push, if_neg hne, hs.payload?_push flags span hne, node?]
    cases s.header? j <;> rfl
  new := fun k node hk' => by
    obtain ⟨rfl, rfl⟩ : k = 0 ∧ ⟨kind, flags, span, some payload⟩ = node := by
      cases k <;> simp_all
    rw [node?, Nat.add_zero, header?_push, if_pos rfl, payload?_push_self s flags span hk]
    rfl

theorem revision_pushToken (hs : s.Sound) {kind : Kind} (flags : UInt32) (span : Span)
    (hk : kind.form? = none) :
    Revision s (s.pushToken kind flags span) keep [⟨kind, flags, span, none⟩] where
  sound := {
    carried := fun j kind' hj hform => by
      rw [payload?_pushToken]
      rw [kind?, header?_pushToken] at hj
      split at hj
      · cases hj
        rw [hk] at hform
        cases hform
      · exact hs.carried j kind' hj hform
    unshared := fun i j address hi hj => by
      rw [address?_pushToken] at hi hj
      exact hs.unshared i j address hi hj }
  size := size_pushToken s kind flags span
  old := fun j hj => by
    have hne : j ≠ s.size := by omega
    rw [node?, header?_pushToken, if_neg hne, payload?_pushToken, node?]
    cases s.header? j <;> rfl
  new := fun k node hk' => by
    obtain ⟨rfl, rfl⟩ : k = 0 ∧ ⟨kind, flags, span, none⟩ = node := by
      cases k <;> simp_all
    rw [node?, Nat.add_zero, header?_pushToken, if_pos rfl, payload?_pushToken,
      payload?_of_header? (header?_size s)]
    rfl

/-- What is written at a node is seen there alone, if no other node has its address. -/
theorem payload?_write_of_unshared
    (hs : ∀ i j address, s.address? i = some address → s.address? j = some address → i = j)
    {old payload : Payload Ref} (h : s.payload? i = some old) (hf : payload.form = old.form)
    (j : NodeId) : (s.write i payload).payload? j =
      if j = i then some payload else s.payload? j := by
  obtain ⟨place, hi, _⟩ := payload?_eq_some_iff.mp h
  rw [payload?_write h hf]
  by_cases hj : j = i
  · subst hj
    rw [if_pos rfl, if_pos rfl]
  · rw [if_neg hj, if_neg fun ha => hj (hs j i _ (ha.trans hi) hi)]

/-- Writing at a node edits that node. -/
theorem revision_write (hs : s.Sound) {old payload : Payload Ref} (h : s.payload? i = some old)
    (hf : payload.form = old.form) :
    Revision s (s.write i payload) (editAt i fun node => {node with payload := some payload}) [] := by
  have hlook := payload?_write_of_unshared hs.unshared h hf
  have hkind (j : Nat) : (s.write i payload).kind? j = s.kind? j := by
    rw [kind?, header?, headers_write]
    rfl
  refine ⟨⟨fun j kind hj hform => ?_, fun j k address hj hk => ?_⟩, ?_, fun j hj => ?_,
    fun k node hk => by simp at hk⟩
  · rw [hkind] at hj
    rw [hlook]
    split
    · rfl
    · exact hs.carried j kind hj hform
  · rw [address?_write] at hj hk
    exact hs.unshared j k address hj hk
  · rw [size, headers_write]
    rfl
  · rw [node?, header?, headers_write, hlook, node?, header?]
    cases s.headers[j]? with
    | none => rfl
    | some header =>
      by_cases hj : j = i
      · subst hj
        simp
      · simp [hj, editAt_of_ne hj]

/-! ### Becoming a suspension -/

/-- The store after a node has become a suspension. -/
def suspended [Placing] (s : Store) (i : NodeId) (kind : Kind) (parts : SuspensionParts Ref) :
    Store :=
  {s with pools := s.pools.add (.suspension parts)}.retarget i kind
    (Placing.place (s.pools.size .suspension))

theorem header?_suspended [Placing] (s : Store) (i : NodeId) (kind : Kind)
    (parts : SuspensionParts Ref) (j : NodeId) : (s.suspended i kind parts).header? j =
      if j = i then (s.header? j).map fun header =>
        {header with kind, place := Placing.place (s.pools.size .suspension)}
      else s.header? j := by
  show (s.headers.modify i _)[j]? = _
  rw [Array.getElem?_modify]
  by_cases h : i = j
  · rw [if_pos h, if_pos h.symm]
    rfl
  · rw [if_neg h, if_neg fun he => h he.symm]
    rfl

theorem address?_suspended (hi : i < s.size) {kind : Kind} (hk : kind.form? = some .suspension)
    (parts : SuspensionParts Ref) (j : NodeId) : (s.suspended i kind parts).address? j =
      if j = i then some (.suspension, s.pools.size .suspension) else s.address? j := by
  have hh : s.header? i = some s.headers[i] := Array.getElem?_eq_getElem hi
  rw [address?, header?_suspended]
  split
  · subst j
    simp [hh, hk]
  · rfl

theorem revision_suspended (hs : s.Sound) (hi : i < s.size) {kind : Kind}
    (hk : kind.form? = some .suspension) (parts : SuspensionParts Ref) :
    Revision s (s.suspended i kind parts)
      (editAt i fun node => {node with kind, payload := some (.suspension parts)}) [] := by
  obtain ⟨header, hh⟩ : ∃ header, s.header? i = some header :=
    ⟨s.headers[i], Array.getElem?_eq_getElem hi⟩
  have haddress := address?_suspended hi hk parts
  -- an old address lies inside its pool, so adding to the pool leaves what stands there
  have hfresh (j : Nat) : s.address? j ≠ some (.suspension, s.pools.size .suspension) :=
    fun hj => Nat.lt_irrefl _ (hs.place_lt hj)
  have hlook (j : Nat) : (s.suspended i kind parts).payload? j =
      if j = i then some (.suspension parts) else s.payload? j := by
    rw [payload?, haddress]
    split
    · show (s.pools.add (.suspension parts)).get? .suspension (s.pools.size .suspension) = _
      rw [Pools.get?_add, if_pos ⟨rfl, rfl⟩]
    · rw [payload?]
      cases hj : s.address? j with
      | none => rfl
      | some address =>
        obtain ⟨form, k⟩ := address
        show (s.pools.add (.suspension parts)).get? form k = s.pools.get? form k
        rw [Pools.get?_add, if_neg]
        rintro ⟨rfl, rfl⟩
        exact hfresh j hj
  refine ⟨⟨fun j kind' hj hform => ?_, unshared_of_fresh hs.unshared haddress hfresh⟩, ?_,
    fun j hj => ?_, fun k node hk => by simp at hk⟩
  · rw [hlook]
    split
    · rfl
    · rename_i hne
      rw [kind?, header?_suspended, if_neg hne] at hj
      exact hs.carried j kind' hj hform
  · simp [suspended, size, retarget]
  · rw [node?, header?_suspended, hlook, node?]
    by_cases hj : j = i
    · subst hj
      simp [hh]
    · cases s.header? j <;> simp [hj, editAt_of_ne hj]

end Store
end Settle
