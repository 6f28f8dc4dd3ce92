import Mathlib.Logic.Relation
import Settle.Program.Basic
import Settle.Proofs.Tree

/-! The shape of what a root leads to.

From a node one follows a path by taking slots at given positions. A store is tree
shaped below a root when everything that is met names a node and no node is met
twice. Exactly then there is a tree to be read at the root, and its nodes differ
pairwise (`treeShaped_iff`): a path that ran longer than the store has nodes would
have met one of them again.

Where nodes may be met in several ways, as long as no way leads back to where it began,
the same holds of chains (`Acyclic.bounded`). -/
namespace Settle
namespace Store

/-! ### Paths -/

/-- What stands in a slot, by its position. -/
def child? (s : Store) (i : NodeId) (position : Nat) : Ref :=
  (s.payload? i).bind fun payload => payload.slots[position]?.join

/-- Where a path leads, if it leads anywhere. -/
def follow (s : Store) : (path : List Nat) → NodeId → Ref
  | [], i => some i
  | position :: path, i => (s.child? i position).bind (s.follow path)

/-- What is met below `root` are nodes, and none of them is met twice. -/
structure TreeShaped (s : Store) (root : NodeId) : Prop where
  sound : s.Sound
  exist : ∀ path i, s.follow path root = some i → i < s.size
  oneWay : ∀ path path' i, s.follow path root = some i → s.follow path' root = some i →
    path = path'

variable {s : Store}

theorem child?_of_node? {i : NodeId} {node : Node} (h : s.node? i = some node) (k : Nat) :
    s.child? i k = node.slots[k]?.join := by
  rw [child?, payload?_of_node? h, Node.slots]
  cases node.payload <;> rfl

theorem follow_append (path path' : List Nat) (i : NodeId) :
    s.follow (path ++ path') i = (s.follow path i).bind (s.follow path') := by
  induction path generalizing i with
  | nil => rfl
  | cons k path ih =>
    rw [List.cons_append, follow, follow, Option.bind_assoc]
    exact congrArg _ (funext ih)

theorem follow_concat {path : List Nat} {i j l : NodeId} {k : Nat} (h : s.follow path i = some j)
    (hk : s.child? j k = some l) : s.follow (path ++ [k]) i = some l := by
  rw [follow_append, h]
  simp [follow, hk]

/-! ### Ways -/

/-- From `i` one gets to `j` by way of children. -/
def Reaches (s : Store) : NodeId → NodeId → Prop :=
  Relation.ReflTransGen fun i j => j ∈ s.children i

/-- From a node on, no way leads from any node back to it. -/
def Acyclic (s : Store) (i : NodeId) : Prop :=
  ∀ j, s.Reaches i j → ¬Relation.TransGen (fun i j => j ∈ s.children i) j j

/-- No chain of nodes that exist is longer than this, from a node on. A reference that names
nothing may follow the last of them. -/
def Bounded (s : Store) : (depth : Nat) → NodeId → Prop
  | 0, i => s.kind? i = none
  | depth + 1, i => ∀ j ∈ s.children i, s.Bounded depth j

section Ways
variable {i j : Nat}

theorem lt_size_of_kind? {kind : Kind} (h : s.kind? i = some kind) : i < s.size := by
  rw [kind?_eq] at h
  obtain ⟨node, there, _⟩ := Option.map_eq_some_iff.mp h
  exact lt_size_of_node? there

theorem node?_eq_none_of_bounded (h : s.Bounded 0 i) : s.node? i = none := by
  simpa [Bounded, kind?_eq] using h

theorem lt_size_of_mem_children (h : j ∈ s.children i) : i < s.size := by
  by_contra hge
  rw [children_eq, node?_eq_none (Nat.le_of_not_lt hge)] at h
  cases h

/-- Different nodes are no more than the store has. -/
theorem length_le_size {is : List Nat} (hn : is.Nodup) (h : ∀ i ∈ is, i < s.size) :
    is.length ≤ s.size := by
  have hle := (hn.subperm fun i hi => List.mem_range.mpr (h i hi)).length_le
  rwa [List.length_range] at hle

/-- The nodes above another are as many as the depth that has been used up. -/
theorem Acyclic.bounded_below (h : s.Acyclic i) (depth : Nat) {above : List Nat} {j : Nat}
    (hj : s.Reaches i j) (hnodup : above.Nodup)
    (habove : ∀ k ∈ above, k < s.size ∧ Relation.TransGen (fun i j => j ∈ s.children i) k j)
    (hd : s.size ≤ above.length + depth) : s.Bounded depth j := by
  have hnodup' : (j :: above).Nodup :=
    List.nodup_cons.mpr ⟨fun hmem => h j hj (habove j hmem).2, hnodup⟩
  induction depth generalizing above j with
  | zero =>
    cases hk : s.kind? j with
    | none => exact hk
    | some kind =>
      have hle := length_le_size hnodup' (List.forall_mem_cons.mpr
        ⟨lt_size_of_kind? hk, fun k hk => (habove k hk).1⟩)
      rw [List.length_cons] at hle
      omega
  | succ depth ih =>
    intro c hc
    have hchain : ∀ k ∈ j :: above,
        k < s.size ∧ Relation.TransGen (fun i j => j ∈ s.children i) k c :=
      List.forall_mem_cons.mpr ⟨⟨lt_size_of_mem_children hc, .single hc⟩,
        fun k hk => ⟨(habove k hk).1, (habove k hk).2.tail hc⟩⟩
    refine ih (hj.tail hc) hnodup' hchain ?_ ?_
    · rw [List.length_cons]
      omega
    · exact List.nodup_cons.mpr ⟨fun hmem => h c (hj.tail hc) (hchain c hmem).2, hnodup'⟩

/-- Where no way leads back, a chain of nodes is no longer than the store is large. -/
theorem Acyclic.bounded (h : s.Acyclic i) : s.Bounded s.size i :=
  h.bounded_below s.size .refl List.nodup_nil (fun _ hk => absurd hk List.not_mem_nil)
    (Nat.le_add_left _ _)

theorem eq_of_reaches_leaf (h : s.children i = []) (hj : s.Reaches i j) : j = i := by
  rcases Relation.ReflTransGen.cases_head hj with rfl | ⟨c, hc, _⟩
  · rfl
  · rw [h] at hc
    cases hc

theorem acyclic_of_leaf (h : s.children i = []) : s.Acyclic i := by
  intro j hj hcycle
  obtain ⟨c, hc, _⟩ := Relation.TransGen.head'_iff.mp hcycle
  rw [eq_of_reaches_leaf h hj, h] at hc
  cases hc

/-- A store is acyclic where all references go back, or to nothing. -/
theorem acyclic_of_lt (h : ∀ i < s.size, ∀ j ∈ s.children i, j < i ∨ s.size ≤ j) (start : NodeId) :
    s.Acyclic start := by
  have hchild : ∀ i j : Nat, j ∈ s.children i → j < i ∨ s.size ≤ j :=
    fun i j hj => h i (lt_size_of_mem_children hj) j hj
  have hdown : ∀ i j : Nat, Relation.TransGen (fun i j => j ∈ s.children i) i j →
      j < i ∨ s.size ≤ j := by
    intro i j hway
    induction hway with
    | single hstep => exact hchild i _ hstep
    | tail _ hstep ih =>
      have hlt := lt_size_of_mem_children hstep
      have := hchild _ _ hstep
      omega
  intro i _ hcycle
  obtain ⟨c, hc, _⟩ := Relation.TransGen.head'_iff.mp hcycle
  have hlt := lt_size_of_mem_children hc
  have := hdown i i hcycle
  omega

end Ways

/-! ### From paths to a tree -/

/-- The nodes on the way, `i` first. -/
def visited (s : Store) : (path : List Nat) → NodeId → List NodeId
  | [], i => [i]
  | position :: path, i => i :: ((s.child? i position).map (s.visited path)).getD []

theorem length_visited {path : List Nat} {i j : NodeId} (h : s.follow path i = some j) :
    (s.visited path i).length = path.length + 1 := by
  induction path generalizing i with
  | nil => rfl
  | cons k path ih =>
    obtain ⟨l, hl, h⟩ := Option.bind_eq_some_iff.mp h
    simp [visited, hl, ih h]

theorem follow_of_mem_visited {path : List Nat} {i j l : NodeId} (h : s.follow path i = some j)
    (hl : l ∈ s.visited path i) : ∃ front, s.follow front i = some l := by
  induction path generalizing i with
  | nil =>
    obtain rfl := List.mem_singleton.mp hl
    exact ⟨[], rfl⟩
  | cons k path ih =>
    obtain ⟨m, hm, h⟩ := Option.bind_eq_some_iff.mp h
    rw [visited, hm] at hl
    rcases List.mem_cons.mp hl with rfl | hl
    · exact ⟨[], rfl⟩
    · obtain ⟨front, hfront⟩ := ih h hl
      exact ⟨k :: front, by rw [follow, hm]; exact hfront⟩

/-- No node is met twice from `i` on. -/
def OneWay (s : Store) (i : NodeId) : Prop :=
  ∀ path path' j, s.follow path i = some j → s.follow path' i = some j → path = path'

theorem OneWay.child {i j : NodeId} {k : Nat} (h : s.OneWay i) (hk : s.child? i k = some j) :
    s.OneWay j := by
  intro path path' l hl hl'
  have := h (k :: path) (k :: path') l (by rw [follow, hk]; exact hl) (by rw [follow, hk]; exact hl')
  exact List.tail_eq_of_cons_eq this

theorem OneWay.nodup_visited {i j : NodeId} (h : s.OneWay i) {path : List Nat}
    (hp : s.follow path i = some j) : (s.visited path i).Nodup := by
  induction path generalizing i with
  | nil => exact List.nodup_singleton i
  | cons k path ih =>
    obtain ⟨l, hl, hp⟩ := Option.bind_eq_some_iff.mp hp
    rw [visited, hl]
    refine List.nodup_cons.mpr ⟨fun hi => ?_, ih (h.child hl) hp⟩
    obtain ⟨front, hfront⟩ := follow_of_mem_visited hp hi
    have := h [] (k :: front) i rfl (by rw [follow, hl]; exact hfront)
    cases this

/-- A path is shorter than the store is large. -/
theorem TreeShaped.length_lt {root i : NodeId} (h : s.TreeShaped root) {path : List Nat}
    (hp : s.follow path root = some i) : path.length < s.size := by
  have hle := length_le_size (OneWay.nodup_visited h.oneWay hp) fun l hl => by
    obtain ⟨front, hfront⟩ := follow_of_mem_visited hp hl
    exact h.exist front l hfront
  rw [length_visited hp] at hle
  exact hle

theorem exists_mapM_tree? {depth : Nat} {refs : List Ref}
    (h : ∀ ref ∈ refs, ∃ t, s.tree? depth ref = some t) :
    ∃ slots, refs.mapM (s.tree? depth) = some slots := by
  induction refs with
  | nil => exact ⟨[], rfl⟩
  | cons ref rest ih =>
    obtain ⟨t, ht⟩ := h ref List.mem_cons_self
    obtain ⟨slots, hslots⟩ := ih fun ref href => h ref (List.mem_cons_of_mem _ href)
    exact ⟨t :: slots, by rw [List.mapM_cons, ht, hslots]; rfl⟩

/-- Below the end of a path a tree is read to whatever depth is left. -/
theorem TreeShaped.exists_tree? {root : NodeId} (h : s.TreeShaped root) (depth : Nat)
    {path : List Nat} {i : NodeId} (hp : s.follow path root = some i)
    (hd : s.size ≤ path.length + depth) : ∃ t, s.tree? depth (some i) = some t := by
  induction depth generalizing path i with
  | zero =>
    have := h.length_lt hp
    omega
  | succ depth ih =>
    obtain ⟨node, there⟩ := node?_of_lt_size (h.exist path i hp)
    have hslots : ∀ ref ∈ node.slots, ∃ t, s.tree? depth ref = some t := by
      intro ref href
      cases ref with
      | none => exact ⟨.empty, by cases depth <;> rfl⟩
      | some j =>
        obtain ⟨k, hk⟩ := List.mem_iff_getElem?.mp href
        have hchild : s.child? i k = some j := by rw [child?_of_node? there, hk]; rfl
        refine ih (follow_concat hp hchild) ?_
        rw [List.length_append, List.length_singleton]
        omega
    obtain ⟨slots, hslots⟩ := exists_mapM_tree? hslots
    exact ⟨.node i node.mark slots, by simp [tree?, there, hslots]⟩

/-! ### Between the paths and the nodes of a held tree -/

/-- The tree in a slot of a held tree is the tree of the child that stands there. -/
theorem Holds.child? {i : NodeId} {mark : Mark} {slots : List (Tree NodeId)}
    (h : s.Holds (.node i mark slots)) (k : Nat) :
    s.child? i k = (slots[k]?.map Tree.ref).join := by
  obtain ⟨node, there, _, names, _⟩ := holds_node_iff.mp h
  rw [child?_of_node? there, names, List.getElem?_map]

theorem Holds.exists_follow {t : Tree NodeId} (h : s.Holds t) {i j : NodeId} (hi : t.ref = some i)
    (hj : j ∈ t.tags) : ∃ path, s.follow path i = some j := by
  induction t generalizing i with
  | empty => cases hi
  | node tag mark slots ih =>
    obtain rfl := Option.some.inj hi
    rw [Tree.tags_node, List.mem_cons, List.mem_flatMap] at hj
    rcases hj with rfl | ⟨t, ht, hj⟩
    · exact ⟨[], rfl⟩
    · obtain ⟨k, hk⟩ := List.mem_iff_getElem?.mp ht
      obtain ⟨_, _, _, _, below⟩ := holds_node_iff.mp h
      cases href : t.ref with
      | none =>
        cases t with
        | empty => cases hj
        | node => cases href
      | some l =>
        obtain ⟨path, hpath⟩ := ih t ht (below t ht) href hj
        refine ⟨k :: path, ?_⟩
        rw [follow, h.child? k, hk, Option.map_some, href]
        exact hpath

/-- The tree below the first step of a path, and the rest of the path. -/
theorem Holds.step {i j : NodeId} {mark : Mark} {slots : List (Tree NodeId)}
    (h : s.Holds (.node i mark slots)) {k : Nat} {path : List Nat}
    (hp : s.follow (k :: path) i = some j) :
    ∃ t l, slots[k]? = some t ∧ s.Holds t ∧ t.ref = some l ∧ s.follow path l = some j := by
  obtain ⟨l, hl, hp⟩ := Option.bind_eq_some_iff.mp hp
  rw [h.child? k] at hl
  cases ht : slots[k]? with
  | none =>
    rw [ht] at hl
    cases hl
  | some t =>
    rw [ht] at hl
    obtain ⟨_, _, _, _, below⟩ := holds_node_iff.mp h
    exact ⟨t, l, rfl, below t (List.mem_of_getElem? ht), hl, hp⟩

/-- What a path leads to is a node of the tree. -/
theorem Holds.mem_tags {t : Tree NodeId} (h : s.Holds t) {i j : NodeId} (hi : t.ref = some i)
    {path : List Nat} (hp : s.follow path i = some j) : j ∈ t.tags := by
  induction path generalizing t i with
  | nil =>
    obtain rfl := Option.some.inj hp
    cases t with
    | empty => cases hi
    | node tag mark slots =>
      obtain rfl := Option.some.inj hi
      simp
  | cons k path ih =>
    cases t with
    | empty => cases hi
    | node tag mark slots =>
      obtain rfl := Option.some.inj hi
      obtain ⟨t, l, hk, ht, hl, hp⟩ := h.step hp
      rw [Tree.tags_node, List.mem_cons, List.mem_flatMap]
      exact .inr ⟨t, List.mem_of_getElem? hk, ih ht hl hp⟩

theorem Holds.nodup_tags {t : Tree NodeId} (h : s.Holds t) {i : NodeId} (hi : t.ref = some i)
    (ho : s.OneWay i) : t.tags.Nodup := by
  induction t generalizing i with
  | empty => cases hi
  | node tag mark slots ih =>
    obtain rfl := Option.some.inj hi
    obtain ⟨_, _, _, _, below⟩ := holds_node_iff.mp h
    -- a path to each node below a slot, which begins with the position of that slot
    have hpath : ∀ {k : Nat} {t : Tree NodeId} {j : NodeId}, slots[k]? = some t → j ∈ t.tags →
        ∃ l path, t.ref = some l ∧ s.child? tag k = some l ∧
          s.follow (k :: path) tag = some j := by
      intro k t j hk hj
      cases href : t.ref with
      | none =>
        cases t with
        | empty => cases hj
        | node => cases href
      | some l =>
        have hchild : s.child? tag k = some l := by
          rw [h.child? k, hk, Option.map_some, href]
          rfl
        obtain ⟨path, hpath⟩ := (below t (List.mem_of_getElem? hk)).exists_follow href hj
        exact ⟨l, path, rfl, hchild, by rw [follow, hchild]; exact hpath⟩
    rw [Tree.tags_node, List.nodup_cons, List.nodup_flatMap]
    refine ⟨fun hj => ?_, fun t ht => ?_, ?_⟩
    · obtain ⟨t, ht, hj⟩ := List.mem_flatMap.mp hj
      obtain ⟨k, hk⟩ := List.mem_iff_getElem?.mp ht
      obtain ⟨_, path, _, _, hp⟩ := hpath hk hj
      cases ho [] (k :: path) tag rfl hp
    · obtain ⟨k, hk⟩ := List.mem_iff_getElem?.mp ht
      cases t with
      | empty => exact List.nodup_nil
      | node j mark slots =>
        obtain ⟨l, _, href, hchild, _⟩ := hpath hk (List.mem_cons_self : j ∈ _)
        exact ih _ ht (below _ ht) href (ho.child hchild)
    · rw [List.pairwise_iff_getElem]
      intro k k' hk hk' hlt
      refine List.disjoint_left.mpr fun j hj hj' => ?_
      obtain ⟨_, path, _, _, hp⟩ := hpath (List.getElem?_eq_getElem hk) hj
      obtain ⟨_, path', _, _, hp'⟩ := hpath (List.getElem?_eq_getElem hk') hj'
      have := List.head_eq_of_cons_eq (ho (k :: path) (k' :: path') j hp hp')
      omega

theorem Holds.oneWay {t : Tree NodeId} (h : s.Holds t) {i : NodeId} (hi : t.ref = some i)
    (hn : t.tags.Nodup) : s.OneWay i := by
  intro path
  induction path generalizing t i with
  | nil =>
    intro path' j hj hj'
    obtain rfl := Option.some.inj hj
    cases path' with
    | nil => rfl
    | cons k path' =>
      cases t with
      | empty => cases hi
      | node tag mark slots =>
        obtain rfl := Option.some.inj hi
        obtain ⟨t, l, hk, ht, hl, hj'⟩ := h.step hj'
        rw [Tree.tags_node, List.nodup_cons] at hn
        exact absurd (List.mem_flatMap.mpr ⟨t, List.mem_of_getElem? hk, ht.mem_tags hl hj'⟩) hn.1
  | cons k path ih =>
    intro path' j hj hj'
    cases t with
    | empty => cases hi
    | node tag mark slots =>
      obtain rfl := Option.some.inj hi
      obtain ⟨t, l, hk, ht, hl, hj⟩ := h.step hj
      rw [Tree.tags_node, List.nodup_cons, List.nodup_flatMap] at hn
      obtain ⟨hn, hslots, hdisjoint⟩ := hn
      cases path' with
      | nil =>
        obtain rfl := Option.some.inj hj'
        exact absurd (List.mem_flatMap.mpr ⟨t, List.mem_of_getElem? hk, ht.mem_tags hl hj⟩) hn
      | cons k' path' =>
        obtain ⟨t', l', hk', ht', hl', hj'⟩ := h.step hj'
        -- nodes below different slots differ, so the two paths take the same slot
        obtain rfl : k = k' := by
          by_contra hne
          have hdisjoint : t.tags.Disjoint t'.tags := by
            obtain ⟨hlt, rfl⟩ := List.getElem?_eq_some_iff.mp hk
            obtain ⟨hlt', rfl⟩ := List.getElem?_eq_some_iff.mp hk'
            rw [List.pairwise_iff_getElem] at hdisjoint
            rcases Nat.lt_or_gt_of_ne hne with hlt'' | hlt''
            · exact hdisjoint k k' hlt hlt' hlt''
            · exact fun j hj hj' => hdisjoint k' k hlt' hlt hlt'' hj' hj
          exact hdisjoint (ht.mem_tags hl hj) (ht'.mem_tags hl' hj')
        rw [hk] at hk'
        obtain rfl := Option.some.inj hk'
        rw [hl] at hl'
        obtain rfl := Option.some.inj hl'
        rw [ih ht hl (hslots t (List.mem_of_getElem? hk)) path' j hj hj']

/-- The nodes of a held tree are no more than the store has, so the size is depth enough to scan
it. -/
theorem Holds.height_le_size {t : Tree NodeId} (h : s.Holds t) (hn : t.tags.Nodup) :
    t.height ≤ s.size :=
  Nat.le_trans t.height_le_length_tags (length_le_size hn h.lt_size)

theorem Holds.tree?_size {t : Tree NodeId} (h : s.Holds t) (hn : t.tags.Nodup) :
    s.tree? s.size t.ref = some t :=
  h.tree? (h.height_le_size hn)

/-- **A sound store is tree shaped below a root exactly if a tree of pairwise different nodes is
read there.** -/
theorem treeShaped_iff {root : NodeId} :
    s.TreeShaped root ↔
      s.Sound ∧ ∃ t, s.tree? s.size (some root) = some t ∧ t.tags.Nodup := by
  constructor
  · intro h
    obtain ⟨t, ht⟩ := h.exists_tree? s.size (rfl : s.follow [] root = some root) (by simp)
    obtain ⟨held, href⟩ := holds_of_tree? ht
    exact ⟨h.sound, t, ht, held.nodup_tags href h.oneWay⟩
  · rintro ⟨hs, t, ht, hn⟩
    obtain ⟨held, href⟩ := holds_of_tree? ht
    exact ⟨hs, fun path i hp => held.lt_size i (held.mem_tags href hp), held.oneWay href hn⟩

/-- `async function f() { return await async () => await this; }`, whose file is node 8. -/
def nestedAsync : Store :=
  ({} : Store)
    |>.push .identifier 0 .zero (.identifier "f")
    |>.pushToken .thisKeyword 0 .zero
    |>.push (.suspension .await) 0 .zero (.suspension ⟨some 1, false⟩)
    |>.push (.function .arrow) 0 .zero (.function ⟨none, [], some 2, true, false⟩)
    |>.push (.suspension .await) 0 .zero (.suspension ⟨some 3, false⟩)
    |>.push .returnStatement 0 .zero (.returnStatement (some 4))
    |>.push .block 0 .zero (.block [some 5])
    |>.push (.function .declaration) 0 .zero (.function ⟨some 0, [], some 6, true, false⟩)
    |>.push .sourceFile 0 .zero (.sourceFile ⟨"f.js", [some 7]⟩)

theorem sound_empty : ({} : Store).Sound where
  carried := fun i kind h => by simp [kind?, header?] at h
  unshared := fun i j address h => by simp [address?, header?] at h

theorem sound_nestedAsync : nestedAsync.Sound :=
  (revision_pushToken (sound_empty.push 0 .zero rfl) 0 .zero rfl).sound
    |>.push 0 .zero rfl |>.push 0 .zero rfl |>.push 0 .zero rfl |>.push 0 .zero rfl
    |>.push 0 .zero rfl |>.push 0 .zero rfl |>.push 0 .zero rfl

theorem treeShaped_nestedAsync : nestedAsync.TreeShaped 8 :=
  treeShaped_iff.mpr ⟨sound_nestedAsync, _, rfl, by decide⟩

end Store

/-- The tree of a program. -/
def Program.tree? (program : Program) : Option (Tree NodeId) :=
  program.store.tree? program.store.size (some program.root)

/-- A program is made of a tree-shaped store: its tree, and what is in it. -/
structure Program.Grounded (p : Program) (mark : Mark) (statements : List (Tree NodeId)) : Prop where
  sound : p.store.Sound
  held : p.store.Holds (.node p.root mark statements)
  nodup : (Tree.node p.root mark statements).tags.Nodup
  kind : mark.kind = .sourceFile

/-- Only a source file carries the payload of one. -/
theorem Store.kind?_of_sourceFile {s : Store} {i : NodeId} {parts : FileParts Ref}
    (h : s.payload? i = some (.sourceFile parts)) : s.kind? i = some .sourceFile := by
  obtain ⟨node, there, hpayload⟩ := exists_node_of_payload? h
  have hform := form_of_node? there hpayload
  rw [kind?_of_node? there]
  cases hk : node.kind <;> simp_all [Kind.form?, Payload.form]

/-- A program with a file at its root, over a tree-shaped store. -/
theorem grounded_of_treeShaped {p : Program} (hshape : p.store.TreeShaped p.root)
    (hroot : p.store.kind? p.root = some .sourceFile) :
    ∃ mark statements, p.Grounded mark statements ∧
      p.tree? = some (.node p.root mark statements) := by
  obtain ⟨hs, t, ht, hn⟩ := Store.treeShaped_iff.mp hshape
  obtain ⟨held, href⟩ := Store.holds_of_tree? ht
  cases t with
  | empty => cases href
  | node i mark statements =>
    obtain rfl := Option.some.inj href
    refine ⟨mark, statements, ⟨hs, held, hn, ?_⟩, ht⟩
    rw [held.kind? href] at hroot
    exact Option.some.inj hroot

/-- The program of a tree-shaped store. -/
theorem grounded_of_ofStore {store : Store} {root : NodeId} {p : Program}
    (hshape : store.TreeShaped root) (hp : Program.ofStore store root = .ok p) :
    ∃ mark statements, p.Grounded mark statements ∧ p.root = root ∧
      p.tree? = some (.node p.root mark statements) := by
  unfold Program.ofStore at hp
  split at hp
  · rename_i parts hpayload
    cases hp
    obtain ⟨mark, statements, h, htree⟩ := grounded_of_treeShaped
      (p := ⟨parts.fileName, store, root, [], {inFile := store.identifierTexts}⟩) hshape
      (Store.kind?_of_sourceFile hpayload)
    exact ⟨mark, statements, h, rfl, htree⟩
  · cases hp

end Settle
