import Mathlib.Data.List.Forall2
import Mathlib.Data.List.Nodup
import Mathlib.Data.List.Perm.Subperm
import Settle.Proofs.Node

/-! Trees.

What can be read from a node of a store downwards is a tree. A node of a tree has a
mark, which is all that the node says of itself (kind, flags, span, texts, and what
its payload says in booleans), and a list of slots in source order, each a tree or
empty. Mark and slots together are the node (`Node.ext_mark`). Nodes are tagged:
with their ids as long as it matters which is which, with nothing where only the
text of a program counts (`Tree.erase`).

`Store.Holds` relates a store to the trees it holds, `Store.tree?` reads one. A
change of the store at other nodes leaves a held tree alone (`Holds.frame`). -/
namespace Settle

/-! ### Marks -/

/-- What a payload says besides its slots. -/
inductive Detail where
  | identifier (text : String)
  | literal (text : String)
  | sourceFile (fileName : String)
  | function (isAsync isGenerator : Bool)
  | suspension (delegates : Bool)
  | tryExpression (isAsync isGenerator : Bool)
  /-- Nothing but its form. -/
  | plain (form : Form)
  deriving DecidableEq, Repr

def Payload.detail {ρ : Type} : Payload ρ → Detail
  | .identifier text => .identifier text
  | .literal text => .literal text
  | .sourceFile parts => .sourceFile parts.fileName
  | .function parts => .function parts.isAsync parts.isGenerator
  | .suspension parts => .suspension parts.delegates
  | .tryExpression parts => .tryExpression parts.isAsync parts.isGenerator
  | payload => .plain payload.form

/-- What a node says of itself. -/
structure Mark where
  kind : Kind
  flags : UInt32
  span : Span
  detail : Option Detail
  deriving DecidableEq, Repr

/-- The mark of a node that no source text stands behind. -/
def Mark.made {ρ : Type} (kind : Kind) (payload : Payload ρ) : Mark :=
  ⟨kind, 0, .zero, some payload.detail⟩

def Node.mark (node : Node) : Mark :=
  ⟨node.kind, node.flags, node.span, node.payload.map Payload.detail⟩

/-- A payload is known by its detail and its slots. -/
theorem Payload.ext_detail {ρ : Type} {p q : Payload ρ} (hd : p.detail = q.detail)
    (hs : p.slots = q.slots) : p = q := by
  cases p <;> cases q <;> simp_all [detail, slots, form]
  all_goals
    rename_i p q
    cases p
    cases q
    simp_all

/-- A node is known by its mark and its slots. -/
theorem Node.ext_mark {a b : Node} (hm : a.mark = b.mark) (hs : a.slots = b.slots) : a = b := by
  obtain ⟨kind, flags, span, p⟩ := a
  obtain ⟨kind', flags', span', q⟩ := b
  simp only [Node.mark, Mark.mk.injEq] at hm
  obtain ⟨rfl, rfl, rfl, hd⟩ := hm
  cases p with
  | none =>
    cases q with
    | none => rfl
    | some q => cases hd
  | some p =>
    cases q with
    | none => cases hd
    | some q =>
      have hpq : p = q := Payload.ext_detail (Option.some.inj hd) hs
      rw [hpq]

/-! ### Trees -/

/-- A tree whose nodes are tagged. -/
inductive Tree (α : Type) where
  /-- A slot in which nothing stands. -/
  | empty
  | node (tag : α) (mark : Mark) (slots : List (Tree α))

namespace Tree
variable {α β : Type}

/-- Induction over trees: a property of all slots is a property of the node. -/
@[elab_as_elim, induction_eliminator]
theorem induct {motive : Tree α → Prop} (empty : motive .empty)
    (node : ∀ tag mark slots, (∀ t ∈ slots, motive t) → motive (.node tag mark slots))
    (t : Tree α) : motive t :=
  @Tree.rec α motive (fun slots => ∀ t ∈ slots, motive t) empty node
    (fun t h => absurd h List.not_mem_nil)
    (fun head tail hhead htail t h => by
      rcases List.mem_cons.mp h with rfl | h
      · exact hhead
      · exact htail t h) t

mutual
/-- The nodes of a tree in source order. -/
def nodes : Tree α → List (α × Mark)
  | .empty => []
  | .node tag mark slots => (tag, mark) :: nodesAll slots
def nodesAll : List (Tree α) → List (α × Mark)
  | [] => []
  | t :: rest => nodes t ++ nodesAll rest
end

theorem nodesAll_eq (slots : List (Tree α)) : nodesAll slots = slots.flatMap nodes := by
  induction slots with
  | nil => rfl
  | cons t rest ih => rw [nodesAll, ih, List.flatMap_cons]

def tags (t : Tree α) : List α := t.nodes.map Prod.fst

@[simp]
theorem tags_empty : (empty : Tree α).tags = [] := rfl

@[simp]
theorem tags_node (tag : α) (mark : Mark) (slots : List (Tree α)) :
    (node tag mark slots).tags = tag :: slots.flatMap tags := by
  rw [tags, nodes, nodesAll_eq, List.map_cons, List.map_flatMap]
  rfl

theorem mem_tags_node {tag i : α} {mark : Mark} {slots : List (Tree α)} {t : Tree α}
    (ht : t ∈ slots) (hi : i ∈ t.tags) : i ∈ (node tag mark slots).tags := by
  rw [tags_node]
  exact List.mem_cons_of_mem _ (List.mem_flatMap.mpr ⟨t, ht, hi⟩)

mutual
/-- The same tree with other tags. -/
def map (f : α → β) : Tree α → Tree β
  | .empty => .empty
  | .node tag mark slots => .node (f tag) mark (mapAll f slots)
def mapAll (f : α → β) : List (Tree α) → List (Tree β)
  | [] => []
  | t :: rest => map f t :: mapAll f rest
end

theorem mapAll_eq (f : α → β) (slots : List (Tree α)) : mapAll f slots = slots.map (map f) := by
  induction slots with
  | nil => rfl
  | cons t rest ih => rw [mapAll, ih, List.map_cons]

theorem map_node (f : α → β) (tag : α) (mark : Mark) (slots : List (Tree α)) :
    (node tag mark slots).map f = .node (f tag) mark (slots.map (map f)) := by
  rw [map, mapAll_eq]

/-- The tree without regard to which node is which. -/
def erase (t : Tree α) : Tree Unit := t.map fun _ => ()

@[simp]
theorem erase_empty : (empty : Tree α).erase = .empty := rfl

@[simp]
theorem erase_node (tag : α) (mark : Mark) (slots : List (Tree α)) :
    (node tag mark slots).erase = .node () mark (slots.map erase) :=
  map_node _ tag mark slots

/-- The kind of the node at the top. -/
def kind? : Tree α → Option Kind
  | .empty => none
  | .node _ mark _ => some mark.kind

theorem kind?_erase (t : Tree α) : t.erase.kind? = t.kind? := by
  cases t with
  | empty => rfl
  | node tag mark slots => rw [erase_node]; rfl

/-- A new node over trees. -/
def made (tag : α) (kind : Kind) (payload : Payload (Tree α)) : Tree α :=
  .node tag (.made kind payload) payload.slots

/-- What a slot holds whose tree is this. -/
def ref : Tree NodeId → Ref
  | .empty => none
  | .node i _ _ => some i

@[simp]
theorem ref_empty : (empty : Tree NodeId).ref = none := rfl

@[simp]
theorem ref_node (i : NodeId) (mark : Mark) (slots : List (Tree NodeId)) :
    (node i mark slots).ref = some i := rfl

theorem mem_tags_of_ref {t : Tree NodeId} {i : NodeId} (h : t.ref = some i) : i ∈ t.tags := by
  cases t with
  | empty => cases h
  | node tag mark slots =>
    obtain rfl := Option.some.inj h
    exact List.mem_cons_self

mutual
def height : Tree α → Nat
  | .empty => 0
  | .node _ _ slots => heightAll slots + 1
def heightAll : List (Tree α) → Nat
  | [] => 0
  | t :: rest => max (height t) (heightAll rest)
end

theorem height_le_heightAll {t : Tree α} {slots : List (Tree α)} (h : t ∈ slots) :
    t.height ≤ heightAll slots := by
  induction slots with
  | nil => cases h
  | cons head rest ih =>
    rw [heightAll]
    rcases List.mem_cons.mp h with rfl | h
    · omega
    · have := ih h
      omega

theorem heightAll_le {slots : List (Tree α)} {n : Nat} (h : ∀ t ∈ slots, t.height ≤ n) :
    heightAll slots ≤ n := by
  induction slots with
  | nil => exact Nat.zero_le n
  | cons head rest ih =>
    have hhead := h head List.mem_cons_self
    have hrest := ih fun t ht => h t (List.mem_cons_of_mem _ ht)
    rw [heightAll]
    omega

/-- A chain of nodes one below the other is no longer than there are nodes. -/
theorem height_le_length_tags (t : Tree α) : t.height ≤ t.tags.length := by
  induction t with
  | empty => exact Nat.le_refl 0
  | node tag mark slots ih =>
    rw [height, tags_node, List.length_cons]
    refine Nat.succ_le_succ (heightAll_le fun t ht => ?_)
    refine Nat.le_trans (ih t ht) ?_
    rw [List.flatMap_def]
    exact (List.sublist_flatten_of_mem (List.mem_map_of_mem ht)).length_le

end Tree

/-! ### Trees that a store holds -/

namespace Store

/-- The store has this tree: each of its nodes is there with that mark, and its slots name the trees
below it. -/
inductive Holds (s : Store) : Tree NodeId → Prop where
  | empty : Holds s .empty
  | node {i : NodeId} {node : Node} {slots : List (Tree NodeId)} (there : s.node? i = some node)
      (names : node.slots = slots.map Tree.ref) (below : ∀ t ∈ slots, s.Holds t) :
      Holds s (.node i node.mark slots)

/-- Reads the tree at a reference, to a depth. A reference to no node, or one that is too deep, is
not read as anything. -/
def tree? (s : Store) : (depth : Nat) → Ref → Option (Tree NodeId)
  | _, none => some .empty
  | 0, some _ => none
  | depth + 1, some i => do
    let node ← s.node? i
    let slots ← node.slots.mapM (s.tree? depth)
    return .node i node.mark slots

variable {s s' : Store}

theorem holds_node_iff {i : NodeId} {mark : Mark} {slots : List (Tree NodeId)} :
    s.Holds (.node i mark slots) ↔
      ∃ node, s.node? i = some node ∧ node.mark = mark ∧ node.slots = slots.map Tree.ref ∧
        ∀ t ∈ slots, s.Holds t := by
  constructor
  · rintro (_ | ⟨there, names, below⟩)
    exact ⟨_, there, rfl, names, below⟩
  · rintro ⟨node, there, rfl, names, below⟩
    exact .node there names below

theorem Holds.children {i : NodeId} {mark : Mark} {slots : List (Tree NodeId)}
    (h : s.Holds (.node i mark slots)) : s.children i = slots.filterMap Tree.ref := by
  obtain ⟨node, there, _, names, _⟩ := holds_node_iff.mp h
  rw [children_of_node? there, Node.children, names, List.filterMap_map]
  rfl

theorem Holds.kind? {t : Tree NodeId} (h : s.Holds t) {i : NodeId} (hi : t.ref = some i) :
    s.kind? i = t.kind? := by
  cases h with
  | empty => cases hi
  | node there names below =>
    obtain rfl := Option.some.inj hi
    exact kind?_of_node? there

theorem Holds.lt_size {t : Tree NodeId} (h : s.Holds t) : ∀ i ∈ t.tags, i < s.size := by
  induction h with
  | empty =>
    intro i hi
    cases hi
  | node there names below ih =>
    intro i hi
    rw [Tree.tags_node, List.mem_cons, List.mem_flatMap] at hi
    rcases hi with rfl | ⟨t, ht, hi⟩
    · exact lt_size_of_node? there
    · exact ih t ht i hi

/-- A held tree stays as long as its own nodes stay. -/
theorem Holds.frame {t : Tree NodeId} (h : s.Holds t)
    (hs : ∀ i ∈ t.tags, s'.node? i = s.node? i) : s'.Holds t := by
  induction h with
  | empty => exact .empty
  | node there names below ih =>
    refine .node ?_ names fun t ht => ih t ht fun i hi => hs i ?_
    · rw [hs _ (by simp), there]
    · rw [Tree.tags_node]
      exact List.mem_cons_of_mem _ (List.mem_flatMap.mpr ⟨t, ht, hi⟩)

theorem mapM_tree? {depth : Nat} {slots : List (Tree NodeId)}
    (h : ∀ t ∈ slots, s.tree? depth t.ref = some t) :
    (slots.map Tree.ref).mapM (s.tree? depth) = some slots := by
  induction slots with
  | nil => rfl
  | cons t rest ih =>
    rw [List.map_cons, List.mapM_cons, h t List.mem_cons_self,
      ih fun t ht => h t (List.mem_cons_of_mem _ ht)]
    rfl

/-- A tree that is held is read, given the depth. -/
theorem Holds.tree? {t : Tree NodeId} (h : s.Holds t) {depth : Nat} (hd : t.height ≤ depth) :
    s.tree? depth t.ref = some t := by
  induction h generalizing depth with
  | empty => cases depth <;> rfl
  | @node i node slots there names below ih =>
    cases depth with
    | zero => cases hd
    | succ depth =>
      have hslots : node.slots.mapM (s.tree? depth) = some slots := by
        rw [names]
        refine mapM_tree? fun t ht => ih t ht ?_
        exact Nat.le_trans (Tree.height_le_heightAll ht) (Nat.le_of_succ_le_succ hd)
      simp [Tree.ref, Store.tree?, there, hslots]

theorem holds_of_mapM_tree? {depth : Nat}
    (ih : ∀ {ref : Ref} {t : Tree NodeId}, s.tree? depth ref = some t → s.Holds t ∧ t.ref = ref)
    {refs : List Ref} {slots : List (Tree NodeId)} (h : refs.mapM (s.tree? depth) = some slots) :
    refs = slots.map Tree.ref ∧ ∀ t ∈ slots, s.Holds t := by
  induction refs generalizing slots with
  | nil =>
    cases h
    exact ⟨rfl, fun t ht => absurd ht List.not_mem_nil⟩
  | cons ref rest ihrest =>
    rw [List.mapM_cons] at h
    obtain ⟨t, ht, h⟩ := Option.bind_eq_some_iff.mp h
    obtain ⟨slots, hslots, h⟩ := Option.bind_eq_some_iff.mp h
    cases h
    obtain ⟨held, rfl⟩ := ih ht
    obtain ⟨rfl, below⟩ := ihrest hslots
    refine ⟨rfl, fun t ht => ?_⟩
    rcases List.mem_cons.mp ht with rfl | ht
    · exact held
    · exact below t ht

/-- What is read is held, at the place it was read from. -/
theorem holds_of_tree? {depth : Nat} {ref : Ref} {t : Tree NodeId}
    (h : s.tree? depth ref = some t) : s.Holds t ∧ t.ref = ref := by
  induction depth generalizing ref t with
  | zero =>
    cases ref with
    | none =>
      cases h
      exact ⟨.empty, rfl⟩
    | some i => cases h
  | succ depth ih =>
    cases ref with
    | none =>
      cases h
      exact ⟨.empty, rfl⟩
    | some i =>
      obtain ⟨node, there, h⟩ := Option.bind_eq_some_iff.mp h
      obtain ⟨slots, hslots, h⟩ := Option.bind_eq_some_iff.mp h
      cases h
      obtain ⟨names, below⟩ := holds_of_mapM_tree? ih hslots
      exact ⟨.node there names below, rfl⟩

end Store
end Settle
