import Settle.Proofs.Shape
import Settle.Proofs.Visit

/-! Walking over trees.

A walk goes over the nodes of a store; here it is seen as going over trees. What
stands in the slots of a node is planted (`Planted`): the store holds the trees,
no node is in two places, and none belongs to what lies outside, nodes that are
kept for other uses. A visit may replace the tree at a node, as long as the new one
has no nodes but old ones and new ones and the rest of the store stays
(`Grown`).

If every visit does to the tree at its node what `act` says (`Acts`), then a
walk does to a whole tree what `Walked` says: `act` at the top, then the same in
the slots of what came of it (`walk_forest`). A walk that runs out of depth leaves
some of the trees as they were. -/
namespace Settle

/-! ### Trees in a store -/

/-- The store holds these trees, apart from each other and from what is outside. -/
structure Planted (outside : NodeId → Prop) (s : Store) (ts : List (Tree NodeId)) : Prop where
  holds : ∀ t ∈ ts, s.Holds t
  nodup : (ts.flatMap Tree.tags).Nodup
  inside : ∀ i ∈ ts.flatMap Tree.tags, ¬outside i

/-- The trees became others in the same places, made of their own nodes and of new ones. Apart from
that only what is outside may have changed. -/
structure Grown (outside : NodeId → Prop) (s : Store) (ts : List (Tree NodeId)) (s' : Store)
    (ts' : List (Tree NodeId)) : Prop where
  planted : Planted outside s' ts'
  grows : s.size ≤ s'.size
  tags : ∀ i ∈ ts'.flatMap Tree.tags, i ∈ ts.flatMap Tree.tags ∨ s.size ≤ i
  frame : ∀ i : Nat, i < s.size → i ∉ ts.flatMap Tree.tags → ¬outside i →
    s'.node? i = s.node? i
  refs : ts'.map Tree.ref = ts.map Tree.ref

variable {outside : NodeId → Prop} {s s' s'' : Store} {t t' : Tree NodeId}
  {ts ts' ts'' : List (Tree NodeId)}

theorem Planted.lt_size (h : Planted outside s ts) {i : NodeId} (hi : i ∈ ts.flatMap Tree.tags) :
    i < s.size := by
  obtain ⟨t, ht, hi⟩ := List.mem_flatMap.mp hi
  exact (h.holds t ht).lt_size i hi

theorem planted_cons_iff :
    Planted outside s (t :: ts) ↔
      Planted outside s [t] ∧ Planted outside s ts ∧ t.tags.Disjoint (ts.flatMap Tree.tags) := by
  constructor
  · rintro ⟨holds, nodup, inside⟩
    rw [List.flatMap_cons, List.nodup_append'] at nodup
    rw [List.flatMap_cons] at inside
    refine ⟨⟨fun u hu => ?_, ?_, fun i hi => ?_⟩, ⟨fun u hu => ?_, nodup.2.1, fun i hi => ?_⟩,
      nodup.2.2⟩
    · exact holds u (List.mem_cons.mpr (.inl (List.mem_singleton.mp hu)))
    · simpa using nodup.1
    · exact inside i (List.mem_append_left _ (by simpa using hi))
    · exact holds u (List.mem_cons_of_mem _ hu)
    · exact inside i (List.mem_append_right _ hi)
  · rintro ⟨head, tail, disjoint⟩
    have hhead := head.nodup
    have hinside := head.inside
    rw [List.flatMap_singleton] at hhead hinside
    refine ⟨fun u hu => ?_, ?_, fun i hi => ?_⟩
    · rcases List.mem_cons.mp hu with rfl | hu
      · exact head.holds u List.mem_cons_self
      · exact tail.holds u hu
    · rw [List.flatMap_cons, List.nodup_append']
      exact ⟨hhead, tail.nodup, disjoint⟩
    · rw [List.flatMap_cons] at hi
      rcases List.mem_append.mp hi with hi | hi
      · exact hinside i hi
      · exact tail.inside i hi

theorem Planted.slots {i : NodeId} {mark : Mark} (h : Planted outside s [.node i mark ts]) :
    Planted outside s ts ∧ i ∉ ts.flatMap Tree.tags := by
  obtain ⟨_, _, _, _, below⟩ := Store.holds_node_iff.mp (h.holds _ List.mem_cons_self)
  have hnodup := h.nodup
  have hinside := h.inside
  simp only [List.flatMap_singleton, Tree.tags_node, List.nodup_cons] at hnodup hinside
  exact ⟨⟨below, hnodup.2, fun j hj => hinside j (List.mem_cons_of_mem _ hj)⟩, hnodup.1⟩

theorem Grown.refl (h : Planted outside s ts) : Grown outside s ts s ts :=
  ⟨h, Nat.le_refl _, fun _ hi => .inl hi, fun _ _ _ _ => rfl, rfl⟩

theorem Grown.trans (h₁ : Grown outside s ts s' ts')
    (h₂ : Grown outside s' ts' s'' ts'') : Grown outside s ts s'' ts'' where
  planted := h₂.planted
  grows := Nat.le_trans h₁.grows h₂.grows
  tags := fun i hi => by
    rcases h₂.tags i hi with hi | hi
    · exact h₁.tags i hi
    · exact .inr (Nat.le_trans h₁.grows hi)
  frame := fun i hlt hi ho => by
    have hi' : i ∉ ts'.flatMap Tree.tags := fun hi' => by
      rcases h₁.tags i hi' with hi' | hi'
      · exact hi hi'
      · exact absurd hlt (Nat.not_lt.mpr hi')
    rw [h₂.frame i (Nat.lt_of_lt_of_le hlt h₁.grows) hi' ho, h₁.frame i hlt hi ho]
  refs := h₂.refs.trans h₁.refs

/-- Trees apart from one that changes are left alone. -/
theorem Grown.others (h : Planted outside s (t :: ts)) (h₁ : Grown outside s [t] s' [t']) :
    Planted outside s' (t' :: ts) := by
  obtain ⟨_, tail, disjoint⟩ := planted_cons_iff.mp h
  refine planted_cons_iff.mpr ⟨h₁.planted, ⟨fun u hu => ?_, tail.nodup, tail.inside⟩, ?_⟩
  · refine (tail.holds u hu).frame fun i hi => ?_
    have hi := List.mem_flatMap.mpr ⟨u, hu, hi⟩
    refine h₁.frame i (tail.lt_size hi) (fun hi' => ?_) (tail.inside i hi)
    exact disjoint (by simpa using hi') hi
  · intro i hi hi'
    rcases h₁.tags i (by simpa using hi) with hi | hi
    · exact disjoint (by simpa using hi) hi'
    · exact absurd (tail.lt_size hi') (Nat.not_lt.mpr hi)

/-- One tree after another. -/
theorem Grown.cons (h : Planted outside s (t :: ts)) (h₁ : Grown outside s [t] s' [t'])
    (h₂ : Grown outside s' ts s'' ts') : Grown outside s (t :: ts) s'' (t' :: ts') := by
  obtain ⟨head, tail, _⟩ := planted_cons_iff.mp h
  have hmid := h₁.others h
  obtain ⟨head', tail', disjoint'⟩ := planted_cons_iff.mp hmid
  have hframe : ∀ i ∈ t'.tags, s''.node? i = s'.node? i := fun i hi => by
    have hi' : i ∈ [t'].flatMap Tree.tags := by simpa using hi
    exact h₂.frame i (head'.lt_size hi') (fun hts => disjoint' hi hts) (head'.inside i hi')
  refine ⟨planted_cons_iff.mpr ⟨⟨fun u hu => ?_, head'.nodup, head'.inside⟩, h₂.planted, ?_⟩,
    Nat.le_trans h₁.grows h₂.grows, fun i hi => ?_, fun i hlt hi ho => ?_, ?_⟩
  · obtain rfl := List.mem_singleton.mp hu
    exact (head'.holds u List.mem_cons_self).frame hframe
  · intro i hi hi'
    rcases h₂.tags i hi' with hts | hge
    · exact disjoint' hi hts
    · exact absurd (head'.lt_size (by simpa using hi)) (Nat.not_lt.mpr hge)
  · rw [List.flatMap_cons] at hi ⊢
    rcases List.mem_append.mp hi with hi | hi
    · rcases h₁.tags i (by simpa using hi) with hi | hi
      · exact .inl (List.mem_append_left _ (by simpa using hi))
      · exact .inr hi
    · rcases h₂.tags i hi with hi | hi
      · exact .inl (List.mem_append_right _ hi)
      · exact .inr (Nat.le_trans h₁.grows hi)
  · rw [List.flatMap_cons, List.mem_append, not_or] at hi
    rw [h₂.frame i (Nat.lt_of_lt_of_le hlt h₁.grows) hi.2 ho,
      h₁.frame i hlt (by simpa using hi.1) ho]
  · have hhead := h₁.refs
    simp only [List.map_cons, List.map_nil, List.cons.injEq, and_true] at hhead
    rw [List.map_cons, List.map_cons, hhead, h₂.refs]

/-- What changes in the slots of a node changes in the tree at the node. -/
theorem Grown.node {i : NodeId} {mark : Mark} (h : Planted outside s [.node i mark ts])
    (h₁ : Grown outside s ts s' ts') :
    Grown outside s [.node i mark ts] s' [.node i mark ts'] := by
  obtain ⟨_, hi⟩ := h.slots
  have hmem : i ∈ [Tree.node i mark ts].flatMap Tree.tags := by simp
  have hlt := h.lt_size hmem
  have hi' : i ∉ ts'.flatMap Tree.tags := fun hi' => by
    rcases h₁.tags i hi' with hi' | hi'
    · exact hi hi'
    · exact absurd hlt (Nat.not_lt.mpr hi')
  obtain ⟨node, there, hmark, names, _⟩ := Store.holds_node_iff.mp (h.holds _ List.mem_cons_self)
  refine ⟨⟨fun u hu => ?_, ?_, fun j hj => ?_⟩, h₁.grows, fun j hj => ?_, fun j hlt hj ho => ?_, rfl⟩
  · obtain rfl := List.mem_singleton.mp hu
    rw [Store.holds_node_iff]
    refine ⟨node, ?_, hmark, by rw [names, h₁.refs], h₁.planted.holds⟩
    rw [h₁.frame i hlt hi (h.inside i hmem), there]
  · simp only [List.flatMap_singleton, Tree.tags_node, List.nodup_cons]
    exact ⟨hi', h₁.planted.nodup⟩
  · simp only [List.flatMap_singleton, Tree.tags_node, List.mem_cons] at hj
    rcases hj with rfl | hj
    · exact h.inside j hmem
    · exact h₁.planted.inside j hj
  · simp only [List.flatMap_singleton, Tree.tags_node, List.mem_cons] at hj ⊢
    rcases hj with rfl | hj
    · exact .inl (.inl rfl)
    · rcases h₁.tags j hj with hj | hj
      · exact .inl (.inr hj)
      · exact .inr hj
  · simp only [List.flatMap_singleton, Tree.tags_node, List.mem_cons, not_or] at hj
    exact h₁.frame j hlt hj.2 ho

/-! ### Walks -/

/-- What a walk makes of a tree where a visit makes of it what `act` says, down to a depth. Only a
walk that is not complete leaves trees as they were. -/
def Walked (act : Tree NodeId → Tree NodeId → Prop) (complete : Bool) :
    (depth : Nat) → Tree NodeId → Tree NodeId → Prop
  | 0, t, t' => t' = t ∧ (complete → t = .empty)
  | depth + 1, t, t' => (t' = t ∧ (complete → t = .empty)) ∨
      ∃ i mark slots slots', act t (.node i mark slots) ∧ t' = .node i mark slots' ∧
        List.Forall₂ (Walked act complete depth) slots slots'

variable {act : Tree NodeId → Tree NodeId → Prop}

theorem Walked.empty (complete : Bool) (depth : Nat) : Walked act complete depth .empty .empty := by
  cases depth with
  | zero => exact ⟨rfl, fun _ => rfl⟩
  | succ depth => exact .inl ⟨rfl, fun _ => rfl⟩

theorem Walked.untouched (depth : Nat) (t : Tree NodeId) : Walked act false depth t t := by
  cases depth with
  | zero => exact ⟨rfl, fun h => nomatch h⟩
  | succ depth => exact .inl ⟨rfl, fun h => nomatch h⟩

theorem Walked.weaken {complete : Bool} {depth : Nat} (h : Walked act complete depth t t') :
    Walked act false depth t t' := by
  induction depth generalizing t t' with
  | zero =>
    obtain ⟨rfl, _⟩ := h
    exact .untouched 0 t'
  | succ depth ih =>
    rcases h with ⟨rfl, _⟩ | ⟨i, mark, slots, slots', hact, rfl, hslots⟩
    · exact .untouched (depth + 1) t'
    · exact .inr ⟨i, mark, slots, slots', hact, rfl, hslots.imp fun _ _ => ih⟩

/-- How a walk ends: with everything walked, or stopped where the depth ran out. -/
inductive Ended {σ α : Type} (s : σ) : Bool → EStateM.Result Fault σ α → Prop where
  | whole (a : α) : Ended s true (.ok a s)
  | stopped (i : NodeId) : Ended s false (.error (.depthLimit i) s)

/-- Each visit of a pass acts on the tree at its node, and keeps up what is known of the walk. -/
structure Acts {σ : Type} (pass : Pass σ) (outside : NodeId → Prop) (known : Walk σ → Prop)
    (act : Tree NodeId → Tree NodeId → Prop) : Prop where
  visited : ∀ {w : Walk σ} {i : NodeId} {mark : Mark} {slots : List (Tree NodeId)}
    {visitor : Visitor σ}, known w → Planted outside w.program.store [.node i mark slots] →
    pass.visitor? mark.kind = some visitor →
    ∃ w' mark' slots', visitor i w = .ok () w' ∧ known w' ∧
      act (.node i mark slots) (.node i mark' slots') ∧
      Grown outside w.program.store [.node i mark slots] w'.program.store [.node i mark' slots']
  skipped : ∀ {i : NodeId} {mark : Mark} {slots : List (Tree NodeId)},
    pass.visitor? mark.kind = none → act (.node i mark slots) (.node i mark slots)

section Walks
variable {σ : Type} {pass : Pass σ} {known : Walk σ → Prop}

/-- What a walk over some trees comes to. -/
def WalksOver (pass : Pass σ) (outside : NodeId → Prop) (known : Walk σ → Prop)
    (act : Tree NodeId → Tree NodeId → Prop) (depth : Nat) (ts : List (Tree NodeId)) : Prop :=
  ∀ w : Walk σ, known w → Planted outside w.program.store ts →
    ∃ complete w' ts', Ended w' complete ((ts.filterMap Tree.ref).forM (pass.visit depth) w) ∧
      known w' ∧ Grown outside w.program.store ts w'.program.store ts' ∧
      List.Forall₂ (Walked act complete depth) ts ts'

theorem visit_missing {w : Walk σ} {i : NodeId} (h : w.program.store.kind? i = none) (depth : Nat) :
    pass.visit (depth + 1) i w = .ok () w := by
  rw [Pass.visit, bind_ok (show WalkM.store w = .ok w.program.store w from rfl), h]
  rfl

/-- The walk over a node: its visit, if there is one, then the walk over the children it then
has. -/
theorem visit_succ {w w₁ : Walk σ} {i : NodeId} {kind : Kind}
    (h : w.program.store.kind? i = some kind)
    (hvisit : ∀ visitor, pass.visitor? kind = some visitor → visitor i w = .ok () w₁)
    (hskip : pass.visitor? kind = none → w₁ = w) (depth : Nat) :
    pass.visit (depth + 1) i w =
      (w₁.program.store.children i).forM (pass.visit depth) w₁ := by
  have hrest : (do ((← WalkM.store).children i).forM (pass.visit depth) : WalkM σ Unit) w₁ =
      (w₁.program.store.children i).forM (pass.visit depth) w₁ := rfl
  rw [← hrest, Pass.visit, bind_ok (show WalkM.store w = .ok w.program.store w from rfl), h]
  cases hv : pass.visitor? kind with
  | none =>
    rw [hskip hv]
    simp only [hv]
  | some visitor =>
    simp only [hv]
    exact bind_ok (hvisit visitor hv)

theorem walk_node (h : Acts pass outside known act) {depth : Nat}
    (ih : ∀ ts, WalksOver pass outside known act depth ts) {i : NodeId} {mark : Mark}
    {slots : List (Tree NodeId)} {w : Walk σ} (hw : known w)
    (hp : Planted outside w.program.store [.node i mark slots]) :
    ∃ complete w' t', Ended w' complete (pass.visit (depth + 1) i w) ∧ known w' ∧
      Grown outside w.program.store [.node i mark slots] w'.program.store [t'] ∧
      Walked act complete (depth + 1) (.node i mark slots) t' := by
  have hvisit : ∃ w₁ mark₁ slots₁, known w₁ ∧ act (.node i mark slots) (.node i mark₁ slots₁) ∧
      Grown outside w.program.store [.node i mark slots] w₁.program.store [.node i mark₁ slots₁] ∧
      (∀ visitor, pass.visitor? mark.kind = some visitor → visitor i w = .ok () w₁) ∧
      (pass.visitor? mark.kind = none → w₁ = w) := by
    cases hv : pass.visitor? mark.kind with
    | none =>
      exact ⟨w, mark, slots, hw, h.skipped hv, .refl hp, fun _ h => (nomatch h), fun _ => rfl⟩
    | some visitor =>
      obtain ⟨w₁, mark₁, slots₁, hrun, hw₁, hact, hgrown⟩ := h.visited hw hp hv
      refine ⟨w₁, mark₁, slots₁, hw₁, hact, hgrown, fun visitor' hv' => ?_, fun h => nomatch h⟩
      obtain rfl := Option.some.inj hv'
      exact hrun
  obtain ⟨w₁, mark₁, slots₁, hw₁, hact, hgrown, hrun, hskip⟩ := hvisit
  have hp₁ := hgrown.planted
  obtain ⟨complete, w', slots', hended, hw', hbelow, hwalked⟩ := ih slots₁ w₁ hw₁ hp₁.slots.1
  rw [visit_succ ((hp.holds _ List.mem_cons_self).kind? rfl) hrun hskip,
    (hp₁.holds _ List.mem_cons_self).children]
  exact ⟨complete, w', .node i mark₁ slots', hended, hw', hgrown.trans (.node hp₁ hbelow),
    .inr ⟨i, mark₁, slots₁, slots', hact, rfl, hwalked⟩⟩

/-- The walk over trees one after the other, given what it makes of each node. -/
theorem WalksOver.of_nodes {depth : Nat}
    (h : ∀ {i : NodeId} {mark : Mark} {slots : List (Tree NodeId)} {w : Walk σ}, known w →
      Planted outside w.program.store [.node i mark slots] →
      ∃ complete w' t', Ended w' complete (pass.visit depth i w) ∧ known w' ∧
        Grown outside w.program.store [.node i mark slots] w'.program.store [t'] ∧
        Walked act complete depth (.node i mark slots) t')
    (ts : List (Tree NodeId)) : WalksOver pass outside known act depth ts := by
  induction ts with
  | nil =>
    intro w hw hp
    exact ⟨true, w, [], .whole (), hw, .refl hp, .nil⟩
  | cons t ts ih =>
    intro w hw hp
    cases t with
    | empty =>
      obtain ⟨head, tail, _⟩ := planted_cons_iff.mp hp
      obtain ⟨complete, w', ts', hended, hw', hgrown, hwalked⟩ := ih w hw tail
      exact ⟨complete, w', .empty :: ts', hended, hw', .cons hp (.refl head) hgrown,
        .cons (.empty complete depth) hwalked⟩
    | node i mark slots =>
      obtain ⟨head, _, _⟩ := planted_cons_iff.mp hp
      obtain ⟨complete, w₁, t', hended, hw₁, hgrown, hwalked⟩ := h hw head
      have hp₁ := hgrown.others hp
      have hrest := (planted_cons_iff.mp hp₁).2.1
      have hforM : ((Tree.node i mark slots :: ts).filterMap Tree.ref).forM (pass.visit depth) w =
          (pass.visit depth i >>= fun _ => (ts.filterMap Tree.ref).forM (pass.visit depth)) w := rfl
      rw [hforM]
      generalize hr : pass.visit depth i w = result at hended
      cases hended with
      | stopped j =>
        -- the walk stops here, so the trees after this one stay as they were
        rw [bind_error hr]
        refine ⟨false, w₁, t' :: ts, .stopped j, hw₁, .cons hp hgrown (.refl hrest), .cons hwalked ?_⟩
        exact List.forall₂_same.mpr fun u _ => .untouched depth u
      | whole =>
        rw [bind_ok hr]
        obtain ⟨complete, w', ts', hended, hw', hgrown', hwalked'⟩ := ih w₁ hw₁ hrest
        refine ⟨complete, w', t' :: ts', hended, hw', .cons hp hgrown hgrown', .cons ?_ hwalked'⟩
        cases complete with
        | true => exact hwalked
        | false => exact hwalked.weaken

/-- **A walk does to each tree what its visits do, from the top down.** It ends with everything
walked, or where the depth runs out, and in either case with trees in the same places. -/
theorem walk_forest (h : Acts pass outside known act) (depth : Nat) (ts : List (Tree NodeId)) :
    WalksOver pass outside known act depth ts := by
  induction depth generalizing ts with
  | zero =>
    refine .of_nodes (fun {i mark slots w} hw hp => ?_) ts
    exact ⟨false, w, .node i mark slots, .stopped i, hw, .refl hp, .untouched 0 _⟩
  | succ depth ih => exact .of_nodes (fun hw hp => walk_node h ih hw hp) ts

end Walks
end Settle
