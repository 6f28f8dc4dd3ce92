import Settle.Proofs.Effect
import Settle.Proofs.Lowered
import Settle.Proofs.TreeWalk

/-! The lowerings on planted trees.

Lowering a node of a store that holds a tree there leaves a store that holds the
lowered tree (`lowerFunction_tree`, `lowerTry_tree`): the scans of the store are the
scans of the tree, the edits of the store are the edits of the tree, and the nodes
that are added are the new nodes of the tree. -/
namespace Settle

/-! ### Nodes and their marks -/

namespace Node

theorem isAsyncTry_iff (node : Node) :
    node.isAsyncTry ↔ node.mark.detail = some (.tryExpression true false) := by
  obtain ⟨kind, flags, span, payload⟩ := node
  cases payload with
  | none => simp [isAsyncTry, mark]
  | some payload => cases payload <;> simp [isAsyncTry, mark, Payload.detail]

theorem mark_yielding {node : Node} {parts : SuspensionParts Ref} (h : node.isAwait)
    (hpayload : node.payload = some (.suspension parts)) :
    node.yielding.mark = node.mark.byYield := by
  have hkind : node.mark.kind = .suspension .await := by simpa [isAwait, mark] using h
  rw [yielding, hpayload, Mark.byYield, if_pos hkind]
  rfl

theorem mark_tryYielding (node : Node) (h : node.isAsyncTry) :
    node.tryYielding.mark = {node.mark with detail := some (.tryExpression false true)} := by
  obtain ⟨kind, flags, span, payload⟩ := node
  cases payload with
  | none => cases h
  | some payload =>
    cases payload with
    | tryExpression parts => rfl
    | _ => cases h

theorem slots_byYield (node : Node) : node.byYield.slots = node.slots := by
  unfold byYield yielding tryYielding
  split
  · split
    · rename_i h
      simp [slots, h, Payload.slots]
    · rfl
  · split
    · split
      · rename_i h
        simp [slots, h, Payload.slots]
      · rfl
    · rfl

end Node

namespace Store
variable {s s' : Store} {t : Tree NodeId}

theorem Sound.mark_byYield (hs : s.Sound) {i : NodeId} {node : Node} (there : s.node? i = some node) :
    node.byYield.mark = node.mark.byYield := by
  by_cases ha : node.isAwait = true
  · have hkind : node.kind = .suspension .await := by simpa [Node.isAwait] using ha
    obtain ⟨payload, hpayload, hform⟩ := hs.payload_of_node? there (by rw [hkind]; rfl)
    rw [hkind] at hform
    cases payload with
    | suspension parts => rw [Node.byYield, if_pos ha, Node.mark_yielding ha hpayload]
    | _ => cases hform
  · have hkind : node.mark.kind ≠ .suspension .await := by simpa [Node.isAwait, Node.mark] using ha
    rw [Node.byYield, if_neg ha, Mark.byYield, if_neg hkind]
    by_cases ht : node.isAsyncTry = true
    · rw [if_pos ht, if_pos ((Node.isAsyncTry_iff node).mp ht), Node.mark_tryYielding node ht]
    · rw [if_neg ht, if_neg (fun h => ht ((Node.isAsyncTry_iff node).mpr h))]

/-! ### Scans -/

theorem any_refs {slots : List (Tree NodeId)} {p : NodeId → Bool} {q : Tree NodeId → Bool}
    (hempty : q .empty = false) (h : ∀ t ∈ slots, ∀ i, t.ref = some i → p i = q t) :
    (slots.filterMap Tree.ref).any p = slots.any q := by
  induction slots with
  | nil => rfl
  | cons t rest ih =>
    have hrest := ih fun u hu => h u (List.mem_cons_of_mem _ hu)
    cases t with
    | empty => simpa [hempty] using hrest
    | node i mark slots => simpa [h _ List.mem_cons_self i rfl] using congrArg _ hrest

theorem flatMap_refs {β : Type} {slots : List (Tree NodeId)} {f : NodeId → List β}
    {g : Tree NodeId → List β} (hempty : g .empty = [])
    (h : ∀ t ∈ slots, ∀ i, t.ref = some i → f i = g t) :
    (slots.filterMap Tree.ref).flatMap f = slots.flatMap g := by
  induction slots with
  | nil => rfl
  | cons t rest ih =>
    have hrest := ih fun u hu => h u (List.mem_cons_of_mem _ hu)
    cases t with
    | empty =>
      rw [List.filterMap_cons_none Tree.ref_empty, List.flatMap_cons, hempty, List.nil_append, hrest]
    | node i mark slots => simpa [h _ List.mem_cons_self i rfl] using hrest

theorem text?_of_node? {i : NodeId} {node : Node} (h : s.node? i = some node) :
    (s.text? i == some "arguments") = (node.mark.detail == some (.identifier "arguments")) := by
  rw [text?, payload?_of_node? h]
  cases hp : node.payload with
  | none => simp [Node.mark, hp]
  | some payload => cases payload <;> simp [Node.mark, hp, Payload.detail]

/-- The children that may read a variable, by the trees in the slots. -/
theorem Holds.readers {i : NodeId} {mark : Mark} {slots : List (Tree NodeId)}
    (h : s.Holds (.node i mark slots)) :
    s.readers i =
      if mark.detail = some (.plain .access) then (slots.take 1).filterMap Tree.ref
      else slots.filterMap Tree.ref := by
  obtain ⟨node, there, rfl, names, _⟩ := holds_node_iff.mp h
  rw [Store.readers, payload?_of_node? there, h.children]
  cases hp : node.payload with
  | none => simp [Node.mark, hp]
  | some payload =>
    cases payload with
    | access parts =>
      rw [Node.slots, hp] at names
      cases slots with
      | nil => cases names
      | cons object rest =>
        have hobject : parts.object = object.ref := (List.cons.inj names).1
        cases object <;> simp [Node.mark, hp, Payload.detail, Payload.form, hobject]
    | _ => simp [Node.mark, hp, Payload.detail, Payload.form]

theorem Holds.mentionsArgumentsWithin (h : s.Holds t) {i : NodeId} (hi : t.ref = some i)
    {depth : Nat} (hd : t.height ≤ depth) :
    s.mentionsArgumentsWithin depth i = t.mentionsArguments := by
  induction t generalizing i depth with
  | empty => cases hi
  | node tag mark slots ih =>
    obtain rfl := Option.some.inj hi
    obtain ⟨node, there, rfl, _, below⟩ := holds_node_iff.mp h
    cases depth with
    | zero => cases hd
    | succ depth =>
      rw [Tree.height] at hd
      have hrec : ∀ t ∈ slots, ∀ i, t.ref = some i →
          s.mentionsArgumentsWithin depth i = t.mentionsArguments := by
        intro t ht i hi
        have := Tree.height_le_heightAll ht
        exact ih t ht (below t ht) hi (by omega)
      rw [Store.mentionsArgumentsWithin, Tree.mentionsArguments, kind?_of_node? there,
        text?_of_node? there, h.readers, List.any_reverse, Tree.mentionsAny_eq]
      congr 2
      split
      · rw [any_refs rfl fun t ht => hrec t (List.mem_of_mem_take ht)]
        cases slots <;> simp [Tree.mentionsFirst]
      · exact any_refs rfl hrec

/-- What belongs to a start is what belongs to its tree, unless the start is a function. -/
theorem Holds.preorder_ownedFrom (h : s.Holds t) {start i : NodeId} (hi : t.ref = some i)
    (hstart : (s.kind? start).any Kind.isFunction = false) {depth : Nat} (hd : t.height ≤ depth) :
    Graph.preorder (s.ownedFrom start) depth i = t.owned := by
  induction t generalizing i depth with
  | empty => cases hi
  | node tag mark slots ih =>
    obtain rfl := Option.some.inj hi
    obtain ⟨node, there, rfl, _, below⟩ := holds_node_iff.mp h
    cases depth with
    | zero => cases hd
    | succ depth =>
      rw [Tree.height] at hd
      have hnext : s.ownedFrom start tag =
          if node.mark.kind.isFunction then [] else slots.filterMap Tree.ref := by
        rw [ownedFrom, h.children, kind?_of_node? there, Option.any_some]
        by_cases hf : node.kind.isFunction = true
        · have hne : tag ≠ start := by
            rintro rfl
            rw [kind?_of_node? there, Option.any_some, hf] at hstart
            cases hstart
          rw [if_pos ⟨hne, hf⟩, if_pos (show node.mark.kind.isFunction = true from hf)]
        · rw [if_neg (fun h => hf h.2), if_neg (show ¬node.mark.kind.isFunction = true from hf)]
      rw [Graph.preorder, Tree.owned, hnext, Tree.ownedAll_eq]
      congr 1
      split
      · rfl
      · have hrec : ∀ t ∈ slots, ∀ i, t.ref = some i →
            Graph.preorder (s.ownedFrom start) depth i = t.owned := by
          intro t ht i hi
          have := Tree.height_le_heightAll ht
          exact ih t ht (below t ht) hi (by omega)
        exact flatMap_refs rfl hrec

/-! ### Edits -/

theorem ref_suspend (t : Tree NodeId) : t.suspend.ref = t.ref := by
  cases t with
  | empty => rfl
  | node tag mark slots =>
    rw [Tree.suspend]
    split <;> rfl

theorem eq_of_mem_tags {slots : List (Tree NodeId)} (h : (slots.flatMap Tree.tags).Nodup)
    {t u : Tree NodeId} (ht : t ∈ slots) (hu : u ∈ slots) {i : NodeId} (hi : i ∈ t.tags)
    (hi' : i ∈ u.tags) : t = u := by
  induction slots with
  | nil => cases ht
  | cons head rest ih =>
    rw [List.flatMap_cons, List.nodup_append'] at h
    obtain ⟨_, hrest, hdisjoint⟩ := h
    rcases List.mem_cons.mp ht with rfl | htail <;> rcases List.mem_cons.mp hu with rfl | hutail
    · rfl
    · exact absurd (List.mem_flatMap.mpr ⟨u, hutail, hi'⟩) (hdisjoint hi)
    · exact absurd (List.mem_flatMap.mpr ⟨t, htail, hi⟩) (hdisjoint hi')
    · exact ih hrest htail hutail

/-- Editing the nodes that belong to a tree suspends the tree. -/
theorem Holds.suspend (h : s.Holds t) (hs : s.Sound) (hn : t.tags.Nodup) {own : List NodeId}
    (hown : ∀ i ∈ t.tags, i ∈ own ↔ i ∈ t.owned)
    (hedit : ∀ i ∈ t.tags, s'.node? i =
      (s.node? i).map fun node => if i ∈ own then node.byYield else node) :
    s'.Holds t.suspend := by
  induction t with
  | empty => exact .empty
  | node tag mark slots ih =>
    obtain ⟨node, there, rfl, names, below⟩ := holds_node_iff.mp h
    rw [Tree.tags_node, List.nodup_cons] at hn
    have hbelow : ∀ {u : Tree NodeId} {j : NodeId}, u ∈ slots → j ∈ u.tags →
        j ∈ slots.flatMap Tree.tags := fun hu hj => List.mem_flatMap.mpr ⟨_, hu, hj⟩
    have htag : tag ∈ own := (hown tag (by simp)).mpr (by simp [Tree.owned])
    have hnode : s'.node? tag = some node.byYield := by
      rw [hedit tag (by simp), there, Option.map_some, if_pos htag]
    by_cases hf : node.mark.kind.isFunction = true
    · rw [Tree.suspend_function hf]
      rw [byYield_eq_self there (fun h => by simp [Node.mark, h, Kind.isFunction] at hf)
        (fun h => by simp [Node.mark, h, Kind.isFunction] at hf)] at hnode
      refine .node hnode names fun u hu => (below u hu).frame fun j hj => ?_
      have hj' := hbelow hu hj
      -- below a function nothing belongs to the tree
      have hnot : j ∉ own := fun hmem => by
        have := (hown j (by simp [hj'])).mp hmem
        rw [Tree.owned, if_pos hf, List.mem_singleton] at this
        exact hn.1 (this ▸ hj')
      rw [hedit j (by simp [hj'])]
      simp only [hnot, if_false, Option.map_id']
    · rw [Tree.suspend_node (by simpa using hf), ← hs.mark_byYield there]
      refine .node hnode ?_ fun u' hu' => ?_
      · rw [Node.slots_byYield, names, List.map_map]
        exact List.map_congr_left fun u _ => (ref_suspend u).symm
      · obtain ⟨u, hu, rfl⟩ := List.mem_map.mp hu'
        refine ih u hu (below u hu) ((List.nodup_flatMap.mp hn.2).1 u hu) (fun j hj => ?_)
          fun j hj => hedit j (by simp [hbelow hu hj])
        have hj' := hbelow hu hj
        rw [hown j (by simp [hj']), Tree.owned, if_neg hf, Tree.ownedAll_eq, List.mem_cons,
          List.mem_flatMap]
        constructor
        · rintro (rfl | ⟨v, hv, hjv⟩)
          · exact absurd hj' hn.1
          · rwa [eq_of_mem_tags hn.2 hu hv hj (Tree.owned_subset v hjv)]
        · exact fun hju => .inr ⟨u, hu, hju⟩

/-! ### New nodes -/

theorem holds_made {i : NodeId} {node : Node} {kind : Kind} {payload : Payload (Tree NodeId)}
    (there : s.node? i = some node) (hmark : node.mark = .made kind payload)
    (names : node.slots = payload.slots.map Tree.ref) (below : ∀ t ∈ payload.slots, s.Holds t) :
    s.Holds (.made i kind payload) :=
  holds_node_iff.mpr ⟨node, there, hmark, names, below⟩

theorem Holds.asBlock (h : s.Holds t)
    (hrev : Revision s s' keep (Edit.blockPlan s t.ref).2) :
    s'.Holds (t.asBlock (s.size + ·)) ∧
      (t.asBlock (s.size + ·)).ref = some (Edit.blockPlan s t.ref).1 ∧
      (Edit.blockPlan s t.ref).2.length = t.blockCount := by
  cases t with
  | empty =>
    have hblock := hrev.new 0 _ rfl
    exact ⟨holds_made hblock rfl rfl fun u hu => absurd hu List.not_mem_nil, rfl, rfl⟩
  | node i mark slots =>
    have hheld : s'.Holds (.node i mark slots) :=
      h.frame fun j hj => hrev.old_of_keep (h.lt_size j hj)
    obtain ⟨node, there, rfl, _, _⟩ := holds_node_iff.mp h
    by_cases hb : node.mark.kind = .block
    · have hplan : Edit.blockPlan s (some i) = (i, []) := by
        simp [Edit.blockPlan, kind?_of_node? there, show node.kind = .block from hb]
      rw [Tree.ref_node, hplan, Tree.asBlock, if_pos hb, Tree.blockCount, if_pos hb]
      exact ⟨hheld, rfl, rfl⟩
    · have hplan : Edit.blockPlan s (some i) = (s.size + 1,
          [.made .returnStatement (.returnStatement (some i)), .made .block (.block [some s.size])]) := by
        cases hk : node.kind <;> simp_all [Edit.blockPlan, kind?_of_node? there, Node.mark]
      rw [Tree.ref_node, hplan] at hrev
      have hreturn : s'.Holds (.made s.size .returnStatement
          (.returnStatement (.node i node.mark slots))) :=
        holds_made (hrev.new 0 _ rfl) rfl rfl fun u hu => by rwa [List.mem_singleton.mp hu]
      rw [Tree.ref_node, hplan, Tree.asBlock, if_neg hb, Tree.blockCount, if_neg hb]
      refine ⟨holds_made (hrev.new 1 _ rfl) rfl rfl fun u hu => ?_, rfl, rfl⟩
      rwa [List.mem_singleton.mp hu]

theorem holds_trampoline {n : Nat} {helper body : Tree NodeId} {block : NodeId} {forwards : Bool}
    (hnew : ∀ (k : Nat) (node : Node),
      (Edit.trampolineNodes n helper.ref block forwards)[k]? = some node →
        s.node? (n + k) = some node)
    (hhelper : s.Holds helper) (hbody : s.Holds body) (hblock : body.ref = some block) :
    s.Holds (Tree.trampoline (n + ·) helper body forwards) := by
  have hgenerator : s.Holds (.made n (.function .expression)
      (.function ⟨.empty, [], body, false, true⟩)) := by
    refine holds_made (hnew 0 _ rfl) rfl ?_ ?_
    · simp [Node.slots, Node.made, Payload.slots, hblock]
    · simpa [Payload.slots] using ⟨.empty, hbody⟩
  have hwrapped : s.Holds (.made (n + 1) .call (.call ⟨helper, [.made n (.function .expression)
      (.function ⟨.empty, [], body, false, true⟩)]⟩)) :=
    holds_made (hnew 1 _ rfl) rfl rfl (by simpa [Payload.slots] using ⟨hhelper, hgenerator⟩)
  have hthis : s.Holds (.this (n + 2)) :=
    .node (hnew 2 _ rfl) rfl fun t ht => absurd ht List.not_mem_nil
  cases forwards with
  | true =>
    have harguments : s.Holds (.identifier (n + 3) "arguments") :=
      holds_made (hnew 3 _ rfl) rfl rfl fun t ht => absurd ht List.not_mem_nil
    have hmethod : s.Holds (.identifier (n + 4) "apply") :=
      holds_made (hnew 4 _ rfl) rfl rfl fun t ht => absurd ht List.not_mem_nil
    refine holds_made (hnew 8 _ rfl) rfl rfl (List.forall_mem_singleton.mpr ?_)
    refine holds_made (hnew 7 _ rfl) rfl rfl (List.forall_mem_singleton.mpr ?_)
    refine holds_made (hnew 6 _ rfl) rfl rfl (List.forall_mem_cons.mpr
      ⟨holds_made (hnew 5 _ rfl) rfl rfl ?_, ?_⟩)
    · exact List.forall_mem_cons.mpr ⟨hwrapped, List.forall_mem_singleton.mpr hmethod⟩
    · exact List.forall_mem_cons.mpr ⟨hthis, List.forall_mem_singleton.mpr harguments⟩
  | false =>
    have hmethod : s.Holds (.identifier (n + 3) "call") :=
      holds_made (hnew 3 _ rfl) rfl rfl fun t ht => absurd ht List.not_mem_nil
    refine holds_made (hnew 7 _ rfl) rfl rfl (List.forall_mem_singleton.mpr ?_)
    refine holds_made (hnew 6 _ rfl) rfl rfl (List.forall_mem_singleton.mpr ?_)
    refine holds_made (hnew 5 _ rfl) rfl rfl (List.forall_mem_cons.mpr
      ⟨holds_made (hnew 4 _ rfl) rfl rfl ?_, ?_⟩)
    · exact List.forall_mem_cons.mpr ⟨hwrapped, List.forall_mem_singleton.mpr hmethod⟩
    · exact List.forall_mem_singleton.mpr hthis

theorem mark_plain_withBody {node : Node} {parts : FunctionParts Ref}
    (h : node.payload = some (.function parts)) (body : Ref) :
    (node.withBody body).plain.mark = node.mark.plain := by
  obtain ⟨kind, flags, span, payload⟩ := node
  obtain rfl : payload = some (.function parts) := h
  rfl

theorem slots_plain_withBody {node : Node} {parts : FunctionParts Ref}
    (h : node.payload = some (.function parts)) (body : Ref) :
    (node.withBody body).plain.slots = parts.name :: parts.parameters ++ [body] := by
  obtain ⟨kind, flags, span, payload⟩ := node
  obtain rfl : payload = some (.function parts) := h
  rfl

/-- The parts of a function in the slots of its tree. -/
theorem Sound.function_slots (hs : s.Sound) {i : NodeId} {node : Node} (h : s.node? i = some node)
    {kind : FunctionKind} (hkind : node.kind = .function kind) {slots : List (Tree NodeId)}
    (names : node.slots = slots.map Tree.ref) :
    ∃ parts init body, node.payload = some (.function parts) ∧ slots = init ++ [body] ∧
      init.map Tree.ref = parts.name :: parts.parameters ∧ body.ref = parts.body := by
  obtain ⟨payload, hp, hform⟩ := hs.payload_of_node? h (by rw [hkind]; rfl)
  rw [hkind] at hform
  cases payload with
  | function parts =>
    rw [Node.slots, hp] at names
    obtain ⟨init, last, rfl, hinit, hlast⟩ := List.map_eq_append_iff.mp names.symm
    obtain ⟨body, rest, rfl, hbody, hrest⟩ := List.map_eq_cons_iff.mp hlast
    obtain rfl := List.map_eq_nil_iff.mp hrest
    exact ⟨parts, init, body, hp, rfl, hinit, hbody⟩
  | _ => cases hform

end Store

/-! ### Trees that were rebuilt -/

/-- With a reference to a helper at hand a tree was rebuilt, of its own nodes, the reference and
new nodes. Elsewhere the store is as it was, and so is every node of a kind that is not lowered. -/
structure Rebuilt (outside : NodeId → Prop) (s : Store) (t helper : Tree NodeId) (s' : Store)
    (t' : Tree NodeId) : Prop where
  sound : s'.Sound
  grows : s.size ≤ s'.size
  planted : Planted outside s' [t']
  tags : ∀ j ∈ t'.tags, j ∈ t.tags ∨ j ∈ helper.tags ∨ s.size ≤ j
  frame : ∀ j : Nat, j < s.size → j ∉ t.tags → s'.node? j = s.node? j
  inert : ∀ (j : Nat) (node : Node), s.node? j = some node → node.kind.isInert = true →
    s'.node? j = some node

section Rebuilding
open Store
variable {outside : NodeId → Prop} {s s₁ s' : Store} {i : NodeId} {mark : Mark}
  {slots : List (Tree NodeId)} {t t' helper : Tree NodeId}

/-- A tree stays planted when a reference to a helper is made beside it. -/
theorem Planted.beside (h : Planted outside s [t])
    (hframe : ∀ j : Nat, j < s.size → ¬outside j → s₁.node? j = s.node? j)
    (hhelper : Planted outside s₁ [helper]) (hnew : ∀ j ∈ helper.tags, s.size ≤ j) :
    Planted outside s₁ [t, helper] := by
  refine planted_cons_iff.mpr ⟨⟨fun u hu => ?_, h.nodup, h.inside⟩, hhelper, fun j hj hj' => ?_⟩
  · refine (h.holds u hu).frame fun j hj => ?_
    have hj := List.mem_flatMap.mpr ⟨u, hu, hj⟩
    exact hframe j (h.lt_size hj) (h.inside j hj)
  · rw [List.flatMap_singleton] at hj'
    exact absurd (h.lt_size (by simpa using hj)) (Nat.not_lt.mpr (hnew j hj'))

/-- A reference to a helper, and a tree rebuilt with it. -/
theorem Rebuilt.grown (h : Rebuilt outside s₁ t helper s' t') (hsize : s.size ≤ s₁.size)
    (hframe : ∀ j : Nat, j < s.size → ¬outside j → s₁.node? j = s.node? j)
    (hnew : ∀ j ∈ helper.tags, s.size ≤ j) (href : t'.ref = t.ref) :
    Grown outside s [t] s' [t'] where
  planted := h.planted
  grows := Nat.le_trans hsize h.grows
  tags := fun j hj => by
    rw [List.flatMap_singleton] at hj ⊢
    rcases h.tags j hj with hj | hj | hj
    · exact .inl hj
    · exact .inr (hnew j hj)
    · exact .inr (Nat.le_trans hsize hj)
  frame := fun j hj hnot ho => by
    rw [List.flatMap_singleton] at hnot
    rw [h.frame j (Nat.lt_of_lt_of_le hj hsize) hnot, hframe j hj ho]
  refs := by rw [List.map_singleton, List.map_singleton, href]

/-- Nodes of the lowered tree: the old ones, those of the helper and new ones are pairwise
different. -/
theorem nodup_lowered {old more : List Nat} {bound first second next : Nat}
    (h : (old ++ more).Nodup) (hlt : ∀ j ∈ old ++ more, j < bound) (hnext : next = bound + first) :
    (old ++ (more ++ ((List.range first).map (bound + ·) ++
      (List.range second).map (next + ·)))).Nodup := by
  have hfirst : ((List.range first).map (bound + ·)).Nodup :=
    List.nodup_range.map fun a b h => Nat.add_left_cancel h
  have hsecond : ((List.range second).map (next + ·)).Nodup :=
    List.nodup_range.map fun a b h => Nat.add_left_cancel h
  rw [← List.append_assoc]
  refine List.nodup_append'.mpr ⟨h, List.nodup_append'.mpr ⟨hfirst, hsecond, fun j hj hj' => ?_⟩,
    fun j hj hj' => ?_⟩
  · simp only [List.mem_map, List.mem_range] at hj hj'
    obtain ⟨a, ha, rfl⟩ := hj
    obtain ⟨b, hb, hab⟩ := hj'
    omega
  · have hj := hlt j hj
    simp only [List.mem_append, List.mem_map, List.mem_range] at hj'
    rcases hj' with ⟨a, _, rfl⟩ | ⟨a, _, rfl⟩ <;> omega

/-- What a lowering finds out about `arguments` is what the tree says. -/
theorem forwards_eq {body : Tree NodeId} (h : s.Holds body) (hn : body.tags.Nodup)
    (kind : FunctionKind) :
    Edit.forwards s kind body.ref =
      ((Kind.function kind != .function .arrow) || body.mentionsArguments) := by
  have hmentions : body.ref.any s.mentionsArguments = body.mentionsArguments := by
    cases body with
    | empty => rfl
    | node i mark slots => exact h.mentionsArgumentsWithin rfl (h.height_le_size hn)
  rw [Edit.forwards, hmentions]
  cases kind <;> rfl

/-- A tree that was rebuilt from planted ones is planted. -/
theorem Rebuilt.of_held (hp : Planted outside s [t, helper])
    (hnew : ∀ j : Nat, s.size ≤ j → ¬outside j) (hsound : s'.Sound) (hgrows : s.size ≤ s'.size)
    (hheld : s'.Holds t') (hnodup : t'.tags.Nodup)
    (hmem : ∀ j ∈ t'.tags, j ∈ t.tags ++ helper.tags ∨ s.size ≤ j)
    (hframe : ∀ j : Nat, j < s.size → j ∉ t.tags → s'.node? j = s.node? j)
    (hinert : ∀ (j : Nat) (node : Node), s.node? j = some node → node.kind.isInert = true →
      s'.node? j = some node) : Rebuilt outside s t helper s' t' := by
  refine ⟨hsound, hgrows, ⟨List.forall_mem_singleton.mpr hheld, ?_, fun j hj => ?_⟩, fun j hj => ?_,
    hframe, hinert⟩
  · rwa [List.flatMap_singleton]
  · rw [List.flatMap_singleton] at hj
    rcases hmem j hj with hj | hj
    · exact hp.inside j (by simpa using hj)
    · exact hnew j hj
  · rcases hmem j hj with hj | hj
    · exact (List.mem_append.mp hj).imp_right .inl
    · exact .inr (.inr hj)

/-! ### A body as a suspended block -/

section Block
variable {body : Tree NodeId} {base : Nat}

theorem ref_trampoline (fresh : Nat → NodeId) (helper body : Tree NodeId) (forwards : Bool) :
    (Tree.trampoline fresh helper body forwards).ref = some (fresh (Edit.trampolineTop forwards)) := by
  cases forwards <;> rfl

theorem mem_tags_asBlock {j : Nat} (hj : j ∈ (body.asBlock (base + ·)).tags) :
    j ∈ body.tags ∨ base ≤ j := by
  rcases List.mem_append.mp ((Tree.tags_asBlock _ body).mem_iff.mp hj) with hj | hj
  · obtain ⟨k, _, rfl⟩ := List.mem_map.mp hj
    exact .inr (Nat.le_add_right _ _)
  · exact .inl hj

theorem nodup_asBlock (hn : body.tags.Nodup) (hlt : ∀ j ∈ body.tags, j < base) :
    (body.asBlock (base + ·)).tags.Nodup := by
  refine (Tree.tags_asBlock _ body).nodup_iff.mpr (List.nodup_append'.mpr
    ⟨List.nodup_range.map fun a b h => Nat.add_left_cancel h, hn, fun j hj hj' => ?_⟩)
  obtain ⟨k, _, rfl⟩ := List.mem_map.mp hj
  exact absurd (hlt _ hj') (Nat.not_lt.mpr (Nat.le_add_right _ _))

variable {top : Ref} {more : List Node} (hbody : s.Holds body) (hn : body.tags.Nodup)
  (hrev₁ : Revision s s₁ keep (Edit.blockPlan s body.ref).2)
  (hrev : Revision s s'
    (Edit.functionEdit i top (s₁.belonging (Edit.blockPlan s body.ref).1))
    ((Edit.blockPlan s body.ref).2 ++ more))
include hbody hn hrev₁

/-- What belongs to the block can be read from its tree. -/
theorem belonging_block :
    s₁.belonging (Edit.blockPlan s body.ref).1 = (body.asBlock (s.size + ·)).owned := by
  obtain ⟨hblock, hblockref, _⟩ := hbody.asBlock hrev₁
  refine hblock.preorder_ownedFrom hblockref ?_
    (hblock.height_le_size (nodup_asBlock hn hbody.lt_size))
  rw [hblock.kind? hblockref, Tree.kind?_asBlock]
  rfl

include hrev

/-- An old node that is neither the function nor in its body stays as it is. -/
theorem node?_outside_body {j : Nat} (hj : j < s.size) (hne : j ≠ i) (hnot : j ∉ body.tags) :
    s'.node? j = s.node? j := by
  have hown : j ∉ s₁.belonging (Edit.blockPlan s body.ref).1 := fun hmem => by
    rw [belonging_block hbody hn hrev₁] at hmem
    rcases mem_tags_asBlock (Tree.owned_subset _ hmem) with h | h
    · exact hnot h
    · exact absurd hj (Nat.not_lt.mpr h)
  exact hrev.old_of_eq hj fun node => by rw [Edit.functionEdit_of_ne hne, if_neg hown]

theorem holds_suspended_block (hi : i < s.size) (hnot : i ∉ body.tags) :
    s'.Holds (body.asBlock (s.size + ·)).suspend := by
  obtain ⟨hblock, _, _⟩ := hbody.asBlock hrev₁
  rw [belonging_block hbody hn hrev₁] at hrev
  refine hblock.suspend hrev₁.sound (nodup_asBlock hn hbody.lt_size) (fun j _ => Iff.rfl)
    fun j hj => ?_
  obtain ⟨node₁, hnode₁⟩ := node?_of_lt_size (hblock.lt_size j hj)
  rcases hrev₁.cases hnode₁ with ⟨hlt, old, hold, rfl⟩ | ⟨k, rfl, hk⟩
  · have hne : j ≠ i := by
      rintro rfl
      rcases mem_tags_asBlock hj with hj | hj
      · exact hnot hj
      · exact absurd hi (Nat.not_lt.mpr hj)
    rw [hnode₁, hrev.old j hlt, hold, Option.map_some, Option.map_some,
      Edit.functionEdit_of_ne hne]
  · have hbefore : k < (Edit.blockPlan s body.ref).2.length := (List.getElem?_eq_some_iff.mp hk).1
    rw [hnode₁, hrev.new k node₁ (by rw [List.getElem?_append_left hbefore, hk]), Option.map_some]
    split
    · rw [Edit.byYield_blockPlan s body.ref hk]
    · rfl

end Block

/-! ### Lowered trees -/

/-- **Lowering a function of a planted tree** plants the lowered tree. -/
theorem lowerFunction_tree (hs : s.Sound) (hp : Planted outside s [.node i mark slots, helper])
    (hnew : ∀ j : Nat, s.size ≤ j → ¬outside j) {kind : FunctionKind}
    (hkind : mark.kind = .function kind) :
    ∃ parts s' next, s.payload? i = some (.function parts) ∧ s.size ≤ next ∧
      Edit.lowerFunction i kind parts.body helper.ref s = ((), s') ∧
      Rebuilt outside s (.node i mark slots) helper s'
        (Tree.lowerFunction (s.size + ·) (next + ·) helper (.node i mark slots)) := by
  have hhelper := hp.holds helper (by simp)
  obtain ⟨node, there, rfl, names, below⟩ := holds_node_iff.mp (hp.holds _ List.mem_cons_self)
  obtain ⟨parts, init, body, hpayload, rfl, hinit, hbody⟩ := hs.function_slots there hkind names
  have hi := lt_size_of_node? there
  have hbodyheld : s.Holds body := below body (by simp)
  have hnodup := hp.nodup
  simp only [List.flatMap_cons, List.flatMap_nil, List.append_nil] at hnodup
  have hlt : ∀ j ∈ (Tree.node i node.mark (init ++ [body])).tags ++ helper.tags, j < s.size :=
    fun j hj => hp.lt_size (by simpa [-Tree.tags_node] using hj)
  obtain ⟨hold, _, hdisjoint⟩ := List.nodup_append'.mp hnodup
  rw [Tree.tags_node, List.flatMap_append, List.flatMap_singleton, List.nodup_cons,
    List.nodup_append', List.mem_append, not_or] at hold
  obtain ⟨⟨hiinit, hibody⟩, _, hbodynodup, hinitbody⟩ := hold
  obtain ⟨s₁, s', hrun, hrev₁, hrev⟩ := Edit.lowerFunction_run hs hi kind parts.body helper.ref
  rw [← hbody] at hrev₁ hrev
  have hcount := (hbodyheld.asBlock hrev₁).2.2
  rw [forwards_eq hbodyheld hbodynodup kind, hcount] at hrev
  have hkind' : node.kind = .function kind := hkind
  have hkeep : ∀ j : Nat, j < s.size → j ≠ i → j ∉ body.tags → s'.node? j = s.node? j :=
    fun j => node?_outside_body hbodyheld hbodynodup hrev₁ hrev
  have htrampoline : s'.Holds (Tree.trampoline (s.size + body.blockCount + ·) helper
      (body.asBlock (s.size + ·)).suspend
      ((node.kind != .function .arrow) || body.mentionsArguments)) := by
    refine holds_trampoline (fun k added hk => ?_) (hhelper.frame fun j hj => ?_)
      (holds_suspended_block hbodyheld hbodynodup hrev₁ hrev hi hibody)
      ((ref_suspend _).trans (hbodyheld.asBlock hrev₁).2.1)
    · have hadded := hrev.new (body.blockCount + k) added (by
        rw [List.getElem?_append_right (by omega), hcount, Nat.add_sub_cancel_left, ← hkind', hk])
      rwa [← Nat.add_assoc] at hadded
    · have hnot : j ∉ (Tree.node i node.mark (init ++ [body])).tags := fun h => hdisjoint h hj
      simp only [Tree.tags_node, List.flatMap_append, List.flatMap_singleton, List.mem_cons,
        List.mem_append, not_or] at hnot
      exact hkeep j (hlt j (List.mem_append_right _ hj)) hnot.1 hnot.2.2
  have hheld : s'.Holds (Tree.lowerFunction (s.size + ·) (s.size + body.blockCount + ·) helper
      (.node i node.mark (init ++ [body]))) := by
    have hnode := hrev.old i hi
    rw [there, Option.map_some, Edit.functionEdit_self there hkind'] at hnode
    rw [Tree.lowerFunction, List.modifyLast_concat, holds_node_iff]
    refine ⟨_, hnode, mark_plain_withBody hpayload _, ?_, fun u hu => ?_⟩
    · rw [slots_plain_withBody hpayload, List.map_append, hinit, List.map_singleton,
        Tree.loweredBody, ref_trampoline, ← hkind']
      rfl
    · rcases List.mem_append.mp hu with hu | hu
      · refine (below u (List.mem_append_left _ hu)).frame fun j hj => ?_
        have hj' := List.mem_flatMap.mpr ⟨u, hu, hj⟩
        exact hkeep j ((below u (List.mem_append_left _ hu)).lt_size j hj)
          (fun h => hiinit (h ▸ hj')) fun h => hinitbody hj' h
      · rw [List.mem_singleton.mp hu]
        exact htrampoline
  obtain ⟨count, htags⟩ := Tree.tags_lowerFunction (s.size + ·) (s.size + body.blockCount + ·)
    helper i node.mark init body
  refine ⟨parts, s', s.size + body.blockCount, by rw [payload?_of_node? there, hpayload], by omega,
    hrun, .of_held hp hnew hrev.sound hrev.grows hheld ?_ ?_ ?_ ?_⟩
  · rw [htags.nodup_iff]
    exact nodup_lowered hnodup hlt rfl
  · intro (j : Nat) hj
    simp only [htags.mem_iff, List.mem_append, List.mem_map] at hj ⊢
    rcases hj with hj | hj | ⟨k, _, rfl⟩ | ⟨k, _, rfl⟩
    · exact .inl (.inl hj)
    · exact .inl (.inr hj)
    · exact .inr (by omega)
    · exact .inr (by omega)
  · intro j hj hnot
    simp only [Tree.tags_node, List.flatMap_append, List.flatMap_singleton, List.mem_cons,
      List.mem_append, not_or] at hnot
    exact hkeep j hj hnot.1 hnot.2.2
  · intro j other hother hinert
    rw [hrev.old j (lt_size_of_node? hother), hother, Option.map_some,
      Edit.functionEdit_of_isInert there hkind' hother hinert]

/-- **Lowering a try expression of a planted tree** plants the lowered tree. -/
theorem lowerTry_tree (hs : s.Sound) (hp : Planted outside s [.node i mark slots, helper])
    (hnew : ∀ j : Nat, s.size ≤ j → ¬outside j) (hkind : mark.kind = .tryExpression) :
    ∃ parts s', s.payload? i = some (.tryExpression parts) ∧
      Edit.lowerTry i parts.operand helper.ref s = ((), s') ∧
      Rebuilt outside s (.node i mark slots) helper s'
        (Tree.lowerTry s.size helper (.node i mark slots)) := by
  have hhelper := hp.holds helper (by simp)
  obtain ⟨node, there, rfl, names, below⟩ := holds_node_iff.mp (hp.holds _ List.mem_cons_self)
  obtain ⟨payload, hpayload, hform⟩ := hs.payload_of_node? there
    (by rw [show node.kind = .tryExpression from hkind]; rfl)
  rw [show node.kind = .tryExpression from hkind] at hform
  cases payload with
  | tryExpression parts =>
    have hslots : slots.map Tree.ref = [parts.operand] := by
      rw [← names, Node.slots, hpayload]
      rfl
    obtain ⟨s', hrun, hrev⟩ := Edit.lowerTry_run hs (lt_size_of_node? there) parts.operand helper.ref
    have hnodup := hp.nodup
    simp only [List.flatMap_cons, List.flatMap_nil, List.append_nil] at hnodup
    have hlt : ∀ j ∈ (Tree.node i node.mark slots).tags ++ helper.tags, j < s.size :=
      fun j hj => hp.lt_size (by simpa [-Tree.tags_node] using hj)
    have hkeep : ∀ j : Nat, j < s.size → j ≠ i → s'.node? j = s.node? j := fun j hj hne =>
      hrev.old_of_eq hj fun node => editAt_of_ne hne _ node
    have htags := Tree.tags_lowerTry s.size helper i node.mark slots
    have hi : ∀ u ∈ helper :: slots, ∀ j ∈ u.tags, j < s.size ∧ j ≠ i := by
      intro u hu j hj
      rw [Tree.tags_node, List.cons_append, List.nodup_cons] at hnodup
      rcases List.mem_cons.mp hu with rfl | hu
      · exact ⟨hlt j (List.mem_append_right _ hj),
          fun h => hnodup.1 (h ▸ List.mem_append_right _ hj)⟩
      · have hj' := List.mem_flatMap.mpr ⟨u, hu, hj⟩
        exact ⟨hlt j (by simp [hj']), fun h => hnodup.1 (h ▸ List.mem_append_left _ hj')⟩
    have hcall : s'.Holds (.made s.size .call (.call ⟨helper, slots⟩)) := by
      refine holds_made (hrev.new 0 _ rfl) rfl ?_ fun u hu => ?_
      · rw [Payload.slots, List.map_cons, hslots]
        rfl
      · have hheld : s.Holds u := by
          rcases List.mem_cons.mp hu with rfl | hu
          · exact hhelper
          · exact below u hu
        exact hheld.frame fun j hj => hkeep j (hi u hu j hj).1 (hi u hu j hj).2
    have hheld : s'.Holds (Tree.lowerTry s.size helper (.node i node.mark slots)) := by
      rw [Tree.lowerTry, holds_node_iff]
      refine ⟨_, by rw [hrev.old i (lt_size_of_node? there), there, Option.map_some, editAt_self],
        rfl, rfl, List.forall_mem_singleton.mpr hcall⟩
    refine ⟨parts, s', by rw [payload?_of_node? there, hpayload], hrun,
      .of_held hp hnew hrev.sound hrev.grows hheld ?_ ?_ ?_ ?_⟩
    · rw [htags.nodup_iff, ← List.append_assoc]
      refine List.nodup_append'.mpr ⟨hnodup, List.nodup_singleton _, fun j hj hj' => ?_⟩
      exact absurd (hlt j hj) (Nat.not_lt.mpr (Nat.le_of_eq (List.mem_singleton.mp hj').symm))
    · intro (j : Nat) hj
      simp only [htags.mem_iff, List.mem_append, List.mem_singleton] at hj ⊢
      rcases hj with hj | hj | rfl
      · exact .inl (.inl hj)
      · exact .inl (.inr hj)
      · exact .inr (Nat.le_refl _)
    · exact fun j hj hnot => hkeep j hj fun h => hnot (by simp [h])
    · intro j other hother hinert
      have hne : j ≠ i := by
        rintro rfl
        obtain rfl := Option.some.inj (there.symm.trans hother)
        rw [show node.kind = .tryExpression from hkind] at hinert
        cases hinert
      rw [hkeep j (lt_size_of_node? hother) hne, hother]
  | _ => cases hform

end Rebuilding
end Settle
