import Settle.Lowering
import Settle.Proofs.Node

/-! What the lowering of one node does to a store.

Each operation on a sound store is a revision: it edits the nodes that are there in
a way that can be said node by node, and adds nodes that can be listed. Making the
suspension points of a body pause a generator edits exactly the nodes that belong
to the body (`suspendByYield_run`). Lowering a function edits these and the function
itself, and adds the block around an expression body and the trampoline
(`lowerFunction_run`); lowering a try expression adds one call and makes the node
await it (`lowerTry_run`). -/
namespace Settle

theorem Edit.bind_run {α β : Type} {x : Edit α} {f : α → Edit β} {s s' : Store} {a : α}
    (h : x s = (a, s')) : (x >>= f) s = f a s' := by
  simp only [bind, StateT.bind, h]

theorem Edit.pure_run {α : Type} (a : α) (s : Store) : (pure a : Edit α) s = (a, s) := rfl

theorem Edit.get_run (s : Store) : (get : Edit Store) s = (s, s) := rfl

theorem Edit.copy_run [Placing] (i : NodeId) (s : Store) :
    copy i s = copyWithin (s.size + idBound) i s :=
  bind_run (get_run s)

namespace Store
variable {s s' : Store}

/-- Two edits that agree on the nodes that are there are the same revision. -/
theorem Revision.congr {edit edit' : NodeId → Node → Node} {added : List Node}
    (h : Revision s s' edit added)
    (he : ∀ (j : Nat) (node : Node), s.node? j = some node → edit j node = edit' j node) :
    Revision s s' edit' added where
  sound := h.sound
  size := h.size
  old := fun j hj => by
    obtain ⟨node, hn⟩ := node?_of_lt_size hj
    rw [h.old j hj, hn, Option.map_some, Option.map_some, he j node hn]
  new := h.new

end Store

namespace Edit
open Store
variable {s : Store}

/-! ### New nodes -/

theorem make_run (hs : s.Sound) {kind : Kind} {payload : Payload Ref}
    (hk : kind.form? = some payload.form) :
    ∃ s', make kind payload s = (s.size, s') ∧ Revision s s' keep [Node.made kind payload] :=
  ⟨_, rfl, revision_push hs 0 .zero hk⟩

theorem addToken_run (hs : s.Sound) {kind : Kind} (hk : kind.form? = none) :
    ∃ s', addToken kind 0 .zero s = (s.size, s') ∧
      Revision s s' keep [⟨kind, 0, .zero, none⟩] :=
  ⟨_, rfl, revision_pushToken hs 0 .zero hk⟩

end Edit

/-- No lowering edits a node of such a kind. -/
def Kind.isInert : Kind → Bool
  | function _ | suspension _ | tryExpression => false
  | _ => true

/-! ### Suspension points -/

namespace Node

/-- `await e` or `yield e` as `yield e`. -/
def yielding (node : Node) : Node :=
  match node.payload with
  | some (.suspension parts) =>
    {node with kind := .suspension .yield, payload := some (.suspension ⟨parts.operand, false⟩)}
  | _ => node

/-- `try await e` as `try yield e`. -/
def tryYielding (node : Node) : Node :=
  match node.payload with
  | some (.tryExpression parts) =>
    {node with payload := some (.tryExpression {parts with isAsync := false, isGenerator := true})}
  | _ => node

def isAwait (node : Node) : Bool := node.kind == .suspension .await

def isAsyncTry (node : Node) : Bool :=
  match node.payload with
  | some (.tryExpression parts) => parts.isAsync && !parts.isGenerator
  | _ => false

/-- A suspension point of an async function as one of a generator; other nodes as they are. -/
def byYield (node : Node) : Node :=
  if node.isAwait then node.yielding else if node.isAsyncTry then node.tryYielding else node

theorem children_yielding (node : Node) : node.yielding.children = node.children := by
  unfold yielding
  split
  · rename_i h
    simp [children, slots, h, Payload.slots]
  · rfl

theorem children_tryYielding (node : Node) : node.tryYielding.children = node.children := by
  unfold tryYielding
  split
  · rename_i h
    simp [children, slots, h, Payload.slots]
  · rfl

theorem yielding_yielding (node : Node) : node.yielding.yielding = node.yielding := by
  cases h : node.payload with
  | none => simp [yielding, h]
  | some payload => cases payload <;> simp [yielding, h]

theorem tryYielding_tryYielding (node : Node) :
    node.tryYielding.tryYielding = node.tryYielding := by
  cases h : node.payload with
  | none => simp [tryYielding, h]
  | some payload => cases payload <;> simp [tryYielding, h]

end Node

namespace Edit
open Store
variable {s : Store}

theorem becomeSuspension_eq [Placing] {i : Nat} (hi : i < s.size) (kind : Kind)
    (parts : SuspensionParts Ref) : becomeSuspension i kind parts s =
      (true, (s.suspended i kind parts).adopt i [parts.operand]) := by
  have hh : s.header? i = some s.headers[i] := Array.getElem?_eq_getElem hi
  simp only [becomeSuspension, modifyGet, MonadStateOf.modifyGet, StateT.modifyGet, hh]
  rfl

theorem becomeSuspension_of_le [Placing] {i : Nat} (hi : s.size ≤ i) (kind : Kind)
    (parts : SuspensionParts Ref) : becomeSuspension i kind parts s = (false, s) := by
  have hheader : s.header? i = none := Array.getElem?_eq_none hi
  simp only [becomeSuspension, modifyGet, MonadStateOf.modifyGet, StateT.modifyGet, hheader]
  rfl

theorem becomeSuspension_run (hs : s.Sound) {i : Nat} (hi : i < s.size) {kind : Kind}
    (hk : kind.form? = some .suspension) (parts : SuspensionParts Ref) :
    ∃ s', becomeSuspension i kind parts s = (true, s') ∧
      Revision s s' (editAt i fun node => {node with kind, payload := some (.suspension parts)})
        [] :=
  ⟨_, becomeSuspension_eq hi kind parts,
    revision_adopt (revision_suspended hs hi hk parts) i [parts.operand]⟩

/-- Only a suspension is made to yield, and then it keeps its operand. -/
theorem yieldAwait_cases [Placing] (s : Store) (i : Nat) :
    (∀ parts, s.payload? i ≠ some (.suspension parts)) ∧ yieldAwait i s = ((), s) ∨
      ∃ parts, s.payload? i = some (.suspension parts) ∧ yieldAwait i s = ((),
        (s.suspended i (.suspension .yield) ⟨parts.operand, false⟩).adopt i [parts.operand]) := by
  rw [yieldAwait, bind_run (get_run s)]
  cases hp : s.payload? i with
  | none => exact .inl ⟨fun _ h => absurd h (Option.some_ne_none _).symm, rfl⟩
  | some payload =>
    cases payload with
    | suspension parts =>
      obtain ⟨node, there, _⟩ := exists_node_of_payload? hp
      have hrun := becomeSuspension_eq (lt_size_of_node? there) (.suspension .yield)
        ⟨parts.operand, false⟩
      exact .inr ⟨parts, rfl, (bind_run hrun).trans (pure_run () _)⟩
    | _ =>
      refine .inl ⟨fun parts h => ?_, rfl⟩
      cases h

theorem yieldAwait_run (hs : s.Sound) (i : Nat) :
    ∃ s', yieldAwait i s = ((), s') ∧ Revision s s' (editAt i Node.yielding) [] := by
  rcases yieldAwait_cases s i with ⟨hother, hrun⟩ | ⟨parts, hp, hrun⟩
  · refine ⟨s, hrun, (Revision.refl hs).congr fun j node hj => ?_⟩
    by_cases he : j = i
    · subst he
      rw [payload?_of_node? hj] at hother
      rw [editAt_self, keep_apply, Node.yielding]
      split
      · rename_i parts hparts
        exact absurd hparts (hother parts)
      · rfl
    · rw [editAt_of_ne he, keep_apply]
  · obtain ⟨node, there, hnode⟩ := exists_node_of_payload? hp
    have hform : (Kind.suspension .yield).form? = some .suspension := rfl
    have hrev := revision_adopt (revision_suspended hs (lt_size_of_node? there) hform
      ⟨parts.operand, false⟩) i [parts.operand]
    refine ⟨_, hrun, hrev.congr fun j node' hj => ?_⟩
    by_cases he : j = i
    · subst he
      obtain rfl := Option.some.inj (there.symm.trans hj)
      simp [Node.yielding, hnode]
    · rw [editAt_of_ne he, editAt_of_ne he]

/-- What revising a payload makes of a node. -/
def revised (change : Payload Ref → Option (Payload Ref)) (node : Node) : Node :=
  {node with payload := (node.payload.bind change).or node.payload}

theorem revise_run (hs : s.Sound) (i : Nat) {change : Payload Ref → Option (Payload Ref)}
    (hform : ∀ old new, change old = some new → new.form = old.form) :
    ∃ s', revise i change s = (((s.payload? i).bind change).isSome, s') ∧
      Revision s s' (editAt i (revised change)) [] := by
  simp only [revise, modifyGet, MonadStateOf.modifyGet, StateT.modifyGet]
  cases hc : (s.payload? i).bind change with
  | none =>
    refine ⟨s, rfl, (Revision.refl hs).congr fun j node hj => ?_⟩
    by_cases he : j = i
    · subst he
      rw [payload?_of_node? hj] at hc
      rw [editAt_self, revised, hc]
      rfl
    · rw [editAt_of_ne he, keep_apply]
  | some new =>
    obtain ⟨old, hp, hnew⟩ := Option.bind_eq_some_iff.mp hc
    refine ⟨s.write i new, rfl, (revision_write hs hp (hform old new hnew)).congr fun j node hj => ?_⟩
    by_cases he : j = i
    · subst he
      rw [payload?_of_node? hj] at hc
      rw [editAt_self, editAt_self, revised, hc]
      rfl
    · rw [editAt_of_ne he, editAt_of_ne he]

/-- A revision whose answer is not asked for. -/
theorem revise_discard_run (hs : s.Sound) (i : Nat) {change : Payload Ref → Option (Payload Ref)}
    {g : Node → Node} (hform : ∀ old new, change old = some new → new.form = old.form)
    (hg : ∀ node, revised change node = g node) :
    ∃ s', (revise i change >>= fun _ => pure ()) s = ((), s') ∧
      Revision s s' (editAt i g) [] := by
  obtain ⟨s', hrun, hrev⟩ := revise_run hs i hform
  refine ⟨s', by rw [bind_run hrun, pure_run], hrev.congr fun j node _ => ?_⟩
  rw [editAt, editAt, hg]

/-- A revision that, where it applies, also gives a child its parent. -/
theorem revise_adopt_run (hs : s.Sound) (i : Nat) (child : Ref)
    {change : Payload Ref → Option (Payload Ref)} {g : Node → Node}
    (hform : ∀ old new, change old = some new → new.form = old.form)
    (hg : ∀ node, s.node? i = some node → revised change node = g node) :
    ∃ s', (do
        let done ← revise i change
        if done then adopt i child
        return done) s = (((s.payload? i).bind change).isSome, s') ∧
      Revision s s' (editAt i g) [] := by
  obtain ⟨s₁, hrun, hrev⟩ := revise_run hs i hform
  have hrev' : Revision s s₁ (editAt i g) [] := by
    refine hrev.congr fun j node hj => ?_
    by_cases he : j = i
    · subst he
      rw [editAt_self, editAt_self, hg node hj]
    · rw [editAt_of_ne he, editAt_of_ne he]
  rw [bind_run hrun]
  cases ((s.payload? i).bind change).isSome with
  | false => exact ⟨s₁, rfl, hrev'⟩
  | true => exact ⟨s₁.adopt i [child], rfl, revision_adopt hrev' i [child]⟩

theorem yieldTry_run (hs : s.Sound) (i : Nat) :
    ∃ s', yieldTry i s = ((), s') ∧ Revision s s' (editAt i Node.tryYielding) [] := by
  refine revise_discard_run hs i (fun old new h => ?_) (fun node => ?_)
  · split at h
    · cases h
      rfl
    · cases h
  · obtain ⟨kind, flags, span, payload⟩ := node
    cases payload with
    | none => rfl
    | some payload => cases payload <;> rfl

theorem forM_append_run (each : NodeId → Edit Unit) (is js : List NodeId) (s : Store) :
    ((is ++ js).forM each s).2 = (js.forM each (is.forM each s).2).2 := by
  induction is generalizing s with
  | nil => rfl
  | cons i rest ih => exact ih (each i s).2

/-- Doing an edit that can as well be done twice at each node of a list edits the nodes listed. -/
theorem forM_run {f : NodeId → Edit Unit} {g : Node → Node} (hg : ∀ node, g (g node) = g node)
    (hf : ∀ (s : Store) (i : Nat), s.Sound → ∃ s', f i s = ((), s') ∧ Revision s s' (editAt i g) [])
    (is : List NodeId) (hs : s.Sound) :
    ∃ s', is.forM f s = ((), s') ∧
      Revision s s' (fun j node => if j ∈ is then g node else node) [] := by
  induction is generalizing s with
  | nil => exact ⟨s, rfl, (Revision.refl hs).congr fun j node _ => by simp⟩
  | cons i rest ih =>
    obtain ⟨s₁, hrun₁, hrev₁⟩ := hf s i hs
    obtain ⟨s₂, hrun₂, hrev₂⟩ := ih hrev₁.sound
    refine ⟨s₂, ?_, ?_⟩
    · show (f i >>= fun _ => rest.forM f) s = _
      rw [bind_run hrun₁, hrun₂]
    · refine (hrev₁.trans hrev₂ fun k node hk => by simp at hk).congr fun j node _ => ?_
      by_cases he : j = i <;> by_cases hr : j ∈ rest <;> simp [he, hr, editAt, hg]

end Edit

/-! ### The nodes that belong to a body -/

namespace Node

/-- The children that belong to the function that the node belongs to. -/
def owned (node : Node) : List NodeId := if node.kind.isFunction then [] else node.children

theorem isFunction_yielding (node : Node) (h : node.isAwait) :
    node.yielding.kind.isFunction = node.kind.isFunction := by
  have hkind : node.kind = .suspension .await := by simpa [isAwait] using h
  unfold yielding
  split <;> simp [hkind, Kind.isFunction]

theorem kind_tryYielding (node : Node) : node.tryYielding.kind = node.kind := by
  unfold tryYielding
  split <;> rfl

theorem isFunction_byYield (node : Node) : node.byYield.kind.isFunction = node.kind.isFunction := by
  unfold byYield
  split
  · exact isFunction_yielding node ‹_›
  · split
    · rw [kind_tryYielding]
    · rfl

theorem isAsyncTry_yielding (node : Node) : node.yielding.isAsyncTry = node.isAsyncTry := by
  cases hp : node.payload with
  | none => simp [yielding, hp]
  | some payload => cases payload <;> simp [yielding, isAsyncTry, hp]

end Node

namespace Store
variable {s s' : Store}

/-- The nodes at and below a start that belong to it, in source order. -/
def belonging (s : Store) (start : NodeId) : List NodeId :=
  Graph.preorder (s.ownedFrom start) s.size start

theorem owned_eq (s : Store) (start : NodeId) (select : NodeId → Bool) :
    s.owned start select = (s.belonging start).filter select := by
  rw [owned, Graph.sweep_eq_flatMap]
  simp [belonging]

theorem mem_awaits {start : NodeId} {j : Nat} {node : Node} (hj : s.node? j = some node) :
    j ∈ s.awaits start ↔ j ∈ s.belonging start ∧ node.isAwait := by
  rw [awaits, owned_eq, List.mem_filter, kind?_of_node? hj]
  simp [Node.isAwait]

theorem mem_asyncTries {start : NodeId} {j : Nat} {node : Node} (hj : s.node? j = some node) :
    j ∈ s.asyncTries start ↔ j ∈ s.belonging start ∧ node.isAsyncTry := by
  rw [asyncTries, owned_eq, List.mem_filter, payload?_of_node? hj]
  rfl

theorem isAsyncTry_eq_false {j : Nat} {node : Node} (hj : s.node? j = some node)
    (h : node.kind ≠ .tryExpression) : node.isAsyncTry = false := by
  cases hp : node.payload with
  | none => simp [Node.isAsyncTry, hp]
  | some payload =>
    have hform := form_of_node? hj hp
    cases payload with
    | tryExpression parts => cases hk : node.kind <;> simp_all [Kind.form?, Payload.form]
    | _ => simp [Node.isAsyncTry, hp]

theorem byYield_eq_self {j : Nat} {node : Node} (hj : s.node? j = some node)
    (hawait : node.kind ≠ .suspension .await) (htry : node.kind ≠ .tryExpression) :
    node.byYield = node := by
  simp [Node.byYield, Node.isAwait, hawait, isAsyncTry_eq_false hj htry]

/-- What belongs to a start stays the same when functions stay functions and children stay. -/
theorem belonging_eq {edit : NodeId → Node → Node} (h : Revision s s' edit [])
    (hfun : ∀ (j : Nat) (node : Node), s.node? j = some node →
      (edit j node).kind.isFunction = node.kind.isFunction)
    (hchild : ∀ (j : Nat) (node : Node), s.node? j = some node →
      (edit j node).children = node.children) (start : NodeId) :
    s'.belonging start = s.belonging start := by
  have hsize : s'.size = s.size := h.size
  suffices hsame : s'.ownedFrom start = s.ownedFrom start by
    rw [belonging, belonging, hsize, hsame]
  funext (j : Nat)
  rw [ownedFrom, ownedFrom]
  by_cases hj : j < s.size
  · obtain ⟨node, hn⟩ := node?_of_lt_size hj
    have hn' : s'.node? j = some (edit j node) := by rw [h.old j hj, hn]; rfl
    rw [kind?_of_node? hn, kind?_of_node? hn', children_of_node? hn, children_of_node? hn']
    simp only [Option.any_some, hfun j node hn, hchild j node hn]
  · have hn : s.node? j = none := node?_eq_none (by omega)
    have hn' : s'.node? j = none := node?_eq_none (by omega)
    simp [kind?_eq, children_eq, hn, hn']

end Store

namespace Edit
open Store
variable {s : Store}

/-- **Making a body pause a generator edits exactly the nodes that belong to it.** -/
theorem suspendByYield_run (hs : s.Sound) (body : NodeId) :
    ∃ s', suspendByYield body s = ((), s') ∧
      Revision s s' (fun j node => if j ∈ s.belonging body then node.byYield else node) [] := by
  obtain ⟨s₁, hrun₁, hrev₁⟩ := forM_run Node.yielding_yielding
    (fun s i hs => yieldAwait_run hs i) (s.awaits body) hs
  obtain ⟨s₂, hrun₂, hrev₂⟩ := forM_run Node.tryYielding_tryYielding
    (fun s i hs => yieldTry_run hs i) (s₁.asyncTries body) hrev₁.sound
  have hbelonging : s₁.belonging body = s.belonging body := by
    refine belonging_eq hrev₁ (fun j node hj => ?_) (fun j node hj => ?_) body
    · split
      · rename_i hmem
        exact Node.isFunction_yielding node ((mem_awaits hj).mp hmem).2
      · rfl
    · split
      · exact Node.children_yielding node
      · rfl
  refine ⟨s₂, ?_, ?_⟩
  · rw [suspendByYield, bind_run (get_run s), bind_run hrun₁, bind_run (get_run s₁), hrun₂]
  · refine (hrev₁.trans hrev₂ fun k node hk => by simp at hk).congr fun j node hj => ?_
    have hj₁ : s₁.node? j = some (if j ∈ s.awaits body then node.yielding else node) := by
      rw [hrev₁.old j (lt_size_of_node? hj), hj]
      rfl
    -- an await does not become a try, so each node is edited by one of the two sweeps at most
    show (if j ∈ s₁.asyncTries body then _ else _) = _
    simp only [mem_asyncTries hj₁, mem_awaits hj, hbelonging]
    by_cases hb : j ∈ s.belonging body
    · by_cases ha : node.isAwait = true
      · have hkind : node.kind = .suspension .await := by simpa [Node.isAwait] using ha
        have htry := isAsyncTry_eq_false hj (by simp [hkind])
        simp [hb, ha, Node.isAsyncTry_yielding, htry, Node.byYield]
      · simp [hb, ha, Node.byYield]
    · simp [hb]

/-! ### Functions -/

/-- The nodes that make a block of a body, and the block. -/
def blockPlan (s : Store) (body : Ref) : NodeId × List Node :=
  match body, body.bind s.kind? with
  | some i, some .block => (i, [])
  | _, some _ =>
    (s.size + 1, [.made .returnStatement (.returnStatement body), .made .block (.block [some s.size])])
  | _, none => (s.size, [.made .block (.block [])])

theorem blockOf_run (hs : s.Sound) (body : Ref) :
    ∃ s', blockOf body s = ((blockPlan s body).1, s') ∧
      Revision s s' keep (blockPlan s body).2 := by
  have hempty : ∃ s', makeBlock [] s = (s.size, s') ∧
      Revision s s' keep [.made .block (.block [])] := make_run hs rfl
  rw [blockOf, bind_run (get_run s)]
  cases body with
  | none => exact hempty
  | some i =>
    cases hk : s.kind? i with
    | none => simpa [blockPlan, hk] using hempty
    | some kind =>
      have hwrap : ∃ s', (makeReturn (some i) >>= fun result => makeBlock [some result]) s =
          (s.size + 1, s') ∧ Revision s s' keep [.made .returnStatement (.returnStatement (some i)),
            .made .block (.block [some s.size])] := by
        obtain ⟨s₁, hrun₁, hrev₁⟩ : ∃ s', makeReturn (some i) s = (s.size, s') ∧ _ := make_run hs rfl
        obtain ⟨s₂, hrun₂, hrev₂⟩ : ∃ s', makeBlock [some s.size] s₁ = (s₁.size, s') ∧ _ :=
          make_run hrev₁.sound rfl
        rw [hrev₁.size] at hrun₂
        exact ⟨s₂, by rw [bind_run hrun₁, hrun₂]; rfl, hrev₁.trans_add hrev₂⟩
      cases kind with
      | block => exact ⟨s, by simp [blockPlan, hk, pure_run], by simpa [blockPlan, hk] using .refl hs⟩
      | _ => simpa [blockPlan, hk] using hwrap

/-- The nodes of a trampoline, the first of which is node `n`. -/
def trampolineNodes (n : Nat) (helper : Ref) (body : NodeId) (forwards : Bool) : List Node :=
  [.made (.function .expression) (.function ⟨none, [], some body, false, true⟩),
   .made .call (.call ⟨helper, [some n]⟩),
   ⟨.thisKeyword, 0, .zero, none⟩] ++
  if forwards then
    [.made .identifier (.identifier "arguments"),
     .made .identifier (.identifier "apply"),
     .made .access (.access ⟨some (n + 1), some (n + 4)⟩),
     .made .call (.call ⟨some (n + 5), [some (n + 2), some (n + 3)]⟩),
     .made .returnStatement (.returnStatement (some (n + 6))),
     .made .block (.block [some (n + 7)])]
  else
    [.made .identifier (.identifier "call"),
     .made .access (.access ⟨some (n + 1), some (n + 3)⟩),
     .made .call (.call ⟨some (n + 4), [some (n + 2)]⟩),
     .made .returnStatement (.returnStatement (some (n + 5))),
     .made .block (.block [some (n + 6)])]

/-- Where the block of a trampoline stands among its nodes. -/
def trampolineTop (forwards : Bool) : Nat := if forwards then 8 else 7

/-- Making a node after others, whose number is known. -/
theorem Revision.make {s₀ : Store} {added : List Node} (h : Revision s₀ s keep added) {kind : Kind}
    {payload : Payload Ref} (hk : kind.form? = some payload.form) :
    ∃ s', Edit.make kind payload s = (s₀.size + added.length, s') ∧
      Revision s₀ s' keep (added ++ [Node.made kind payload]) := by
  obtain ⟨s', hrun, hrev⟩ := make_run h.sound hk
  exact ⟨s', by rw [hrun, h.size], h.trans_add hrev⟩

theorem makeTrampoline_run (hs : s.Sound) (helper : Ref) (body : NodeId) (forwards : Bool) :
    ∃ s', makeTrampoline helper body forwards s = (s.size + trampolineTop forwards, s') ∧
      Revision s s' keep (trampolineNodes s.size helper body forwards) := by
  obtain ⟨s₁, run₁, rev₁⟩ := Revision.make (.refl hs) (show (Kind.function .expression).form? =
    some (Payload.function ⟨none, [], some body, false, true⟩).form from rfl)
  obtain ⟨s₂, run₂, rev₂⟩ := Revision.make rev₁ (show Kind.call.form? =
    some (Payload.call ⟨helper, [some s.size]⟩).form from rfl)
  obtain ⟨s₃, run₃, rev₃⟩ := addToken_run rev₂.sound (show Kind.thisKeyword.form? = none from rfl)
  have rev₃ := rev₂.trans_add rev₃
  rw [rev₂.size] at run₃
  cases forwards with
  | true =>
    obtain ⟨s₄, run₄, rev₄⟩ := Revision.make rev₃ (show Kind.identifier.form? =
      some (Payload.identifier "arguments").form from rfl)
    obtain ⟨s₅, run₅, rev₅⟩ := Revision.make rev₄ (show Kind.identifier.form? =
      some (Payload.identifier "apply").form from rfl)
    obtain ⟨s₆, run₆, rev₆⟩ := Revision.make rev₅ (show Kind.access.form? =
      some (Payload.access ⟨some (s.size + 1), some (s.size + 4)⟩).form from rfl)
    obtain ⟨s₇, run₇, rev₇⟩ := Revision.make rev₆ (show Kind.call.form? =
      some (Payload.call ⟨some (s.size + 5), [some (s.size + 2), some (s.size + 3)]⟩).form from rfl)
    obtain ⟨s₈, run₈, rev₈⟩ := Revision.make rev₇ (show Kind.returnStatement.form? =
      some (Payload.returnStatement (some (s.size + 6))).form from rfl)
    obtain ⟨s₉, run₉, rev₉⟩ := Revision.make rev₈ (show Kind.block.form? =
      some (Payload.block [some (s.size + 7)]).form from rfl)
    refine ⟨s₉, ?_, rev₉⟩
    exact ((bind_run run₁).trans <| (bind_run run₂).trans <| (bind_run run₃).trans <|
      (bind_run run₄).trans <| (bind_run (pure_run _ s₄)).trans <| (bind_run run₅).trans <|
      (bind_run run₆).trans <| (bind_run run₇).trans <| (bind_run run₈).trans run₉)
  | false =>
    obtain ⟨s₄, run₄, rev₄⟩ := Revision.make rev₃ (show Kind.identifier.form? =
      some (Payload.identifier "call").form from rfl)
    obtain ⟨s₅, run₅, rev₅⟩ := Revision.make rev₄ (show Kind.access.form? =
      some (Payload.access ⟨some (s.size + 1), some (s.size + 3)⟩).form from rfl)
    obtain ⟨s₆, run₆, rev₆⟩ := Revision.make rev₅ (show Kind.call.form? =
      some (Payload.call ⟨some (s.size + 4), [some (s.size + 2)]⟩).form from rfl)
    obtain ⟨s₇, run₇, rev₇⟩ := Revision.make rev₆ (show Kind.returnStatement.form? =
      some (Payload.returnStatement (some (s.size + 5))).form from rfl)
    obtain ⟨s₈, run₈, rev₈⟩ := Revision.make rev₇ (show Kind.block.form? =
      some (Payload.block [some (s.size + 6)]).form from rfl)
    refine ⟨s₈, ?_, rev₈⟩
    exact ((bind_run run₁).trans <| (bind_run run₂).trans <| (bind_run run₃).trans <|
      (bind_run (pure_run _ s₃)).trans <| (bind_run run₄).trans <| (bind_run run₅).trans <|
      (bind_run run₆).trans <| (bind_run run₇).trans run₈)

end Edit

namespace Node

/-- A function with another body. -/
def withBody (body : Ref) (node : Node) : Node :=
  match node.payload with
  | some (.function parts) => {node with payload := some (.function {parts with body})}
  | _ => node

/-- A function no longer async. -/
def plain (node : Node) : Node :=
  match node.payload with
  | some (.function parts) => {node with payload := some (.function {parts with isAsync := false})}
  | _ => node

theorem children_plain (node : Node) : node.plain.children = node.children := by
  unfold plain
  split
  · rename_i h
    simp [children, slots, h, Payload.slots]
  · rfl

end Node

namespace Edit
open Store
variable {s : Store}

theorem setBody_run (hs : s.Sound) (i : Nat) (body : Ref) :
    ∃ done s', setBody i body s = (done, s') ∧ Revision s s' (editAt i (Node.withBody body)) [] := by
  refine ⟨_, revise_adopt_run hs i body (fun old new h => ?_) (fun node _ => ?_)⟩
  · split at h
    · cases h
      rfl
    · cases h
  · obtain ⟨kind, flags, span, payload⟩ := node
    cases payload with
    | none => rfl
    | some payload => cases payload <;> rfl

theorem makePlain_run (hs : s.Sound) (i : Nat) :
    ∃ s', (do
        let _ ← revise i fun
          | .function parts => some (.function {parts with isAsync := false})
          | _ => none
        pure ()) s = ((), s') ∧ Revision s s' (editAt i Node.plain) [] := by
  refine revise_discard_run hs i (fun old new h => ?_) (fun node => ?_)
  · split at h
    · cases h
      rfl
    · cases h
  · obtain ⟨kind, flags, span, payload⟩ := node
    cases payload with
    | none => rfl
    | some payload => cases payload <;> rfl

theorem byYield_blockPlan (s : Store) (body : Ref) {k : Nat} {node : Node}
    (h : (blockPlan s body).2[k]? = some node) : node.byYield = node := by
  have hmem := List.mem_of_getElem? h
  unfold blockPlan at hmem
  split at hmem
  · cases hmem
  · simp only [List.mem_cons, List.not_mem_nil, or_false] at hmem
    rcases hmem with rfl | rfl <;> rfl
  · simp only [List.mem_cons, List.not_mem_nil, or_false] at hmem
    subst hmem
    rfl

/-- Whether the `arguments` of the function around a lowered body are handed on to it. -/
def forwards (s : Store) (kind : FunctionKind) (body : Ref) : Bool :=
  kind ≠ .arrow || body.any s.mentionsArguments

/-- What lowering a function makes of the nodes: the function gets its new body, and the nodes that
belong to the old one pause a generator. -/
def functionEdit (i : NodeId) (top : Ref) (own : List NodeId) (j : NodeId) (node : Node) : Node :=
  editAt i (fun node => (node.withBody top).plain) j (if j ∈ own then node.byYield else node)

theorem functionEdit_self {i : NodeId} {node : Node} {of : FunctionKind} (there : s.node? i = some node)
    (hkind : node.kind = .function of) (top : Ref) (own : List NodeId) :
    functionEdit i top own i node = (node.withBody top).plain := by
  rw [functionEdit, editAt_self, byYield_eq_self there (by simp [hkind]) (by simp [hkind]), ite_self]

theorem functionEdit_of_ne {i j : NodeId} (hne : j ≠ i) (top : Ref) (own : List NodeId) (node : Node) :
    functionEdit i top own j node = if j ∈ own then node.byYield else node := by
  rw [functionEdit, editAt_of_ne hne]

theorem functionEdit_of_isInert {i j : NodeId} {node other : Node} {of : FunctionKind}
    (there : s.node? i = some node) (hkind : node.kind = .function of)
    (hj : s.node? j = some other) (hinert : other.kind.isInert = true) (top : Ref)
    (own : List NodeId) : functionEdit i top own j other = other := by
  have hne : j ≠ i := by
    rintro rfl
    obtain rfl := Option.some.inj (there.symm.trans hj)
    rw [hkind] at hinert
    cases hinert
  rw [functionEdit_of_ne hne, byYield_eq_self hj (fun h => by simp [h, Kind.isInert] at hinert)
    (fun h => by simp [h, Kind.isInert] at hinert), ite_self]

/-- Lowering a function first makes a block of its body; then it edits the function and the nodes
that belong to the block, and adds the nodes of a trampoline. -/
theorem lowerFunction_steps (hs : s.Sound) {i : Nat} (hi : i < s.size) (kind : FunctionKind)
    (body helper : Ref) :
    ∃ s₁ s', blockOf body s = ((blockPlan s body).1, s₁) ∧
      lowerFunction i kind body helper s = ((), s') ∧
      Revision s s₁ keep (blockPlan s body).2 ∧
      Revision s₁ s'
        (functionEdit i (some (s₁.size + trampolineTop (forwards s kind body)))
          (s₁.belonging (blockPlan s body).1))
        (trampolineNodes s₁.size helper (blockPlan s body).1 (forwards s kind body)) := by
  obtain ⟨s₁, run₁, rev₁⟩ := blockOf_run hs body
  obtain ⟨s₂, run₂, rev₂⟩ := suspendByYield_run rev₁.sound (blockPlan s body).1
  obtain ⟨s₃, run₃, rev₃⟩ := makeTrampoline_run rev₂.sound helper (blockPlan s body).1
    (forwards s kind body)
  obtain ⟨done, s₄, run₄, rev₄⟩ := setBody_run rev₃.sound i
    (some (s₂.size + trampolineTop (forwards s kind body)))
  obtain ⟨s₅, run₅, rev₅⟩ := makePlain_run rev₄.sound i
  have hsize : s₂.size = s₁.size := rev₂.size
  -- the function is older than all new nodes
  have hne (k : Nat) : s₁.size + k ≠ i := by
    have := rev₁.grows
    omega
  have rev := ((rev₂.trans_add rev₃).trans rev₄ fun k node _ => editAt_of_ne (hne k) _ _).trans rev₅
    fun k node _ => editAt_of_ne (hne k) _ _
  rw [List.append_nil, List.append_nil, List.nil_append, hsize] at rev
  refine ⟨s₁, s₅, run₁, ?_, rev₁, rev.congr fun j node _ => ?_⟩
  · exact (bind_run (get_run s)).trans <|
      (bind_run run₁).trans <| (bind_run run₂).trans <| (bind_run run₃).trans <|
      (bind_run run₄).trans run₅
  · by_cases he : j = i
    · subst he
      simp only [functionEdit, editAt_self]
    · simp only [functionEdit, editAt_of_ne he]

/-- **Lowering a function** edits the function and the nodes that belong to its body, once a block
has been made of that, and adds the nodes of the block and of a trampoline. -/
theorem lowerFunction_run (hs : s.Sound) {i : Nat} (hi : i < s.size) (kind : FunctionKind)
    (body helper : Ref) :
    ∃ s₁ s', lowerFunction i kind body helper s = ((), s') ∧
      Revision s s₁ keep (blockPlan s body).2 ∧
      Revision s s'
        (functionEdit i (some (s.size + (blockPlan s body).2.length +
          trampolineTop (forwards s kind body))) (s₁.belonging (blockPlan s body).1))
        ((blockPlan s body).2 ++ trampolineNodes (s.size + (blockPlan s body).2.length) helper
          (blockPlan s body).1 (forwards s kind body)) := by
  obtain ⟨s₁, s', _, hrun, rev₁, rev⟩ := lowerFunction_steps hs hi kind body helper
  rw [rev₁.size] at rev
  refine ⟨s₁, s', hrun, rev₁, rev₁.trans rev fun k node hk => ?_⟩
  -- the nodes of the block are no suspension points
  have hne : s.size + k ≠ i := by omega
  rw [functionEdit_of_ne hne, byYield_blockPlan s body hk, ite_self]

/-! ### Try expressions -/

/-- **Lowering a try expression** adds the call of the helper, which the node then awaits. -/
theorem lowerTry_run (hs : s.Sound) {i : Nat} (hi : i < s.size) (operand helper : Ref) :
    ∃ s', lowerTry i operand helper s = ((), s') ∧
      Revision s s'
        (editAt i fun node => {node with
          kind := .suspension .await
          payload := some (.suspension ⟨some s.size, false⟩)})
        [.made .call (.call ⟨helper, [operand]⟩)] := by
  obtain ⟨s₁, run₁, rev₁⟩ := make_run hs (show Kind.call.form? =
    some (Payload.call ⟨helper, [operand]⟩).form from rfl)
  have hform : (Kind.suspension .await).form? = some .suspension := rfl
  have hi₁ : i < s₁.size := Nat.lt_of_lt_of_le hi rev₁.grows
  obtain ⟨s₂, run₂, rev₂⟩ := becomeSuspension_run rev₁.sound hi₁ hform ⟨some s.size, false⟩
  refine ⟨s₂, (bind_run run₁).trans ((bind_run run₂).trans (pure_run () s₂)), ?_⟩
  have hne (k : Nat) : s.size + k ≠ i := by omega
  exact rev₁.trans rev₂ fun k node _ => editAt_of_ne (hne k) _ _

end Edit
end Settle
