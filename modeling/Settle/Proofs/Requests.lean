import Settle.Proofs.Linked
import Settle.Proofs.Quiet

/-! Parent links from the first node to the last request.

A store is assembled node by node, each over nodes that stand nowhere yet. It becomes
a program, and of the program things are asked: to settle it, to import a name, to
refer to a helper, to copy a node. Some of these come back with a fault, and what was
changed up to there stays. In every state that is reached in this way children name
their parents and no node stands in two places (`linked_after_requests`).

What an operation leaves is stated for both of its ends (`Ensures`): a reference that came
back is in hand, and a fault leaves nothing in hand. What the operations of a pass keep in
this sense, each request keeps (`Upkeep.apply`). -/
namespace Settle

open Store

/-! ### Both ends of an operation -/

section Ensures
variable {ε σ τ α β : Type} {inv : σ → Prop} {mid : α → σ → Prop} {post : β → σ → Prop}

/-- What a result says of the state: one thing if it came back, another after a fault. -/
def Ensures (inv : σ → Prop) (post : α → σ → Prop) : EStateM.Result ε σ α → Prop
  | .ok a s => post a s
  | .error _ s => inv s

theorem Ensures.bind {x : EStateM ε σ α} {f : α → EStateM ε σ β} {s : σ}
    (hx : Ensures inv mid (x s)) (hf : ∀ a s', mid a s' → Ensures inv post (f a s')) :
    Ensures inv post ((x >>= f) s) := by
  cases h : x s with
  | ok a s' =>
    rw [h] at hx
    rw [bind_ok h]
    exact hf a s' hx
  | error e s' =>
    rw [h] at hx
    rw [bind_error h]
    exact hx

theorem ensures_mapState {post : α → τ → Prop} {inv : τ → Prop} {f : σ → τ}
    {result : EStateM.Result Fault σ α}
    (h : Ensures (fun s => inv (f s)) (fun a s => post a (f s)) result) :
    Ensures inv post (WalkM.mapState f result) := by
  cases result with
  | ok => exact h
  | error => exact h

theorem forM_ensures {f : α → EStateM ε σ Unit}
    (hf : ∀ a s, inv s → Ensures inv (fun _ => inv) (f a s)) (as : List α) {s : σ} (h : inv s) :
    Ensures inv (fun _ => inv) (as.forM f s) := by
  induction as generalizing s with
  | nil => exact h
  | cons a rest ih => exact (hf a s h).bind fun _ _ h => ih h

/-- What every visit keeps, a walk keeps, however it ends. -/
theorem visit_ensures {pass : Pass σ} {inv : Walk σ → Prop}
    (hvisit : ∀ kind visitor, pass.visitor? kind = some visitor →
      ∀ i w, inv w → Ensures inv (fun _ => inv) (visitor i w))
    (depth : Nat) (i : NodeId) {w : Walk σ} (h : inv w) :
    Ensures inv (fun _ => inv) (pass.visit depth i w) := by
  induction depth generalizing i w with
  | zero => exact h
  | succ depth ih =>
    rw [Pass.visit, bind_ok (show WalkM.store w = .ok w.program.store w from rfl)]
    have hbelow : ∀ w, inv w → Ensures inv (fun _ => inv)
        ((do ((← WalkM.store).children i).forM (pass.visit depth) : WalkM σ Unit) w) :=
      fun w h => forM_ensures (fun j w h => ih j h) (w.program.store.children i) h
    cases hkind : w.program.store.kind? i with
    | none => exact h
    | some kind =>
      cases hv : pass.visitor? kind with
      | none =>
        simp only [hv]
        exact hbelow w h
      | some visitor =>
        simp only [hv]
        exact (hvisit kind visitor hv i w h).bind fun _ w h => hbelow w h

end Ensures

/-! ### Programs -/

namespace ProgramM
variable {p : Program} {hand : List NodeId}

/-- A reference came back and is in hand; or there was a fault and it is not. -/
abbrev Refers (hand : List NodeId) : EStateM.Result Fault Program NodeId → Prop :=
  Ensures (fun q => q.store.Linked none hand)
    fun reference q => q.store.Linked none (reference :: hand)

theorem makeIdentifier_refers (text : String) (h : p.store.Linked none hand) :
    Refers hand (edit (Edit.makeIdentifier text) p) := by
  obtain ⟨j, s', hrun, h'⟩ := Edit.make_linked .identifier (.identifier text) h rfl (.refl _)
  rw [show edit (Edit.makeIdentifier text) p = .ok j {p with store := s'} from edit_ok hrun]
  exact h'

theorem makeImport_linked {s : Store} (h : s.Linked none hand)
    (exported localName source : String) :
    ∃ statement s', (do
        let outer ← Edit.makeIdentifier exported
        let inner ← Edit.makeIdentifier localName
        let specifier ← Edit.make .importSpecifier (.importSpecifier ⟨some outer, some inner⟩)
        let source ← Edit.make (.literal .string) (.literal source)
        Edit.make .importDeclaration (.importDeclaration ⟨[some specifier], some source⟩)) s =
          (statement, s') ∧ s'.Linked none (statement :: hand) := by
  obtain ⟨outer, s₁, run₁, h₁⟩ := Edit.make_linked .identifier (.identifier exported) h rfl
    (.refl _)
  obtain ⟨inner, s₂, run₂, h₂⟩ := Edit.make_linked .identifier (.identifier localName) h₁ rfl
    (.refl _)
  obtain ⟨specifier, s₃, run₃, h₃⟩ := Edit.make_linked .importSpecifier
    (.importSpecifier ⟨some outer, some inner⟩) h₂ rfl (.swap _ _ _)
  obtain ⟨text, s₄, run₄, h₄⟩ := Edit.make_linked (.literal .string) (.literal source) h₃ rfl
    (.refl _)
  obtain ⟨statement, s₅, run₅, h₅⟩ := Edit.make_linked .importDeclaration
    (.importDeclaration ⟨[some specifier], some text⟩) h₄ rfl (.swap _ _ _)
  exact ⟨statement, s₅, (Edit.bind_run run₁).trans <| (Edit.bind_run run₂).trans <|
    (Edit.bind_run run₃).trans <| (Edit.bind_run run₄).trans run₅, h₅⟩

theorem importNamed_refers (exported source : String) (h : p.store.Linked none hand) :
    Refers hand (importNamed exported source p) := by
  let named : Program := {p with names := (p.names.fresh exported).2}
  obtain ⟨statement, s₁, run₁, h₁⟩ := makeImport_linked h exported (p.names.fresh exported).1 source
  obtain ⟨done, s₂, run₂, h₂⟩ := Edit.insertStatement_linked h₁ p.root
    {named with store := s₁}.leadingImports
  have hname : freshName exported p = .ok (p.names.fresh exported).1 named := rfl
  rw [importNamed, bind_ok hname, bind_ok (@edit_ok named _ _ _ _ run₁), bind_ok (get_ok _),
    bind_ok (edit_ok run₂)]
  cases done with
  | false => exact h₂
  | true => exact makeIdentifier_refers _ h₂

theorem useHelper_refers (name : String) (h : p.store.Linked none hand) :
    Refers hand (useHelper name p) := by
  rw [useHelper, bind_ok (get_ok p)]
  cases p.localName? name with
  | some localName => exact makeIdentifier_refers localName h
  | none =>
    cases Helper.named? name with
    | none => exact h
    | some helper => exact makeIdentifier_refers (p.names.fresh helper.name).1 h

theorem copyReference_refers (reference : NodeId) (h : p.store.Linked none hand) :
    Refers hand (copyReference reference p) := by
  obtain ⟨ref, s', hrun, h'⟩ :=
    Edit.copyWithin_linked (p.store.size + Edit.idBound) reference h
  have hcopy : Edit.copy reference p.store = (ref, s') :=
    (Edit.copy_run reference p.store).trans hrun
  rw [copyReference, bind_ok (edit_ok hcopy)]
  cases ref with
  | none => exact h'
  | some copied => exact h'

/-- Lowering a node uses up the reference that it is given. -/
theorem lower_linked (i : NodeId) {helper : NodeId} (h : p.store.Linked none (helper :: hand)) :
    Ensures (fun q => q.store.Linked none hand) (fun _ q => q.store.Linked none hand)
      (lower i (some helper) p) := by
  rw [lower, bind_ok (get_ok p)]
  cases p.store.kind? i with
  | none => exact h.drop
  | some kind =>
    cases kind with
    | function kind =>
      cases hp : p.store.payload? i with
      | none => exact h.drop
      | some payload =>
        cases payload with
        | function parts =>
          obtain ⟨s', hrun, h'⟩ := Edit.lowerFunction_linked h hp kind
          simp only [edit_ok hrun]
          exact h'
        | _ => exact h.drop
    | tryExpression =>
      cases hp : p.store.payload? i with
      | none => exact h.drop
      | some payload =>
        cases payload with
        | tryExpression parts =>
          obtain ⟨s', hrun, h'⟩ := Edit.lowerTry_linked h hp
          simp only [edit_ok hrun]
          exact h'
        | _ => exact h.drop
    | _ => exact h.drop

end ProgramM

/-! ### Walks -/

/-- What holds of a program before an operation, and what it ensures of the program after it. -/
def Maintains {α : Type} (pre inv : Program → Prop) (post : α → Program → Prop)
    (operation : ProgramM α) : Prop :=
  -- a result with a name of its own, since the kernel would run the operation otherwise
  ∀ p result, operation p = result → pre p → Ensures inv post result

theorem maintains_iff {α : Type} {pre inv : Program → Prop} {post : α → Program → Prop}
    {operation : ProgramM α} :
    Maintains pre inv post operation ↔ ∀ p, pre p → Ensures inv post (operation p) := by
  constructor
  · exact fun h p hp => h p _ rfl hp
  · rintro h p _ rfl hp
    exact h p hp

/-- What the operations of a pass keep. A reference that comes back is on its way to the node that
is lowered with it; it may also be dropped. -/
structure Upkeep (inv : Program → Prop) (handed : NodeId → Program → Prop) : Prop where
  imported : ∀ exported source, Maintains inv inv handed (ProgramM.importNamed exported source)
  helped : ∀ name, Maintains inv inv handed (ProgramM.useHelper name)
  copied : ∀ reference, Maintains inv inv handed (ProgramM.copyReference reference)
  lowered : ∀ i helper,
    Maintains (handed helper) inv (fun _ => inv) (ProgramM.lower i (some helper))
  dropped : ∀ reference p, handed reference p → inv p

section Upkeep
variable {inv : Program → Prop} {handed : NodeId → Program → Prop} {σ : Type} {w : Walk (Memo σ)}

theorem Upkeep.wrapperReference (h : Upkeep inv handed) (method source : String)
    (hw : inv w.program) :
    Ensures (fun w => inv w.program) (fun reference w => handed reference w.program)
      (Pass.wrapperReference method source w) := by
  rw [Pass.wrapperReference, bind_ok (show WalkM.state w = .ok w.state w from rfl)]
  cases w.state.wrapper with
  | some cached => exact ensures_mapState (maintains_iff.mp (h.copied cached) _ hw)
  | none =>
    have himport : Ensures (fun w => inv w.program) (fun reference w => handed reference w.program)
        (WalkM.onProgram (ProgramM.importNamed method source) w) :=
      ensures_mapState (maintains_iff.mp (h.imported method source) _ hw)
    exact himport.bind fun _ _ h => h

theorem Upkeep.handOver (h : Upkeep inv handed) (i : NodeId) {helper : NodeId}
    (hw : handed helper w.program) :
    Ensures (fun w => inv w.program) (fun _ w => inv w.program)
      (Pass.handOver (Lowering.standard : Lowering σ) i helper w) :=
  ensures_mapState (ensures_mapState (maintains_iff.mp (h.lowered i helper) _ hw))

/-- Each visit hands over the reference that it asks for. -/
theorem Upkeep.visitor (h : Upkeep inv handed) (strategy : Strategy) (i : NodeId)
    (hw : inv w.program) :
    Ensures (fun w => inv w.program) (fun _ w => inv w.program)
      (strategy.visitor Lowering.standard i w) := by
  cases heligible : w.program.store.isEligible i with
  | false =>
    rw [strategy.visitor_skip _ heligible]
    exact hw
  | true =>
    cases strategy with
    | wholeFunction method source =>
      show Ensures _ _ ((if w.program.store.isEligible i = true then _ else _ :
        WalkM (Memo σ) Unit) w)
      rw [heligible, if_pos rfl]
      exact (h.wrapperReference method source hw).bind fun _ _ hw => h.handOver i hw
    | localExpression =>
      show Ensures _ _ ((if w.program.store.isEligible i = true then _ else _ :
        WalkM (Memo σ) Unit) w)
      rw [heligible, if_pos rfl]
      have hhelper : Ensures (fun w => inv w.program)
          (fun reference w => handed reference w.program)
          (WalkM.onProgram (ProgramM.useHelper Helper.tryAwait.name) w) :=
        ensures_mapState (maintains_iff.mp (h.helped _) _ hw)
      exact hhelper.bind fun _ _ hw => h.handOver i hw

/-- What each visit keeps, settling keeps, however it ends. -/
theorem Upkeep.settle (h : Upkeep inv handed) (options : Options) {p : Program} (hp : inv p) :
    Ensures inv (fun _ => inv) (ProgramM.settle options p) := by
  have hregistered : ∀ kind visitor,
      (Pass.ofStrategy options.strategy (Lowering.standard : Lowering Unit)).visitor? kind =
        some visitor →
      ∀ (i : NodeId) (w : Walk (Memo Unit)), inv w.program →
        Ensures (fun w => inv w.program) (fun _ w => inv w.program) (visitor i w) := by
    intro kind visitor hv i w hw
    rw [visitor?_ofStrategy] at hv
    split at hv
    · obtain rfl := Option.some.inj hv
      exact h.visitor options.strategy i hw
    · cases hv
  have hwalk := @visit_ensures _ _ (fun w => inv w.program) hregistered depthLimit p.root
    ⟨p, {inner := ()}⟩ hp
  rw [settle_run]
  cases hresult : (Pass.ofStrategy options.strategy (Lowering.standard : Lowering Unit)).visit
      depthLimit p.root ⟨p, {inner := ()}⟩ with
  | ok _ w =>
    rw [hresult] at hwalk
    exact hwalk
  | error fault w =>
    rw [hresult] at hwalk
    exact hwalk

end Upkeep

/-- Parent links, with a reference in hand on its way. -/
theorem upkeep_linked :
    Upkeep (fun q => q.store.Linked none [])
      (fun reference q => q.store.Linked none [reference]) where
  imported := fun exported source =>
    maintains_iff.mpr fun _ h => ProgramM.importNamed_refers exported source h
  helped := fun name => maintains_iff.mpr fun _ h => ProgramM.useHelper_refers name h
  copied := fun reference =>
    maintains_iff.mpr fun _ h => ProgramM.copyReference_refers reference h
  lowered := fun i _ => maintains_iff.mpr fun _ h => ProgramM.lower_linked i h
  dropped := fun _ _ h => h.drop

/-! ### Stores -/

namespace Store
variable {s : Store}

/-- Made from nothing, each node over different nodes that exist and stand nowhere yet. -/
inductive Assembled : Store → Prop where
  | empty : Assembled {}
  | token {s : Store} {kind : Kind} (h : Assembled s) (flags : UInt32) (span : Span)
      (hk : kind.form? = none) : Assembled (s.pushToken kind flags span)
  | node {s : Store} {kind : Kind} {payload : Payload Ref} (h : Assembled s) (flags : UInt32)
      (span : Span) (hk : kind.form? = some payload.form) (distinct : payload.children.Nodup)
      (exist : ∀ c ∈ payload.children, c < s.size)
      (free : ∀ c ∈ payload.children, ∀ i < s.size, c ∉ s.children i) :
      Assembled (s.push kind flags span payload)

theorem Assembled.linked (h : s.Assembled) : s.Linked none [] := by
  induction h with
  | empty => exact linked_empty
  | token _ flags span hk ih => exact (ih.pushToken flags span hk).drop
  | @node s kind payload _ flags span hk distinct exist free ih =>
    -- nodes that stand nowhere can be taken in hand
    have hhand : s.Linked none payload.children := by
      refine {ih with handExist := exist, handDistinct := distinct, free := fun {i c} hc hi => ?_}
      by_cases hlt : i < s.size
      · exact absurd hi (free c hc i hlt)
      · rw [children_eq, node?_eq_none (Nat.not_lt.mp hlt)] at hi
        cases hi
    exact (hhand.push flags span hk (.of_eq (List.append_nil _).symm)).drop

end Store

/-! ### Requests -/

/-- What can be asked of a program. -/
inductive Request where
  | settle (options : Options)
  | importNamed (exported source : String)
  | useHelper (name : String)
  | copyReference (reference : NodeId)
  deriving DecidableEq, Repr

/-- The state that a result comes with. -/
def stateOf {ε σ α : Type} : EStateM.Result ε σ α → σ
  | .ok _ s => s
  | .error _ s => s

/-- The program after a request, with a fault or without. -/
def Request.apply (p : Program) : Request → Program
  | settle options => stateOf (ProgramM.settle options p)
  | importNamed exported source => stateOf (ProgramM.importNamed exported source p)
  | useHelper name => stateOf (ProgramM.useHelper name p)
  | copyReference reference => stateOf (ProgramM.copyReference reference p)

/-- The program after requests one after the other. -/
def Program.after (p : Program) (requests : List Request) : Program :=
  requests.foldl Request.apply p

section Requests
variable {p : Program}

theorem Ensures.stateOf {ε σ α : Type} {inv : σ → Prop} {post : α → σ → Prop}
    {result : EStateM.Result ε σ α} (h : Ensures inv post result)
    (hpost : ∀ a s, post a s → inv s) : inv (stateOf result) := by
  cases result with
  | ok a s => exact hpost a s h
  | error => exact h

theorem Upkeep.apply {inv : Program → Prop} {handed : NodeId → Program → Prop}
    (h : Upkeep inv handed) (request : Request) (hp : inv p) : inv (request.apply p) := by
  cases request with
  | settle options => exact (h.settle options hp).stateOf fun _ _ hp => hp
  | importNamed exported source =>
    exact (maintains_iff.mp (h.imported exported source) p hp).stateOf h.dropped
  | useHelper name => exact (maintains_iff.mp (h.helped name) p hp).stateOf h.dropped
  | copyReference reference =>
    exact (maintains_iff.mp (h.copied reference) p hp).stateOf h.dropped

/-- Each request leaves the links as they should be. -/
theorem Program.after_linked (requests : List Request) (h : p.store.Linked none []) :
    (p.after requests).store.Linked none [] := by
  induction requests generalizing p with
  | nil => exact h
  | cons request rest ih => exact ih (upkeep_linked.apply request h)

/-- **Over an assembled store, whatever is asked of the program, children name their parents and no
node stands in two places.** -/
theorem linked_after_requests {store : Store} {root : NodeId} (hstore : store.Assembled)
    (hp : Program.ofStore store root = .ok p) (requests : List Request) :
    (∀ i c, c ∈ (p.after requests).store.children i →
      (p.after requests).store.parent c = some i) ∧
    ((List.range (p.after requests).store.size).flatMap
      (p.after requests).store.children).Nodup := by
  have hstart : p.store.Linked none [] := by
    unfold Program.ofStore at hp
    split at hp
    · cases hp
      exact hstore.linked
    · cases hp
  have hlinked := Program.after_linked requests hstart
  exact ⟨fun i c hc => hlinked.parent hc (not_lends_none i c), hlinked.nodup_children⟩

theorem Store.assembled_nestedAsync : nestedAsync.Assembled :=
  Assembled.empty.node 0 .zero rfl (by decide) (by decide) (by decide)
    |>.token 0 .zero rfl
    |>.node 0 .zero rfl (by decide) (by decide) (by decide)
    |>.node 0 .zero rfl (by decide) (by decide) (by decide)
    |>.node 0 .zero rfl (by decide) (by decide) (by decide)
    |>.node 0 .zero rfl (by decide) (by decide) (by decide)
    |>.node 0 .zero rfl (by decide) (by decide) (by decide)
    |>.node 0 .zero rfl (by decide) (by decide) (by decide)
    |>.node 0 .zero rfl (by decide) (by decide) (by decide)

theorem linked_after_requests_nestedAsync :
    ∃ p q, Program.ofStore .nestedAsync 8 = .ok p ∧
      q = p.after [.settle ⟨some "wrap", some "lib"⟩, .importNamed "a" "m", .useHelper "tryAwait",
        .useHelper "none", .copyReference 8, .settle {}] ∧
      p.store.size < q.store.size ∧
      (∀ i c, c ∈ q.store.children i → q.store.parent c = some i) ∧
      ((List.range q.store.size).flatMap q.store.children).Nodup := by
  obtain ⟨p, hp⟩ : ∃ p, Program.ofStore .nestedAsync 8 = .ok p := ⟨_, rfl⟩
  obtain ⟨hparent, hnodup⟩ := linked_after_requests Store.assembled_nestedAsync hp
    [.settle ⟨some "wrap", some "lib"⟩, .importNamed "a" "m", .useHelper "tryAwait",
      .useHelper "none", .copyReference 8, .settle {}]
  refine ⟨p, _, hp, rfl, ?_, hparent, hnodup⟩
  cases hp
  decide +kernel

end Requests
end Settle
