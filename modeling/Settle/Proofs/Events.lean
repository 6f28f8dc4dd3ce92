import Mathlib.Data.List.Induction
import Settle.Proofs.Requests

/-! Walks that only look.

A walk keeps its depth, leaves early and looks up a visitor at each node. Where no visitor
changes the program, all of that can be said by a list. The references below the root
are listed depth first, each with its depth, and what the walk comes to at each of them is an
event or nothing (`Program.events`): the visitor that was registered last for the kind
of an existing node is called, and a reference at the depth limit stops the walk, whether its node
exists or not. The walk is these events one after the other up to the first that stops
(`run_iff_events`), over any store at all. -/
namespace Settle

variable {σ : Type}

/-! ### Registrations -/

/-- A visitor and the kinds it is registered for. -/
structure Registration (σ : Type) where
  kinds : List Kind
  visitor : Visitor σ

/-- A pass with visitors registered one after the other. -/
def Pass.ofRegistrations (name : String) (registrations : List (Registration σ)) : Pass σ :=
  registrations.foldl (fun pass r => pass.register r.kinds r.visitor) {name}

/-- The visitor that was registered last for a kind. -/
def lastFor (registrations : List (Registration σ)) (kind : Kind) : Option (Visitor σ) :=
  (registrations.reverse.find? fun r => kind ∈ r.kinds).map Registration.visitor

theorem visitor?_register (pass : Pass σ) (kinds : List Kind) (visitor : Visitor σ) (kind : Kind) :
    (pass.register kinds visitor).visitor? kind =
      if kind ∈ kinds then some visitor else pass.visitor? kind := by
  show List.lookup kind (kinds.map (·, visitor) ++ pass.visitors) = _
  rw [List.lookup_append, lookup_map_const]
  split <;> rfl

theorem visitor?_ofRegistrations (name : String) (registrations : List (Registration σ))
    (kind : Kind) :
    (Pass.ofRegistrations name registrations).visitor? kind = lastFor registrations kind := by
  induction registrations using List.reverseRecOn with
  | nil => rfl
  | append_singleton rest r ih =>
    have hlast : Pass.ofRegistrations name (rest ++ [r]) =
        (Pass.ofRegistrations name rest).register r.kinds r.visitor := by
      simp only [Pass.ofRegistrations, List.foldl_append, List.foldl_cons, List.foldl_nil]
    rw [hlast, visitor?_register, ih, lastFor, lastFor, List.reverse_append, List.reverse_singleton,
      List.singleton_append, List.find?_cons]
    by_cases h : kind ∈ r.kinds <;> simp [h]

/-! ### Events -/

/-- The references from a root on in depth-first order, each before those below it and with its
depth, down to a limit. One that can be reached in several ways is listed as often, and one that
names no node is listed too. -/
def Store.unfolding (s : Store) (limit : Nat) (root : NodeId) : List (Nat × NodeId) :=
  Graph.preorder (fun entry => (s.children entry.2).map (entry.1 + 1, ·)) (limit + 1) (0, root)

/-- What a walk can come to. -/
inductive Event (σ : Type) where
  | call (visitor : Visitor σ) (i : NodeId)
  /-- A reference at the depth limit. -/
  | limit (i : NodeId)

def Event.perform : Event σ → WalkM σ Unit
  | call visitor i => visitor i
  | limit i => throw (.depthLimit i)

/-- What a walk comes to at a reference of some depth. -/
def Event.at? (visitor? : Kind → Option (Visitor σ)) (s : Store) (entry : Nat × NodeId) :
    Option (Event σ) :=
  if entry.1 = depthLimit then some (.limit entry.2)
  else ((s.kind? entry.2).bind visitor?).map (.call · entry.2)

/-- What a walk over a program comes to, if it is not stopped. -/
def Program.events (p : Program) (registrations : List (Registration σ)) : List (Event σ) :=
  (p.store.unfolding depthLimit p.root).filterMap (Event.at? (lastFor registrations) p.store)

/-- Events one after the other, none of which stops, from one state of the visitors to another. -/
inductive Happen (p : Program) : List (Event σ) → σ → σ → Prop where
  | nil {state : σ} : Happen p [] state state
  | cons {event : Event σ} {rest : List (Event σ)} {state state₁ state₂ : σ}
      (first : event.perform ⟨p, state⟩ = .ok () ⟨p, state₁⟩) (next : Happen p rest state₁ state₂) :
      Happen p (event :: rest) state state₂

/-- Leaves the program alone, whether it comes back or stops. -/
def Visitor.Observes (visitor : Visitor σ) : Prop :=
  ∀ i w, (stateOf (visitor i w)).program = w.program

/-! ### From the walk to the list -/

section Observers
variable {pass : Pass σ} {p : Program}

/-- A result whose program is the one given. -/
abbrev Unchanged (p : Program) : EStateM.Result Fault (Walk σ) Unit → Prop :=
  Ensures (fun w => w.program = p) (fun _ w => w.program = p)

theorem Visitor.Observes.unchanged {visitor : Visitor σ} (h : visitor.Observes) (i : NodeId)
    {w : Walk σ} (hw : w.program = p) : Unchanged p (visitor i w) := by
  have hkept := (h i w).trans hw
  cases hresult : visitor i w with
  | ok _ w' =>
    rw [hresult] at hkept
    exact hkept
  | error fault w' =>
    rw [hresult] at hkept
    exact hkept

/-- After a step that leaves the program alone, only what comes next with that program matters. -/
theorem bind_congr_of_unchanged {x f g : WalkM σ Unit} {w : Walk σ} (hx : Unchanged p (x w))
    (h : ∀ w, w.program = p → f w = g w) : (x >>= fun _ => f) w = (x >>= fun _ => g) w := by
  cases hresult : x w with
  | ok _ w₁ =>
    rw [hresult] at hx
    rw [bind_ok hresult, bind_ok hresult]
    exact h w₁ hx
  | error fault w₁ => rw [bind_error hresult, bind_error hresult]

theorem bind_congr_first {x y : WalkM σ Unit} {f : Unit → WalkM σ Unit} {w : Walk σ}
    (h : x w = y w) : (x >>= f) w = (y >>= f) w := by
  show EStateM.bind x f w = EStateM.bind y f w
  rw [EStateM.bind, EStateM.bind, h]

theorem forM_append_run (before after : List (Event σ)) (w : Walk σ) :
    (before ++ after).forM Event.perform w =
      (before.forM Event.perform >>= fun _ => after.forM Event.perform) w :=
  congrFun List.forM_append w

/-- Lists of events done one after the other are done as one list. -/
theorem forM_flatMap_perform {f : NodeId → WalkM σ Unit} {events : NodeId → List (Event σ)}
    (hf : ∀ i w, w.program = p → f i w = (events i).forM Event.perform w)
    (hkept : ∀ i w, w.program = p → Unchanged p (f i w)) (is : List NodeId) {w : Walk σ}
    (hw : w.program = p) :
    is.forM f w = (is.flatMap events).forM Event.perform w := by
  induction is generalizing w with
  | nil => rfl
  | cons i rest ih =>
    calc (i :: rest).forM f w
      _ = (f i >>= fun _ => (rest.flatMap events).forM Event.perform) w :=
        bind_congr_of_unchanged (hkept i w hw) fun w hw => ih hw
      _ = ((events i).forM Event.perform >>= fun _ =>
            (rest.flatMap events).forM Event.perform) w := bind_congr_first (hf i w hw)
      _ = ((i :: rest).flatMap events).forM Event.perform w := (forM_append_run _ _ w).symm

/-- The events from a reference on, with the depth that is left there. -/
def eventsFrom (visitor? : Kind → Option (Visitor σ)) (s : Store) (depth : Nat)
    (entry : Nat × NodeId) : List (Event σ) :=
  (Graph.preorder (fun entry => (s.children entry.2).map (entry.1 + 1, ·)) (depth + 1)
    entry).filterMap (Event.at? visitor? s)

/-- What is below a node comes after the event at the node. -/
theorem eventsFrom_succ (visitor? : Kind → Option (Visitor σ)) (s : Store) (depth d : Nat)
    (i : NodeId) :
    eventsFrom visitor? s (depth + 1) (d, i) = (Event.at? visitor? s (d, i)).toList ++
      (s.children i).flatMap fun j => eventsFrom visitor? s depth (d + 1, j) := by
  rw [eventsFrom, Graph.preorder, List.filterMap_cons, List.flatMap_map, List.filterMap_flatMap]
  cases Event.at? visitor? s (d, i) <;> rfl

/-- Calls the visitor for a node, if there are both. -/
def Pass.callAt (pass : Pass σ) (s : Store) (i : NodeId) : WalkM σ Unit :=
  ((s.kind? i).bind pass.visitor?).elim (pure ()) (· i)

theorem perform_at {d : Nat} (hne : d ≠ depthLimit) (pass : Pass σ) (s : Store) (i : NodeId)
    (w : Walk σ) :
    (Event.at? pass.visitor? s (d, i)).toList.forM Event.perform w = pass.callAt s i w := by
  rw [Event.at?, if_neg hne, Pass.callAt]
  cases (s.kind? i).bind pass.visitor? with
  | none => rfl
  | some visitor =>
    show (visitor i >>= fun _ => pure ()) w = visitor i w
    cases hresult : visitor i w with
    | ok _ w₁ => exact bind_ok hresult
    | error fault w₁ => exact bind_error hresult

theorem Pass.callAt_unchanged
    (hobserve : ∀ kind visitor, pass.visitor? kind = some visitor → visitor.Observes) (i : NodeId)
    {w : Walk σ} (hw : w.program = p) : Unchanged p (pass.callAt p.store i w) := by
  rw [Pass.callAt]
  cases hvisitor : (p.store.kind? i).bind pass.visitor? with
  | none => exact hw
  | some visitor =>
    obtain ⟨kind, _, hv⟩ := Option.bind_eq_some_iff.mp hvisitor
    exact (hobserve kind visitor hv).unchanged i hw

/-- The walk over a node: the call, then the walk over the children that the node still has. -/
theorem visit_eq_callAt
    (hobserve : ∀ kind visitor, pass.visitor? kind = some visitor → visitor.Observes)
    (depth : Nat) (i : NodeId) {w : Walk σ} (hw : w.program = p) :
    pass.visit (depth + 1) i w =
      (pass.callAt p.store i >>= fun _ => (p.store.children i).forM (pass.visit depth)) w := by
  cases hk : p.store.kind? i with
  | none =>
    have hchildren : p.store.children i = [] := by
      rw [Store.kind?_eq, Option.map_eq_none_iff] at hk
      rw [Store.children_eq, hk]
      rfl
    rw [visit_missing (hw ▸ hk), Pass.callAt, hk, hchildren]
    rfl
  | some kind =>
    have hbelow : ∀ w : Walk σ, w.program = p →
        (do ((← WalkM.store).children i).forM (pass.visit depth) : WalkM σ Unit) w =
          (p.store.children i).forM (pass.visit depth) w := by
      rintro w rfl
      rfl
    refine Eq.trans ?_ (bind_congr_of_unchanged (pass.callAt_unchanged hobserve i hw) hbelow)
    rw [Pass.visit, bind_ok (show WalkM.store w = .ok w.program.store w from rfl), hw, hk,
      Pass.callAt, hk, Option.bind_some]
    cases hv : pass.visitor? kind with
    | none =>
      simp only [hv]
      rfl
    | some visitor =>
      simp only [hv]
      rfl

/-- **The walk from a node is its events one after the other.** The depth that the walk has left and
the depth of the node make up the limit. -/
theorem visit_eq_forM
    (hobserve : ∀ kind visitor, pass.visitor? kind = some visitor → visitor.Observes)
    (depth : Nat) {d : Nat} (hd : d + depth = depthLimit) (i : NodeId) {w : Walk σ}
    (hw : w.program = p) :
    pass.visit depth i w =
      (eventsFrom pass.visitor? p.store depth (d, i)).forM Event.perform w := by
  induction depth generalizing d i w with
  | zero =>
    obtain rfl : d = depthLimit := hd
    rfl
  | succ depth ih =>
    have hbelow : ∀ w : Walk σ, w.program = p → (p.store.children i).forM (pass.visit depth) w =
        ((p.store.children i).flatMap fun j =>
          eventsFrom pass.visitor? p.store depth (d + 1, j)).forM Event.perform w := by
      intro w hw
      refine forM_flatMap_perform (fun j w hw => ih (by omega) j hw) (fun j w hw => ?_) _ hw
      exact visit_ensures (fun kind visitor hv j w hw => (hobserve kind visitor hv).unchanged j hw)
        depth j hw
    have hne : d ≠ depthLimit := by omega
    rw [visit_eq_callAt hobserve depth i hw,
      bind_congr_of_unchanged (pass.callAt_unchanged hobserve i hw) hbelow, eventsFrom_succ,
      forM_append_run, bind_congr_first (perform_at hne pass p.store i w)]

end Observers

/-! ### How a list of events ends -/

section Ends
variable {p : Program} {events : List (Event σ)} {state : σ} {w : Walk σ} {fault : Fault}

/-- Each event leaves the program alone. -/
abbrev Observing (events : List (Event σ)) : Prop :=
  ∀ event ∈ events, ∀ (p : Program) (state : σ), Unchanged p (event.perform ⟨p, state⟩)

theorem forM_ok_iff (h : Observing events) :
    events.forM Event.perform ⟨p, state⟩ = .ok () w ↔
      w.program = p ∧ Happen p events state w.state := by
  induction events generalizing state with
  | nil =>
    show EStateM.Result.ok () _ = _ ↔ _
    constructor
    · rintro ⟨⟩
      exact ⟨rfl, .nil⟩
    · rintro ⟨rfl, ⟨⟩⟩
      rfl
  | cons event rest ih =>
    have hfirst := h event List.mem_cons_self p state
    have ih {state : σ} := @ih state fun event he => h event (List.mem_cons_of_mem _ he)
    show (event.perform >>= fun _ => rest.forM Event.perform) _ = _ ↔ _
    cases hresult : event.perform ⟨p, state⟩ with
    | ok _ w₁ =>
      rw [hresult] at hfirst
      obtain ⟨program, state₁⟩ := w₁
      obtain rfl : program = p := hfirst
      rw [bind_ok hresult, ih]
      refine and_congr_right fun _ => ⟨.cons hresult, ?_⟩
      rintro (_ | ⟨hok, hnext⟩)
      rw [hresult] at hok
      cases hok
      exact hnext
    | error fault w₁ =>
      rw [bind_error hresult]
      constructor
      · rintro ⟨⟩
      · rintro ⟨_, _ | ⟨hok, _⟩⟩
        rw [hresult] at hok
        cases hok

theorem forM_error_iff (h : Observing events) :
    events.forM Event.perform ⟨p, state⟩ = .error fault w ↔
      w.program = p ∧ ∃ before event after between, events = before ++ event :: after ∧
        Happen p before state between ∧
        event.perform ⟨p, between⟩ = .error fault ⟨p, w.state⟩ := by
  induction events generalizing state with
  | nil =>
    show EStateM.Result.ok () _ = _ ↔ _
    constructor
    · rintro ⟨⟩
    · rintro ⟨_, before, event, after, _, hsplit, _⟩
      simp at hsplit
  | cons event rest ih =>
    have hfirst := h event List.mem_cons_self p state
    have ih {state : σ} := @ih state fun event he => h event (List.mem_cons_of_mem _ he)
    show (event.perform >>= fun _ => rest.forM Event.perform) _ = _ ↔ _
    cases hresult : event.perform ⟨p, state⟩ with
    | ok _ w₁ =>
      rw [hresult] at hfirst
      obtain ⟨program, state₁⟩ := w₁
      obtain rfl : program = p := hfirst
      rw [bind_ok hresult, ih]
      refine and_congr_right fun _ => ⟨?_, ?_⟩
      · rintro ⟨before, last, after, between, rfl, hbefore, hlast⟩
        exact ⟨event :: before, last, after, between, rfl, .cons hresult hbefore, hlast⟩
      · rintro ⟨before, last, after, between, hsplit, hbefore, hlast⟩
        -- the first event did not stop, so it is among those before
        cases hbefore with
        | nil =>
          cases hsplit
          rw [hresult] at hlast
          cases hlast
        | cons hok hnext =>
          cases hsplit
          rw [hresult] at hok
          cases hok
          exact ⟨_, last, after, between, rfl, hnext, hlast⟩
    | error fault₁ w₁ =>
      rw [hresult] at hfirst
      obtain ⟨program, state₁⟩ := w₁
      obtain rfl : program = p := hfirst
      rw [bind_error hresult]
      constructor
      · rintro ⟨⟩
        exact ⟨rfl, [], event, rest, state, rfl, .nil, hresult⟩
      · rintro ⟨hprogram, before, last, after, between, hsplit, hbefore, hlast⟩
        cases hbefore with
        | nil =>
          cases hsplit
          rw [hresult] at hlast
          cases hlast
          obtain ⟨program', state'⟩ := w
          obtain rfl : program' = program := hprogram
          rfl
        | cons hok _ =>
          cases hsplit
          rw [hresult] at hok
          cases hok

end Ends

/-! ### Programs -/

section Run
variable {registrations : List (Registration σ)} {p : Program}

theorem observes_of_lastFor (h : ∀ r ∈ registrations, r.visitor.Observes) {kind : Kind}
    {visitor : Visitor σ} (hlast : lastFor registrations kind = some visitor) :
    visitor.Observes := by
  obtain ⟨r, hr, rfl⟩ := Option.map_eq_some_iff.mp hlast
  exact h r (List.mem_reverse.mp (List.mem_of_find?_eq_some hr))

theorem observing_events (h : ∀ r ∈ registrations, r.visitor.Observes) (p : Program) :
    Observing (p.events registrations) := by
  intro event he q state
  obtain ⟨entry, _, hevent⟩ := List.mem_filterMap.mp he
  unfold Event.at? at hevent
  split at hevent
  · cases hevent
    rfl
  · obtain ⟨visitor, hvisitor, rfl⟩ := Option.map_eq_some_iff.mp hevent
    obtain ⟨kind, _, hlast⟩ := Option.bind_eq_some_iff.mp hvisitor
    exact (observes_of_lastFor h hlast).unchanged _ rfl

theorem run_eq_forM (h : ∀ r ∈ registrations, r.visitor.Observes) (name : String) (p : Program)
    (state : σ) :
    (Pass.ofRegistrations name registrations).run p state =
      (p.events registrations).forM Event.perform ⟨p, state⟩ := by
  have hvisitor : (Pass.ofRegistrations name registrations).visitor? = lastFor registrations :=
    funext (visitor?_ofRegistrations name registrations)
  have hrun := @visit_eq_forM σ (Pass.ofRegistrations name registrations) p
    (fun kind visitor hv => observes_of_lastFor h (visitor?_ofRegistrations name _ kind ▸ hv))
    depthLimit 0 (Nat.zero_add _) p.root ⟨p, state⟩ rfl
  rw [hvisitor] at hrun
  exact hrun

/-- **A walk that only looks is the list of its events.** It comes back exactly if none of them
stops, with the state that they lead to. It stops exactly at the first that stops, with the fault of
the visitor called there, or with the reference that lies at the depth limit. In neither case is the
program changed. -/
theorem run_iff_events (name : String) (registrations : List (Registration σ))
    (h : ∀ r ∈ registrations, r.visitor.Observes) (p : Program) (state : σ) :
    (∀ w, (Pass.ofRegistrations name registrations).run p state = .ok () w ↔
      w.program = p ∧ Happen p (p.events registrations) state w.state) ∧
    (∀ fault w, (Pass.ofRegistrations name registrations).run p state = .error fault w ↔
      w.program = p ∧ ∃ before event after between,
        p.events registrations = before ++ event :: after ∧ Happen p before state between ∧
          event.perform ⟨p, between⟩ = .error fault ⟨p, w.state⟩) := by
  have hevents := observing_events h p
  rw [run_eq_forM h]
  exact ⟨fun w => forM_ok_iff hevents, fun fault w => forM_error_iff hevents⟩

/-- `a(…)`, called with a node that does not exist and with itself. The file is node 2. -/
def Store.looped : Store :=
  ({} : Store)
    |>.push .identifier 0 .zero (.identifier "a")
    |>.push .call 0 .zero (.call ⟨some 0, [some 9, some 1]⟩)
    |>.push .sourceFile 0 .zero (.sourceFile ⟨"a.js", [some 1]⟩)

set_option maxRecDepth 40000 in
/-- The second registration for files replaces the first, and the walk follows the call into itself
until the depth runs out at the name that it calls. -/
theorem run_iff_events_looped :
    ∃ p, Program.ofStore .looped 2 = .ok p ∧
      ∃ before event after between,
        p.events [⟨[.sourceFile, .literal .string], fun i => throw (.missingNode i)⟩,
          ⟨[.sourceFile], fun i => WalkM.modifyState (· ++ [i])⟩] = before ++ event :: after ∧
        Happen p before [] between ∧
        event.perform ⟨p, between⟩ = .error (.depthLimit 0) ⟨p, [2]⟩ := by
  obtain ⟨p, hp⟩ : ∃ p, Program.ofStore .looped 2 = .ok p := ⟨_, rfl⟩
  have hevents := run_iff_events "look"
    [⟨[.sourceFile, .literal .string], fun i => throw (.missingNode i)⟩,
      ⟨[.sourceFile], fun i => WalkM.modifyState (· ++ [i])⟩]
    (List.forall_mem_cons.mpr ⟨fun i w => rfl, List.forall_mem_singleton.mpr fun i w => rfl⟩) p []
  refine ⟨p, hp, ((hevents.2 (.depthLimit 0) ⟨p, [2]⟩).mp ?_).2⟩
  cases hp
  rfl

end Run
end Settle
