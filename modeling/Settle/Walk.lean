import Settle.Program.Basic

/-! Walks: visitors carried over a program, depth first.

A pass registers visitors by node kind; where a kind is registered twice, the later
registration wins. A walk goes over the tree from the root, each node before its
children. A node's children are read after its visitor has run, so what a visitor
makes is walked over too, and what it cuts off is not.

A walk follows `depthLimit` nodes one below the other and no further. A reference
at that depth stops the whole walk with a fault, whether or not its node exists:
a tree is walked whole or the walk says where it gave up. -/
namespace Settle

/-- A program under way, with the state that the visitors share. -/
structure Walk (σ : Type) where
  program : Program
  state : σ

/-- Operations during a walk. One that stops with a fault keeps what it has changed. -/
abbrev WalkM (σ : Type) := EStateM Fault (Walk σ)

namespace WalkM
variable {σ τ α : Type}

/-- Does to the state of a result what `f` says. -/
def mapState (f : σ → τ) : EStateM.Result Fault σ α → EStateM.Result Fault τ α
  | .ok result s => .ok result (f s)
  | .error fault s => .error fault (f s)

/-- An operation on the program alone. -/
def onProgram (operation : ProgramM α) : WalkM σ α := fun walk =>
  mapState (fun program => {walk with program}) (operation walk.program)

/-- An operation that sees only a part of the state. -/
def zoom (part : σ → τ) (update : σ → τ → σ) (operation : WalkM τ α) : WalkM σ α := fun walk =>
  mapState (fun inner => ⟨inner.program, update walk.state inner.state⟩)
    (operation ⟨walk.program, part walk.state⟩)

def store : WalkM σ Store := return (← get).program.store

def state : WalkM σ σ := return (← get).state

def modifyState (f : σ → σ) : WalkM σ Unit :=
  modify fun walk => {walk with state := f walk.state}

end WalkM

/-- What is done at a node. -/
abbrev Visitor (σ : Type) := NodeId → WalkM σ Unit

/-- A named set of visitors. -/
structure Pass (σ : Type) where
  name : String
  /-- The latest registration first. -/
  visitors : List (Kind × Visitor σ) := []

/-- How many nodes a walk follows one below the other. -/
def depthLimit : Nat := 500

namespace Pass
variable {σ : Type}

/-- Registers a visitor for some kinds. -/
def register (pass : Pass σ) (kinds : List Kind) (visitor : Visitor σ) : Pass σ :=
  {pass with visitors := kinds.map (·, visitor) ++ pass.visitors}

def visitor? (pass : Pass σ) (kind : Kind) : Option (Visitor σ) := pass.visitors.lookup kind

def visits (pass : Pass σ) (kind : Kind) : Bool := (pass.visitor? kind).isSome

/-- The registered kinds by ascending code, each once. -/
def kinds (pass : Pass σ) : List Kind :=
  (pass.visitors.map Prod.fst).eraseDups.mergeSort (·.code ≤ ·.code)

/-- Walks over a node and what is below it, to a depth. -/
def visit (pass : Pass σ) : (depth : Nat) → NodeId → WalkM σ Unit
  | 0, i => throw (.depthLimit i)
  | depth + 1, i => do
    match (← WalkM.store).kind? i with
    | none => return
    | some kind =>
      if let some visitor := pass.visitor? kind then
        visitor i
      ((← WalkM.store).children i).forM (pass.visit depth)

/-- Walks over a whole program. -/
def run (pass : Pass σ) (program : Program) (state : σ) : EStateM.Result Fault (Walk σ) Unit :=
  pass.visit depthLimit program.root ⟨program, state⟩

/-- The walk as an operation on the program, which answers with the final state. -/
def perform (pass : Pass σ) (state : σ) : ProgramM σ := fun program =>
  match pass.run program state with
  | .ok _ walk => .ok walk.state walk.program
  | .error fault walk => .error fault walk.program

end Pass
end Settle
