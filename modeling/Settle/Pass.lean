import Settle.Config.Options
import Settle.Lowering

/-! The pass that turns failures into values.

It is declared for a host of one version of its interface and for the strategy
that the options select. Where whole functions are lowered, the wrapper is
imported when the first eligible function is met, and every later function gets a
copy of that reference; a walk over a program without eligible functions adds
nothing to it. Where try expressions are lowered, each gets a reference to the
same helper. -/
namespace Settle

/-- The version of the host's interface that a pass is written for. -/
def requiredVersion : UInt32 := 7

/-- Whether a host of one version can load what is written for another: only the same one. -/
def checkVersion (required actual : UInt32) : Except Fault Unit :=
  if actual = required then .ok () else .error (.incompatibleHost required actual)

/-- What a pass remembers during a walk, beside the state of its lowering. -/
structure Memo (σ : Type) where
  /-- The reference to the imported wrapper. -/
  wrapper : Ref := none
  inner : σ

namespace Pass
variable {σ : Type}

/-- Hands an eligible node to the lowering, which sees its own state only. -/
def handOver (lowering : Lowering σ) (i helper : NodeId) : WalkM (Memo σ) Unit :=
  WalkM.zoom Memo.inner (fun memo inner => {memo with inner}) (lowering i (some helper))

/-- A reference to the imported wrapper; the first one comes with the import. -/
def wrapperReference (method source : String) : WalkM (Memo σ) NodeId := do
  match (← WalkM.state).wrapper with
  | some cached => WalkM.onProgram (ProgramM.copyReference cached)
  | none =>
    let reference ← WalkM.onProgram (ProgramM.importNamed method source)
    WalkM.modifyState fun memo => {memo with wrapper := some reference}
    return reference

def visitFunction (lowering : Lowering σ) (method source : String) : Visitor (Memo σ) := fun i => do
  if (← WalkM.store).isEligible i then
    handOver lowering i (← wrapperReference method source)

def visitTry (lowering : Lowering σ) : Visitor (Memo σ) := fun i => do
  if (← WalkM.store).isEligible i then
    handOver lowering i (← WalkM.onProgram (ProgramM.useHelper Helper.tryAwait.name))

def ofStrategy (strategy : Strategy) (lowering : Lowering σ) : Pass (Memo σ) :=
  let visitor :=
    match strategy with
    | .wholeFunction method source => visitFunction lowering method source
    | .localExpression => visitTry lowering
  Pass.register {name := "transform-try-await"} strategy.kinds visitor

/-- The pass for a host, its options and a lowering. -/
def declare (version : UInt32) (options : Options) (lowering : Lowering σ) :
    Except Fault (Pass (Memo σ)) := do
  checkVersion requiredVersion version
  return ofStrategy options.strategy lowering

end Pass

/-- Lowers a whole program the standard way; answers with the reference to the wrapper that it had
to import, if any. -/
def ProgramM.settle (options : Options) : ProgramM Ref := do
  match Pass.declare requiredVersion options (Lowering.standard : Lowering Unit) with
  | .error fault => throw fault
  | .ok pass => return (← pass.perform {inner := ()}).wrapper

end Settle
