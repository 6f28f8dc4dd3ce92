import Settle.Store.Scan
import Settle.Walk

/-! Lowerings: how one function or try expression is made to route through a helper.

The standard lowering turns `async function f(a) { … await e … }` into

    function f(a) { return helper(function* () { … yield e … }).apply(this, arguments); }

The body moves into a generator, its own suspension points become `yield`, and
`this` and `arguments` are handed on to it. An arrow has no `arguments` of its own:
if its body does not read those around it, `.call(this)` is enough. A body that
is an expression first becomes a block that returns it.

A try expression `try await e` becomes `await helper(e)`.

A lowering is a parameter of the pass. `Lowering.dryRun` changes nothing and lists
what it was given. -/
namespace Settle

/-- What is done to an eligible node, given a reference to the helper it should call. -/
abbrev Lowering (σ : Type) := (node : NodeId) → (helper : Ref) → WalkM σ Unit

namespace Edit
variable [Placing]

/-! ### Functions -/

/-- A function body as a block. -/
def blockOf (body : Ref) : Edit NodeId := do
  let s ← get
  match body with
  | none => makeBlock []
  | some i =>
    match s.kind? i with
    | none => makeBlock []
    | some .block => return i
    | some _ =>
      let result ← makeReturn body
      makeBlock [some result]

/-- Makes `await e` a `yield e`. -/
def yieldAwait (i : NodeId) : Edit Unit := do
  if let some (.suspension parts) := (← get).payload? i then
    let _ ← becomeSuspension i (.suspension .yield) ⟨parts.operand, false⟩

/-- Makes `try await e` a `try yield e`. -/
def yieldTry (i : NodeId) : Edit Unit := do
  let _ ← revise i fun
    | .tryExpression parts =>
      some (.tryExpression {parts with isAsync := false, isGenerator := true})
    | _ => none

/-- Makes the suspension points that belong to a body pause a generator. -/
def suspendByYield (body : NodeId) : Edit Unit := do
  ((← get).awaits body).forM yieldAwait
  ((← get).asyncTries body).forM yieldTry

/-- A block that returns the call of a generator through a helper, on the `this` of the function
around it and, where asked, its `arguments`. -/
def makeTrampoline (helper : Ref) (body : NodeId) (forwards : Bool) : Edit NodeId := do
  let generator ← make (.function .expression) (.function ⟨none, [], some body, false, true⟩)
  let wrapped ← makeCall helper [some generator]
  let receiver ← addToken .thisKeyword 0 .zero
  let passed ← if forwards then do
      let arguments ← makeIdentifier "arguments"
      pure [some receiver, some arguments]
    else
      pure [some receiver]
  let method ← makeIdentifier (if forwards then "apply" else "call")
  let callee ← make .access (.access ⟨some wrapped, some method⟩)
  let invoke ← makeCall (some callee) passed
  let result ← makeReturn (some invoke)
  makeBlock [some result]

/-- Makes a function a plain one whose body runs as a generator. -/
def lowerFunction (i : NodeId) (kind : FunctionKind) (body helper : Ref) : Edit Unit := do
  let s ← get
  let forwards := kind ≠ .arrow || body.any s.mentionsArguments
  let block ← blockOf body
  suspendByYield block
  let trampoline ← makeTrampoline helper block forwards
  let _ ← setBody i (some trampoline)
  let _ ← revise i fun
    | .function parts => some (.function {parts with isAsync := false})
    | _ => none

/-! ### Try expressions -/

/-- Makes a try expression await its operand through a helper. -/
def lowerTry (i : NodeId) (operand helper : Ref) : Edit Unit := do
  let wrapped ← makeCall helper [operand]
  let _ ← becomeSuspension i (.suspension .await) ⟨some wrapped, false⟩

end Edit

/-- Routes a function or try expression through a helper. -/
def ProgramM.lower [Placing] (i : NodeId) (helper : Ref) : ProgramM Unit := do
  let s := (← get).store
  match s.kind? i, s.payload? i with
  | some (.function kind), some (.function parts) =>
    edit (Edit.lowerFunction i kind parts.body helper)
  | some .tryExpression, some (.tryExpression parts) => edit (Edit.lowerTry i parts.operand helper)
  | some (.function _), _ | some .tryExpression, _ | none, _ => throw (.missingNode i)
  | some kind, _ => throw (.unexpectedKind kind)

namespace Lowering
variable {σ : Type}

def standard : Lowering σ := fun i helper => WalkM.onProgram (ProgramM.lower i helper)

/-- Lists the nodes it is given, with their helpers, the last one last. -/
def dryRun : Lowering (List (NodeId × Ref)) := fun i helper =>
  WalkM.modifyState (· ++ [(i, helper)])

end Lowering
end Settle
