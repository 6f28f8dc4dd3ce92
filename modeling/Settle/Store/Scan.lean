import Settle.Graph
import Settle.Store.Basic

/-! Scans: what a subtree contains.

Two questions are asked of a subtree before it is changed. Which suspension
points belong to it (`awaits`, `asyncTries`)? Those below a nested function belong
to that function, so the scan does not enter one, unless it starts there. And does
it read `arguments` (`mentionsArguments`)? Functions other than arrows bind
`arguments` anew, so there the scan stops even at the start, and the property
side of an access names no variable.

Suspension points are listed in source order; one that can be reached in several
ways is listed as often. No scan follows a chain of more nodes than the store has:
a longer one would pass some node twice. -/
namespace Settle.Store

/-! ### Suspension points -/

/-- The children that belong to the function a scan started in. -/
def ownedFrom (s : Store) (start i : NodeId) : List NodeId :=
  if i ≠ start ∧ (s.kind? i).any Kind.isFunction then [] else s.children i

/-- The nodes with a property that belong to the subtree at `start`, in source order. -/
def owned (s : Store) (start : NodeId) (select : NodeId → Bool) : List NodeId :=
  (Graph.sweep (s.ownedFrom start) [(s.size, start)]).filter select

/-- The `await e` that belong to a subtree. -/
def awaits (s : Store) (start : NodeId) : List NodeId :=
  s.owned start fun i => s.kind? i == some (.suspension .await)

/-- The `try await e` that belong to a subtree. -/
def asyncTries (s : Store) (start : NodeId) : List NodeId :=
  s.owned start fun i =>
    match s.payload? i with
    | some (.tryExpression parts) => parts.isAsync && !parts.isGenerator
    | _ => false

/-- Marked `async`, and not a generator: the functions and try expressions that a pass takes up. -/
def isEligible (s : Store) (i : NodeId) : Bool :=
  match s.payload? i with
  | some (.function parts) => parts.isAsync && !parts.isGenerator
  | some (.tryExpression parts) => parts.isAsync && !parts.isGenerator
  | _ => false

/-! ### Use of `arguments` -/

/-- The children that may read a variable of the scope their parent stands in. -/
def readers (s : Store) (i : NodeId) : List NodeId :=
  match s.payload? i with
  | some (.access parts) => parts.object.toList
  | _ => s.children i

/-- Whether `arguments` is read at a node or below, down to a depth. Later siblings are looked at
first. -/
def mentionsArgumentsWithin (s : Store) : (depth : Nat) → NodeId → Bool
  | 0, _ => false
  | depth + 1, i =>
    !(s.kind? i).any Kind.bindsArguments &&
      (s.text? i == some "arguments" ||
        (s.readers i).reverse.any (mentionsArgumentsWithin s depth))

/-- Whether a subtree reads the `arguments` of the function around it. -/
def mentionsArguments (s : Store) (i : NodeId) : Bool :=
  s.mentionsArgumentsWithin s.size i

end Settle.Store
