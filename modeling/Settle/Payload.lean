import Settle.Kind

/-! Payloads: what a node holds besides its header.

A payload has one of sixteen forms. It is written over the type `ρ` of its
slots, the places where a child stands: in a store a slot holds a reference
(`Ref`), possibly to no node. `Payload.slots` lists the slots in source order,
and `Payload.mapSlotsM` fills them anew in that same order; every operation that
follows children, from copying to printing, goes by this one order. -/
namespace Settle

/-- Nodes are numbered in the order they are made. -/
abbrev NodeId := Nat

/-- What stands in a slot: a node, or none. The node need not exist. -/
abbrev Ref := Option NodeId

/-! ### Parts -/

structure FileParts (ρ : Type) where
  fileName : String
  statements : List ρ
  deriving DecidableEq, Repr

structure FunctionParts (ρ : Type) where
  name : ρ
  parameters : List ρ
  body : ρ
  isAsync : Bool
  isGenerator : Bool
  deriving DecidableEq, Repr

structure CallParts (ρ : Type) where
  callee : ρ
  arguments : List ρ
  deriving DecidableEq, Repr

structure AccessParts (ρ : Type) where
  object : ρ
  property : ρ
  deriving DecidableEq, Repr

structure SuspensionParts (ρ : Type) where
  operand : ρ
  /-- Hands over to another generator, as in `yield* e`. -/
  delegates : Bool
  deriving DecidableEq, Repr

structure TryParts (ρ : Type) where
  operand : ρ
  /-- Written `try await e`. -/
  isAsync : Bool
  /-- Written `try yield e`. -/
  isGenerator : Bool
  deriving DecidableEq, Repr

structure DeclaratorParts (ρ : Type) where
  name : ρ
  initializer : ρ
  deriving DecidableEq, Repr

structure ImportParts (ρ : Type) where
  specifiers : List ρ
  source : ρ
  deriving DecidableEq, Repr

structure SpecifierParts (ρ : Type) where
  /-- The name on the exporting side, where it differs. -/
  exported : ρ
  name : ρ
  deriving DecidableEq, Repr

/-! ### Payloads -/

inductive Payload (ρ : Type) where
  | identifier (text : String)
  | literal (text : String)
  | sourceFile (parts : FileParts ρ)
  | function (parts : FunctionParts ρ)
  | block (statements : List ρ)
  | call (parts : CallParts ρ)
  | access (parts : AccessParts ρ)
  | suspension (parts : SuspensionParts ρ)
  | tryExpression (parts : TryParts ρ)
  | returnStatement (operand : ρ)
  | expressionStatement (expression : ρ)
  | variableStatement (declarators : List ρ)
  | declarator (parts : DeclaratorParts ρ)
  | importDeclaration (parts : ImportParts ρ)
  | importSpecifier (parts : SpecifierParts ρ)
  | collection (elements : List ρ)
  deriving DecidableEq, Repr

namespace Payload
variable {ρ : Type}

def form : Payload ρ → Form
  | identifier _ => .identifier
  | literal _ => .literal
  | sourceFile _ => .sourceFile
  | function _ => .function
  | block _ => .block
  | call _ => .call
  | access _ => .access
  | suspension _ => .suspension
  | tryExpression _ => .tryExpression
  | returnStatement _ => .returnStatement
  | expressionStatement _ => .expressionStatement
  | variableStatement _ => .variableStatement
  | declarator _ => .declarator
  | importDeclaration _ => .importDeclaration
  | importSpecifier _ => .importSpecifier
  | collection _ => .collection

/-- The slots in source order. -/
def slots : Payload ρ → List ρ
  | identifier _ => []
  | literal _ => []
  | sourceFile parts => parts.statements
  | function parts => parts.name :: parts.parameters ++ [parts.body]
  | block statements => statements
  | call parts => parts.callee :: parts.arguments
  | access parts => [parts.object, parts.property]
  | suspension parts => [parts.operand]
  | tryExpression parts => [parts.operand]
  | returnStatement operand => [operand]
  | expressionStatement expression => [expression]
  | variableStatement declarators => declarators
  | declarator parts => [parts.name, parts.initializer]
  | importDeclaration parts => parts.specifiers ++ [parts.source]
  | importSpecifier parts => [parts.exported, parts.name]
  | collection elements => elements

/-- Fills the slots anew, in source order. -/
def mapSlotsM {σ : Type} {m : Type → Type} [Monad m] (f : ρ → m σ) : Payload ρ → m (Payload σ)
  | identifier text => return identifier text
  | literal text => return literal text
  | sourceFile parts => return sourceFile ⟨parts.fileName, ← parts.statements.mapM f⟩
  | function parts => do
    let name ← f parts.name
    let parameters ← parts.parameters.mapM f
    let body ← f parts.body
    return function ⟨name, parameters, body, parts.isAsync, parts.isGenerator⟩
  | block statements => return block (← statements.mapM f)
  | call parts => do
    let callee ← f parts.callee
    let arguments ← parts.arguments.mapM f
    return call ⟨callee, arguments⟩
  | access parts => do
    let object ← f parts.object
    let property ← f parts.property
    return access ⟨object, property⟩
  | suspension parts => return suspension ⟨← f parts.operand, parts.delegates⟩
  | tryExpression parts => return tryExpression ⟨← f parts.operand, parts.isAsync, parts.isGenerator⟩
  | returnStatement operand => return returnStatement (← f operand)
  | expressionStatement expression => return expressionStatement (← f expression)
  | variableStatement declarators => return variableStatement (← declarators.mapM f)
  | declarator parts => do
    let name ← f parts.name
    let initializer ← f parts.initializer
    return declarator ⟨name, initializer⟩
  | importDeclaration parts => do
    let specifiers ← parts.specifiers.mapM f
    let source ← f parts.source
    return importDeclaration ⟨specifiers, source⟩
  | importSpecifier parts => do
    let exported ← f parts.exported
    let name ← f parts.name
    return importSpecifier ⟨exported, name⟩
  | collection elements => return collection (← elements.mapM f)

end Payload
end Settle
