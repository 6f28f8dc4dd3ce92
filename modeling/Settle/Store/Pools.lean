import Settle.Payload

/-! Pools: payloads kept apart by form.

Each form of payload has an array of its own, so a payload is found by its form
and its place in that form's array. Adding a payload puts it at the end of its
array (`get?_add`), writing one changes that one place (`get?_set`), and no
look-up ever answers with a payload of another form (`form_of_get?`). -/
namespace Settle

structure Pools where
  identifiers : Array String := #[]
  literals : Array String := #[]
  sourceFiles : Array (FileParts Ref) := #[]
  functions : Array (FunctionParts Ref) := #[]
  blocks : Array (List Ref) := #[]
  calls : Array (CallParts Ref) := #[]
  accesses : Array (AccessParts Ref) := #[]
  suspensions : Array (SuspensionParts Ref) := #[]
  tryExpressions : Array (TryParts Ref) := #[]
  returnStatements : Array Ref := #[]
  expressionStatements : Array Ref := #[]
  variableStatements : Array (List Ref) := #[]
  declarators : Array (DeclaratorParts Ref) := #[]
  importDeclarations : Array (ImportParts Ref) := #[]
  importSpecifiers : Array (SpecifierParts Ref) := #[]
  collections : Array (List Ref) := #[]
  deriving DecidableEq, Repr

namespace Pools

def size (pools : Pools) : Form → Nat
  | .identifier => pools.identifiers.size
  | .literal => pools.literals.size
  | .sourceFile => pools.sourceFiles.size
  | .function => pools.functions.size
  | .block => pools.blocks.size
  | .call => pools.calls.size
  | .access => pools.accesses.size
  | .suspension => pools.suspensions.size
  | .tryExpression => pools.tryExpressions.size
  | .returnStatement => pools.returnStatements.size
  | .expressionStatement => pools.expressionStatements.size
  | .variableStatement => pools.variableStatements.size
  | .declarator => pools.declarators.size
  | .importDeclaration => pools.importDeclarations.size
  | .importSpecifier => pools.importSpecifiers.size
  | .collection => pools.collections.size

/-- The payload of a form at a place. -/
def get? (pools : Pools) : Form → Nat → Option (Payload Ref)
  | .identifier, k => pools.identifiers[k]?.map .identifier
  | .literal, k => pools.literals[k]?.map .literal
  | .sourceFile, k => pools.sourceFiles[k]?.map .sourceFile
  | .function, k => pools.functions[k]?.map .function
  | .block, k => pools.blocks[k]?.map .block
  | .call, k => pools.calls[k]?.map .call
  | .access, k => pools.accesses[k]?.map .access
  | .suspension, k => pools.suspensions[k]?.map .suspension
  | .tryExpression, k => pools.tryExpressions[k]?.map .tryExpression
  | .returnStatement, k => pools.returnStatements[k]?.map .returnStatement
  | .expressionStatement, k => pools.expressionStatements[k]?.map .expressionStatement
  | .variableStatement, k => pools.variableStatements[k]?.map .variableStatement
  | .declarator, k => pools.declarators[k]?.map .declarator
  | .importDeclaration, k => pools.importDeclarations[k]?.map .importDeclaration
  | .importSpecifier, k => pools.importSpecifiers[k]?.map .importSpecifier
  | .collection, k => pools.collections[k]?.map .collection

/-- Puts a payload at the end of its form's array. -/
def add (pools : Pools) : Payload Ref → Pools
  | .identifier text => {pools with identifiers := pools.identifiers.push text}
  | .literal text => {pools with literals := pools.literals.push text}
  | .sourceFile parts => {pools with sourceFiles := pools.sourceFiles.push parts}
  | .function parts => {pools with functions := pools.functions.push parts}
  | .block statements => {pools with blocks := pools.blocks.push statements}
  | .call parts => {pools with calls := pools.calls.push parts}
  | .access parts => {pools with accesses := pools.accesses.push parts}
  | .suspension parts => {pools with suspensions := pools.suspensions.push parts}
  | .tryExpression parts => {pools with tryExpressions := pools.tryExpressions.push parts}
  | .returnStatement operand =>
    {pools with returnStatements := pools.returnStatements.push operand}
  | .expressionStatement expression =>
    {pools with expressionStatements := pools.expressionStatements.push expression}
  | .variableStatement declarators =>
    {pools with variableStatements := pools.variableStatements.push declarators}
  | .declarator parts => {pools with declarators := pools.declarators.push parts}
  | .importDeclaration parts =>
    {pools with importDeclarations := pools.importDeclarations.push parts}
  | .importSpecifier parts => {pools with importSpecifiers := pools.importSpecifiers.push parts}
  | .collection elements => {pools with collections := pools.collections.push elements}

/-- Writes a payload over the one at a place of its form's array, if there is one. -/
def set (pools : Pools) (k : Nat) : Payload Ref → Pools
  | .identifier text => {pools with identifiers := pools.identifiers.setIfInBounds k text}
  | .literal text => {pools with literals := pools.literals.setIfInBounds k text}
  | .sourceFile parts => {pools with sourceFiles := pools.sourceFiles.setIfInBounds k parts}
  | .function parts => {pools with functions := pools.functions.setIfInBounds k parts}
  | .block statements => {pools with blocks := pools.blocks.setIfInBounds k statements}
  | .call parts => {pools with calls := pools.calls.setIfInBounds k parts}
  | .access parts => {pools with accesses := pools.accesses.setIfInBounds k parts}
  | .suspension parts => {pools with suspensions := pools.suspensions.setIfInBounds k parts}
  | .tryExpression parts =>
    {pools with tryExpressions := pools.tryExpressions.setIfInBounds k parts}
  | .returnStatement operand =>
    {pools with returnStatements := pools.returnStatements.setIfInBounds k operand}
  | .expressionStatement expression =>
    {pools with expressionStatements := pools.expressionStatements.setIfInBounds k expression}
  | .variableStatement declarators =>
    {pools with variableStatements := pools.variableStatements.setIfInBounds k declarators}
  | .declarator parts => {pools with declarators := pools.declarators.setIfInBounds k parts}
  | .importDeclaration parts =>
    {pools with importDeclarations := pools.importDeclarations.setIfInBounds k parts}
  | .importSpecifier parts =>
    {pools with importSpecifiers := pools.importSpecifiers.setIfInBounds k parts}
  | .collection elements => {pools with collections := pools.collections.setIfInBounds k elements}

/-! ### What the look-up sees -/

theorem form_of_get? {pools : Pools} {form : Form} {k : Nat} {payload : Payload Ref}
    (h : pools.get? form k = some payload) : payload.form = form := by
  cases form <;> obtain ⟨_, _, rfl⟩ := Option.map_eq_some_iff.mp h <;> rfl

theorem get?_isSome_iff {pools : Pools} {form : Form} {k : Nat} :
    (pools.get? form k).isSome ↔ k < pools.size form := by
  cases form <;> simp [get?, size]

@[simp]
theorem size_add (pools : Pools) (payload : Payload Ref) (form : Form) :
    (pools.add payload).size form = pools.size form + if payload.form = form then 1 else 0 := by
  cases payload <;> cases form <;> simp [add, size, Payload.form]

@[simp]
theorem size_set (pools : Pools) (k : Nat) (payload : Payload Ref) (form : Form) :
    (pools.set k payload).size form = pools.size form := by
  cases payload <;> cases form <;> simp [set, size]

theorem get?_add (pools : Pools) (payload : Payload Ref) (form : Form) (k : Nat) :
    (pools.add payload).get? form k =
      if payload.form = form ∧ k = pools.size form then some payload else pools.get? form k := by
  cases payload <;> cases form <;>
    simp [add, get?, size, Payload.form, Array.getElem?_push]
  all_goals grind

theorem get?_set (pools : Pools) (j : Nat) (payload : Payload Ref) (form : Form) (k : Nat) :
    (pools.set j payload).get? form k =
      if payload.form = form ∧ k = j ∧ j < pools.size form then some payload
      else pools.get? form k := by
  cases payload <;> cases form <;>
    simp [set, get?, size, Payload.form, Array.getElem?_setIfInBounds]
  all_goals grind

end Pools
end Settle
