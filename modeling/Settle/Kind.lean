/-! Node kinds.

A kind says what a node of a syntax tree is. A host writes it as a 16-bit code.
The codes of the language are spelled out here, related ones grouped under one
constructor (the four functions, the two suspensions, …); any other code is kept
as it came, so reading a code and writing it back loses nothing
(`Kind.code_ofCode`).

A kind also decides which form of payload a node carries, if any (`Kind.form?`):
that choice is what makes a tree readable, since the payloads of each form live
in a pool of their own. -/
namespace Settle

/-- The ways to write a function. -/
inductive FunctionKind where
  | declaration
  | expression
  | arrow
  | method
  deriving DecidableEq, Repr

inductive LiteralKind where
  | string
  | numeric
  deriving DecidableEq, Repr

/-- The expressions at which a function pauses. -/
inductive SuspensionKind where
  | await
  | yield
  deriving DecidableEq, Repr

inductive CollectionKind where
  | object
  | array
  deriving DecidableEq, Repr

/-- What a node is. -/
inductive Kind where
  | identifier
  | literal (of : LiteralKind)
  | thisKeyword
  | sourceFile
  | function (of : FunctionKind)
  | variableStatement
  | declarator
  | importDeclaration
  | importSpecifier
  | block
  | expressionStatement
  | returnStatement
  | call
  | access
  | suspension (of : SuspensionKind)
  | tryExpression
  | collection (of : CollectionKind)
  /-- A code that names none of the above. -/
  | other (code : UInt16)
  deriving DecidableEq, Repr

/-- The forms of payload, one pool for each. -/
inductive Form where
  | identifier
  | literal
  | sourceFile
  | function
  | block
  | call
  | access
  | suspension
  | tryExpression
  | returnStatement
  | expressionStatement
  | variableStatement
  | declarator
  | importDeclaration
  | importSpecifier
  | collection
  deriving DecidableEq, Repr

namespace Kind

def ofCode (code : UInt16) : Kind :=
  match code.toNat with
  | 1 => identifier
  | 2 => literal .string
  | 3 => literal .numeric
  | 4 => thisKeyword
  | 10 => sourceFile
  | 20 => function .declaration
  | 21 => variableStatement
  | 22 => declarator
  | 23 => importDeclaration
  | 24 => importSpecifier
  | 25 => function .method
  | 40 => block
  | 41 => expressionStatement
  | 42 => returnStatement
  | 60 => function .expression
  | 61 => function .arrow
  | 62 => call
  | 63 => access
  | 64 => suspension .await
  | 65 => suspension .yield
  | 66 => tryExpression
  | 67 => collection .object
  | 68 => collection .array
  | _ => other code

def code : Kind → UInt16
  | identifier => 1
  | literal .string => 2
  | literal .numeric => 3
  | thisKeyword => 4
  | sourceFile => 10
  | function .declaration => 20
  | variableStatement => 21
  | declarator => 22
  | importDeclaration => 23
  | importSpecifier => 24
  | function .method => 25
  | block => 40
  | expressionStatement => 41
  | returnStatement => 42
  | function .expression => 60
  | function .arrow => 61
  | call => 62
  | access => 63
  | suspension .await => 64
  | suspension .yield => 65
  | tryExpression => 66
  | collection .object => 67
  | collection .array => 68
  | other code => code

/-- Reading a code and writing it back loses nothing. -/
@[simp]
theorem code_ofCode (c : UInt16) : (ofCode c).code = c := by
  unfold ofCode
  split
  case h_24 => rfl
  all_goals exact (UInt16.toNat_inj.mp ‹_›).symm

/-- The name a kind goes by in messages. -/
def name : Kind → String
  | identifier => "Identifier"
  | literal .string => "StringLiteral"
  | literal .numeric => "NumericLiteral"
  | thisKeyword => "ThisKeyword"
  | sourceFile => "SourceFile"
  | function .declaration => "FunctionDeclaration"
  | variableStatement => "VariableStatement"
  | declarator => "VariableDeclaration"
  | importDeclaration => "ImportDeclaration"
  | importSpecifier => "ImportSpecifier"
  | function .method => "MethodDeclaration"
  | block => "Block"
  | expressionStatement => "ExpressionStatement"
  | returnStatement => "ReturnStatement"
  | function .expression => "FunctionExpression"
  | function .arrow => "ArrowFunction"
  | call => "CallExpression"
  | access => "PropertyAccessExpression"
  | suspension .await => "AwaitExpression"
  | suspension .yield => "YieldExpression"
  | tryExpression => "TryExpression"
  | collection .object => "ObjectLiteralExpression"
  | collection .array => "ArrayLiteralExpression"
  | other _ => "Unknown"

/-- The four kinds of function, which own the suspension points in their bodies. -/
def isFunction : Kind → Bool
  | function _ => true
  | _ => false

/-- The functions that bind `this` and `arguments` anew: all but arrows. -/
def bindsArguments : Kind → Bool
  | function .arrow => false
  | function _ => true
  | _ => false

/-- The form of payload that nodes of a kind carry. -/
def form? : Kind → Option Form
  | identifier => some .identifier
  | literal _ => some .literal
  | thisKeyword => none
  | sourceFile => some .sourceFile
  | function _ => some .function
  | variableStatement => some .variableStatement
  | declarator => some .declarator
  | importDeclaration => some .importDeclaration
  | importSpecifier => some .importSpecifier
  | block => some .block
  | expressionStatement => some .expressionStatement
  | returnStatement => some .returnStatement
  | call => some .call
  | access => some .access
  | suspension _ => some .suspension
  | tryExpression => some .tryExpression
  | collection _ => some .collection
  | other _ => none

end Kind
end Settle
