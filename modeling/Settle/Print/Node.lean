import Settle.Print.Piece
import Settle.Program.Basic
import Settle.Text.Quoted

/-! Printing a tree as code.

`Layout.payload` says how a node is laid out once its children are: it is given a
function that lays out the child in a slot at a level. `Store.pieces` supplies
that function from the tree itself. What does not exist or carries no payload
leaves no trace, but the marks around its slot stay. A source file is printed by
its statements only (`Program.print`), so as a node it leaves none either. -/
namespace Settle

namespace Layout

/-- The flags of a variable statement that say how it is declared. -/
def letFlag : UInt32 := 1

def constFlag : UInt32 := 2

/-- `const` goes before `let`. -/
def declarationWord (flags : UInt32) : String :=
  if flags &&& constFlag ≠ 0 then "const "
  else if flags &&& letFlag ≠ 0 then "let "
  else "var "

section
variable (slot : (level : Nat) → Ref → List Piece) (level : Nat)

/-- The children of a list of slots, with commas between them. -/
def list (slots : List Ref) : List Piece :=
  Piece.commaSeparated (slots.map (slot level))

/-- A slot that is left out together with the mark before it. -/
def optional (mark : String) : Ref → List Piece
  | none => []
  | some i => .mark mark :: slot level (some i)

/-- A block opens on the line it stands in, and each statement has a line one level further in. -/
def block : List Ref → List Piece
  | [] => [.mark "\x7b \x7d"]
  | statements =>
    .mark "\x7b" :: statements.flatMap (fun i => .line (level + 1) :: slot (level + 1) i) ++
      [.line level, .mark "\x7d"]

def asyncWord (isAsync : Bool) : List Piece := if isAsync then [.mark "async "] else []

/-- What stands before a function's name. A declaration without a name has no blank there. -/
def functionWord (kind : FunctionKind) (parts : FunctionParts Ref) : List Piece :=
  match kind with
  | .method => if parts.isGenerator then [.mark "*"] else []
  | _ =>
    .mark (if parts.isGenerator then "function*" else "function") ::
      if parts.name.isSome || kind = .expression then [.mark " "] else []

def function (kind : FunctionKind) (parts : FunctionParts Ref) : List Piece :=
  asyncWord parts.isAsync ++ functionWord kind parts ++ slot level parts.name ++ [.mark "("] ++
    list slot level parts.parameters ++ [.mark ") "] ++ slot level parts.body

/-- An arrow function has no name to print. A body that is an object goes into brackets, so that it
does not read as a block. -/
def arrow (bodyIsObject : Bool) (parts : FunctionParts Ref) : List Piece :=
  asyncWord parts.isAsync ++ [.mark "("] ++ list slot level parts.parameters ++ [.mark ") => "] ++
    if bodyIsObject then [.mark "("] ++ slot level parts.body ++ [.mark ")"]
    else slot level parts.body

def suspension (kind : SuspensionKind) (parts : SuspensionParts Ref) : List Piece :=
  match kind with
  | .await => .mark "await " :: slot level parts.operand
  | .yield =>
    .mark (if parts.delegates then "yield*" else "yield") :: optional slot level " " parts.operand

def tryWord (parts : TryParts Ref) : List Piece :=
  if parts.isAsync then [.mark "await "]
  else if parts.isGenerator then [.mark "yield "]
  else []

def collection (kind : CollectionKind) (elements : List Ref) : List Piece :=
  match kind with
  | .array => [.mark "["] ++ list slot level elements ++ [.mark "]"]
  | .object =>
    if elements.isEmpty then [.mark "\x7b\x7d"]
    else [.mark "\x7b "] ++ list slot level elements ++ [.mark " \x7d"]

/-- How a node with a payload is laid out. -/
def payload (isObject : Ref → Bool) (header : Header) : Payload Ref → List Piece
  | .identifier text => [.leaf text]
  | .literal text => [.leaf (if header.kind = .literal .string then Text.quote text else text)]
  | .sourceFile _ => []
  | .function parts =>
    match header.kind with
    | .function .arrow => arrow slot level (isObject parts.body) parts
    | .function kind => function slot level kind parts
    | _ => []
  | .block statements => block slot level statements
  | .call parts =>
    slot level parts.callee ++ [.mark "("] ++ list slot level parts.arguments ++ [.mark ")"]
  | .access parts => slot level parts.object ++ [.mark "."] ++ slot level parts.property
  | .suspension parts =>
    match header.kind with
    | .suspension kind => suspension slot level kind parts
    | _ => []
  | .tryExpression parts => .mark "try " :: tryWord parts ++ slot level parts.operand
  | .returnStatement operand =>
    .mark "return" :: optional slot level " " operand ++ [.mark ";"]
  | .expressionStatement expression => slot level expression ++ [.mark ";"]
  | .variableStatement declarators =>
    .mark (declarationWord header.flags) :: list slot level declarators ++ [.mark ";"]
  | .declarator parts => slot level parts.name ++ optional slot level " = " parts.initializer
  | .importDeclaration parts =>
    [.mark "import \x7b "] ++ list slot level parts.specifiers ++ [.mark " \x7d from "] ++
      slot level parts.source ++ [.mark ";"]
  | .importSpecifier parts =>
    (if parts.exported.isSome then slot level parts.exported ++ [.mark " as "] else []) ++
      slot level parts.name
  | .collection elements =>
    match header.kind with
    | .collection kind => collection slot level kind elements
    | _ => []

end
end Layout

namespace Store

/-- The layout of a node and what is below it, down to a depth. -/
def piecesWithin (s : Store) : (depth level : Nat) → NodeId → List Piece
  | 0, _, _ => []
  | depth + 1, level, i =>
    match s.header? i with
    | none => []
    | some header =>
      match header.kind, s.payload? i with
      | .thisKeyword, _ => [.leaf "this"]
      | _, none => []
      | _, some payload =>
        Layout.payload
          (fun level slot =>
            match slot with
            | none => []
            | some child => s.piecesWithin depth level child)
          level (fun slot => slot.bind s.kind? == some (.collection .object)) header payload

/-- The layout of a node at a level. No chain of nodes in a tree is longer than the store. -/
def pieces (s : Store) (level : Nat) (i : NodeId) : List Piece := s.piecesWithin s.size level i

/-- A node as code. -/
def print (s : Store) (i : NodeId) : String := Piece.render (s.pieces 0 i)

end Store

/-- A program as code: the helpers in use, then the statements, each ending its line. -/
def Program.print (program : Program) : String :=
  let helpers := program.helpers.flatMap fun (helper, localName) => helper.declaration localName
  let statements := program.statements.map fun slot =>
    match slot with
    | none => ""
    | some i => program.store.print i
  String.join ((helpers ++ statements).map (· ++ "\n"))

end Settle
