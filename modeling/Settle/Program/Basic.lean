import Settle.Fault
import Settle.Program.Helper
import Settle.Program.Names
import Settle.Store.Copy
import Settle.Store.Edit

/-! Programs: the tree of one file, with what was added to it.

A program is a store with a source file as its root, the helpers it has asked for
and the names it may no longer make up. References to code outside the file come
in two ways: `importNamed` puts an import after the imports the file begins with,
a new one each time, and `useHelper` registers a helper once and then answers
with references to it. Both make up a local name, which stays taken even if there
is no place for an import. -/
namespace Settle

structure Program where
  fileName : String
  store : Store
  root : NodeId
  /-- Helpers in use, each with its local name, in the order they were asked for. -/
  helpers : List (Helper × String)
  names : Names
  deriving DecidableEq, Repr

/-- Operations on a program. One that stops with a fault keeps what it has changed. -/
abbrev ProgramM := EStateM Fault Program

namespace Program

/-- The program in a store whose root is the given node, which must be a source file. -/
def ofStore (store : Store) (root : NodeId) : Except Fault Program :=
  match store.payload? root with
  | some (.sourceFile parts) =>
    .ok {
      fileName := parts.fileName
      store
      root
      helpers := []
      names := {inFile := store.identifierTexts} }
  | _ => .error .missingRoot

def statements (program : Program) : List Ref :=
  match program.store.payload? program.root with
  | some (.sourceFile parts) => parts.statements
  | _ => []

def isImport (program : Program) (statement : Ref) : Bool :=
  statement.bind program.store.kind? == some .importDeclaration

/-- How many imports the file begins with. -/
def leadingImports (program : Program) : Nat :=
  (program.statements.takeWhile program.isImport).length

/-- The local name of a helper in use. -/
def localName? (program : Program) (helper : String) : Option String :=
  (program.helpers.find? (·.1.name == helper)).map Prod.snd

end Program

namespace ProgramM

/-- An operation on the store. -/
def edit {α : Type} (operation : Edit α) : ProgramM α :=
  modifyGet fun program =>
    let (result, store) := operation program.store
    (result, {program with store})

/-- A name made up from a base. -/
def freshName (base : String) : ProgramM String :=
  modifyGet fun program =>
    let (name, names) := program.names.fresh base
    (name, {program with names})

/-- Imports an export under a fresh local name; answers with a reference to it. -/
def importNamed [Placing] (exported source : String) : ProgramM NodeId := do
  let localName ← freshName exported
  let statement ← edit do
    let outer ← Edit.makeIdentifier exported
    let inner ← Edit.makeIdentifier localName
    let specifier ← Edit.make .importSpecifier (.importSpecifier ⟨some outer, some inner⟩)
    let source ← Edit.make (.literal .string) (.literal source)
    Edit.make .importDeclaration (.importDeclaration ⟨[some specifier], some source⟩)
  let program ← get
  if ← edit (Edit.insertStatement program.root program.leadingImports (some statement)) then
    edit (Edit.makeIdentifier localName)
  else
    throw .missingRoot

/-- A reference to a helper, which is registered on first use. -/
def useHelper [Placing] (name : String) : ProgramM NodeId := do
  match (← get).localName? name with
  | some localName => edit (Edit.makeIdentifier localName)
  | none =>
    match Helper.named? name with
    | none => throw (.unknownHelper name)
    | some helper =>
      let localName ← freshName helper.name
      modify fun program => {program with helpers := program.helpers ++ [(helper, localName)]}
      edit (Edit.makeIdentifier localName)

/-- A deep copy of a reference, to stand in another place. -/
def copyReference [Placing] (reference : NodeId) : ProgramM NodeId := do
  match ← edit (Edit.copy reference) with
  | some copied => return copied
  | none => throw (.missingNode reference)

end ProgramM
end Settle
