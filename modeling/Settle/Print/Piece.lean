/-! Pieces of printed code.

Code is laid out as a list of pieces and turned into text at the end. A leaf is
what the tree supplies: a name, a literal, `this`. Marks are the fixed text around
the leaves, and a line break carries the level that the next line is indented
to. -/
namespace Settle

inductive Piece where
  | leaf (text : String)
  | mark (text : String)
  | line (level : Nat)
  deriving DecidableEq, Repr

namespace Piece

/-- Four blanks to a level. -/
def indent (level : Nat) : String := String.ofList (List.replicate (4 * level) ' ')

def text : Piece → String
  | leaf text => text
  | mark text => text
  | line level => "\n" ++ indent level

/-- The text of a layout. -/
def render (pieces : List Piece) : String := String.join (pieces.map text)

def commaSeparated (items : List (List Piece)) : List Piece :=
  [mark ", "].intercalate items

end Piece
end Settle
