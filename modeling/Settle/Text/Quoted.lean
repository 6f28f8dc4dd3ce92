/-! Quoted text: string literals as they are printed.

A literal stands between double quotes. A double quote, a backslash and a line feed
inside are written with a backslash; every other character stands for itself. -/
namespace Settle.Text

/-- A character inside quotes. -/
def escape : Char → List Char
  | '"' => ['\\', '"']
  | '\\' => ['\\', '\\']
  | '\n' => ['\\', 'n']
  | c => [c]

def quoteChars (cs : List Char) : List Char := '"' :: cs.flatMap escape ++ ['"']

def quote (text : String) : String := String.ofList (quoteChars text.toList)

end Settle.Text
