/-! Runtime helpers: functions that lowered code calls and that the printed program
declares itself, each under a name made up for the file. -/
namespace Settle

inductive Helper where
  /-- Settles a promise into `[error]` or `[undefined, result]`. -/
  | tryAwait
  deriving DecidableEq, Repr

namespace Helper

def all : List Helper := [tryAwait]

/-- The name a helper is asked for by. -/
def name : Helper → String
  | tryAwait => "tryAwait"

def named? (name : String) : Option Helper := all.find? (·.name == name)

/-- The lines that declare a helper under a local name. -/
def declaration : Helper → (localName : String) → List String
  | tryAwait, localName =>
    ["function " ++ localName ++ "(value) \x7b",
     "    return Promise.resolve(value).then(function (result) \x7b",
     "        return [undefined, result];",
     "    \x7d, function (error) \x7b",
     "        return [error];",
     "    \x7d);",
     "\x7d"]

/-- The declaration with the place of the local name left open. -/
def template (helper : Helper) : String :=
  "\n".intercalate (helper.declaration "\x7bname\x7d")

end Helper
end Settle
