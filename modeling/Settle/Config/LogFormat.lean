import Settle.Text.Blank

/-! The format of the log, as a setting names it. -/
namespace Settle

inductive LogFormat where
  | text
  | tree
  | json
  deriving DecidableEq, Repr

/-- The format a setting names, blanks around it and case aside; anything else is plain text.
The only letters beyond ASCII whose lower case is one of ASCII are `K` (the Kelvin sign) and `İ`,
and neither `k` nor `i` occurs in a name, so ASCII case is all that matters. -/
def LogFormat.ofSetting (setting : String) : LogFormat :=
  let word := (Text.trim setting.toList).map Char.toLower
  if word = "tree".toList then tree
  else if word = "json".toList then json
  else text

end Settle
