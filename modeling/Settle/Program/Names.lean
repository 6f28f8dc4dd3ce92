/-! Fresh names.

A name made up for a program must not meet one that the file uses or that was made
up before. From a base `b`, stripped of leading underscores, the candidates are
`_b`, `_b2`, `_b3`, …; the first that is not taken wins, and is taken from then
on. The number is a 32-bit word. Until it runs over candidates differ pairwise, so one
more of them than there are names taken is enough. -/
namespace Settle

/-- The names that are taken. -/
structure Names where
  /-- Those the file used when the program was read. -/
  inFile : List String := []
  /-- Those made up since. -/
  madeUp : List String := []
  deriving DecidableEq, Repr

namespace Names

def taken (names : Names) : List String := names.inFile ++ names.madeUp

/-- A base without its leading underscores. -/
def stem (base : String) : String :=
  String.ofList (base.toList.dropWhile (· == '_'))

/-- The candidates for a stem, counted from 0. The first has no number, and after the last word
comes 0. -/
def candidate (stem : String) (k : Nat) : String :=
  let number := (k + 1) % UInt32.size
  if number = 1 then "_" ++ stem else "_" ++ stem ++ number.repr

/-- The first candidate from the `k`-th on that is not taken, in so many tries. -/
def firstFree (taken : List String) (stem : String) : (tries k : Nat) → String
  | 0, k => candidate stem k
  | tries + 1, k =>
    if candidate stem k ∈ taken then firstFree taken stem tries (k + 1) else candidate stem k

/-- A name made up from a base, and the names taken after it. -/
def fresh (names : Names) (base : String) : String × Names :=
  let name := firstFree names.taken (stem base) names.taken.length 0
  (name, {names with madeUp := names.madeUp ++ [name]})

end Names
end Settle
