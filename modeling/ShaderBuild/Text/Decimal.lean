/-!
# Decimal numbers
-/

namespace ShaderBuild.Text

/-- The value of some digits, read after a number that came before them. -/
def digitsValue (before : Nat) (cs : List Char) : Nat :=
  cs.foldl (fun value c => value * 10 + (c.toNat - '0'.toNat)) before

/-- The number that a text writes in decimal digits, if it has some and nothing else. Leading zeros
do not matter. -/
def decimal? (cs : List Char) : Option Nat :=
  if cs ≠ [] ∧ cs.all Char.isDigit then some (digitsValue 0 cs) else none

/-- The number that a text writes in decimal digits, if it is at most `limit`. -/
def decimalUpTo? (limit : Nat) (cs : List Char) : Option Nat :=
  (decimal? cs).filter (· ≤ limit)

end ShaderBuild.Text
