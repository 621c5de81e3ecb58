/-
# Numbers in plain text

Digits of base ten after an optional plus sign, up to a bound. The written form has no other sign,
no blanks and no separators.
-/
import SpecExplorer.Width

namespace SpecExplorer

namespace Text

/-- The value of a run of decimal digits, `none` for an empty run or any other character. -/
def digits? (cs : List Char) : Option Nat :=
  if cs.isEmpty || cs.any (!·.isDigit) then none
  else some (cs.foldl (fun n d => n * 10 + (d.toNat - '0'.toNat)) 0)

/-- The digits after an optional plus sign. -/
def dropPlus : List Char → List Char
  | '+' :: rest => rest
  | cs => cs

/-- The number up to `high` that the characters spell. -/
def natUpTo? (high : Nat) (cs : List Char) : Option Nat := do
  let n ← digits? (dropPlus cs)
  if n ≤ high then some n else none

/-- The 64-bit word that the characters spell. -/
def word? (cs : List Char) : Option Nat := natUpTo? (Width.largest 64) cs

example : word? "+18446744073709551615".toList = some 18446744073709551615 := by decide +kernel
example : word? "18446744073709551616".toList = none := by decide +kernel
example : word? "+".toList = none := by decide +kernel

end Text

end SpecExplorer
