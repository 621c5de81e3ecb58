/-
# One decimal place

The written form of a double with one digit after the point. The double is taken as the exact
binary fraction it stands for, and a value halfway between two tenths goes to the even one.
-/
import SpecExplorer.Width

namespace SpecExplorer

namespace Text

/-- `num / den` to the nearest natural number, a half to the even neighbour. -/
def roundHalfEven (num den : Nat) : Nat :=
  let q := num / den
  let twice := 2 * (num % den)
  if twice < den then q
  else if den < twice then q + 1
  else if q % 2 = 0 then q
  else q + 1

/-- The magnitude of a finite double as a fraction, from its bits. -/
def magnitude (bits : UInt64) : Nat × Nat :=
  let exponent := (bits.toNat / Width.count 52) % Width.count 11
  let fraction := bits.toNat % Width.count 52
  let significand := if exponent = 0 then fraction else fraction + Width.count 52
  let scale := max exponent 1
  if 1075 ≤ scale then (significand * Width.count (scale - 1075), 1)
  else (significand, Width.count (1075 - scale))

/-- A natural number of tenths with a point before its last digit. -/
def tenthsText (tenths : Nat) : String := s!"{tenths / 10}.{tenths % 10}"

/-- A number that is not negative, with one decimal place. -/
def oneDecimal (x : Float) : String :=
  let (num, den) := magnitude x.toBits
  tenthsText (roundHalfEven (num * 10) den)

example : tenthsText (roundHalfEven (125 * 10) 1000) = "0.1" := by decide +kernel

/-- Blanks up to a width. -/
def blanks (width used : Nat) : String := String.ofList (List.replicate (width - used) ' ')

/-- A text with blanks after it up to a width in characters. -/
def padRight (width : Nat) (s : String) : String := s ++ blanks width s.length

/-- A text with blanks before it up to a width in characters. -/
def padLeft (width : Nat) (s : String) : String := blanks width s.length ++ s

end Text

end SpecExplorer
