/-
# Numbers of a JSON text

A number keeps the form it was written in: only a plain run of digits is an integer, and a point
or an exponent makes a real even of `1.0`. An integer may be of any size here. Whether it fits a
field is for the reader of that field to say, and one that fits no 64-bit word is read as a real.
A real is the exact decimal that was written. It is refused where it cannot be had as a double: its
leading digits, as many as fit a 64-bit word, are rounded to a double and multiplied by the double
nearest to the power of ten, and that product must be finite.
-/
import SpecExplorer.Text.Tenths

namespace SpecExplorer

namespace Json

/-- A number by its written form. `real negative m e` stands for `m * 10 ^ e`. -/
inductive Number where
  | integer (value : Int)
  | real (negative : Bool) (significand : Nat) (exponent : Int)
  deriving DecidableEq, Repr

namespace Number

/-- How many decimal digits it takes to write `n`, with none for zero. -/
def decimalLength (n : Nat) : Nat :=
  if n = 0 then 0 else (Nat.toDigits 10 n).length

/-- A power of ten. -/
def tenTo (exponent : Nat) : Nat := Nat.pow 10 exponent

/-- The least real magnitude whose nearest double is infinite: half a unit above the largest
finite double. -/
def overflowBound : Nat := Width.count 1024 - Width.count 970

/-- The double nearest to a natural number, without a bound on its size. -/
def nearestDouble (n : Nat) : Nat :=
  let unit := Width.count (n.log2 - 52)
  Text.roundHalfEven n unit * unit

/-- The leading digits of `m` that fit a 64-bit word. One digit fewer is tried at a time, so as
much `fuel` as there are digits is enough. -/
def leadingWord : Nat → Nat → Nat
  | 0, m => m
  | fuel + 1, m => if m ≤ Width.largest 64 then m else leadingWord fuel (m / 10)

/-- Whether `m * 10 ^ e`, with `m` a 64-bit word, comes out finite in doubles. -/
def wordFits (m : Nat) : Int → Bool
  | .ofNat up => nearestDouble m * nearestDouble (tenTo up) < overflowBound
  | .negSucc _ => true

/-- Whether `m * 10 ^ e` is read as a finite double. The digit count settles all but the magnitudes
near the bound, so no power of ten beyond that neighbourhood is ever computed. -/
def fitsDouble (m : Nat) (e : Int) : Bool :=
  let length := decimalLength m
  let magnitude : Int := length + e
  if m = 0 then true
  else if magnitude > 310 then false
  else if magnitude < 308 then true
  else
    let word := leadingWord length m
    wordFits word (e + (length - decimalLength word : Nat))

/-- A number that some double stands for. -/
def isFinite : Number → Bool
  | .integer value => fitsDouble value.natAbs 0
  | .real _ m e => fitsDouble m e

/-- The integer from `low` to `high` that the number is written as. -/
def toInt? (low high : Int) : Number → Option Int
  | .integer value => if low ≤ value ∧ value ≤ high then some value else none
  | .real _ _ _ => none

/-- The natural number up to `high` that the number is written as. -/
def toNat? (high : Nat) : Number → Option Nat
  | .integer (.ofNat value) => if value ≤ high then some value else none
  | _ => none

/-- The written form: integers plain, reals with an exponent. -/
def text : Number → String
  | .integer value => toString value
  | .real negative m e => (if negative then "-" else "") ++ toString m ++ "e" ++ toString e

example : fitsDouble 17976931348623157 292 = true := by decide +kernel
example : fitsDouble 17976931348623158 292 = false := by decide +kernel

end Number

end Json

end SpecExplorer
