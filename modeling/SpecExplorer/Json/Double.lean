/-
# Doubles as JSON numbers

A double that is not negative is written with the fewest decimal places from which it can be read
back.
-/
import SpecExplorer.Json.Basic
import SpecExplorer.Text.Tenths

namespace SpecExplorer

namespace Json

namespace Number

/-- The double nearest to `m` with a point before its last `places` digits. -/
def decimalDouble (m places : Nat) : Float := Float.ofScientific m true places

/-- The magnitude of a double rounded to some decimal places. -/
def toPlaces (x : Float) (places : Nat) : Nat :=
  let (num, den) := Text.magnitude x.toBits
  Text.roundHalfEven (num * tenTo places) den

/-- Tries more and more places until the double can be read back. No double needs more than
1074 places. -/
def fewestPlaces (x : Float) : Nat → Nat → Nat
  | 0, places => places
  | fuel + 1, places =>
    if decimalDouble (toPlaces x places) places == x then places
    else fewestPlaces x fuel (places + 1)

/-- A double that is not negative. -/
def ofDouble (x : Float) : Number :=
  let places := fewestPlaces x 1074 0
  .real false (toPlaces x places) (-(places : Int))

end Number

def double (x : Float) : Json := .number (.ofDouble x)

end Json

end SpecExplorer
