/-
# Labels of host names

A host name may hold letters outside ASCII, but it is written in ASCII. Letters are first brought
to one form: lower case, narrow, and without marks that are not seen. Then a label that still has
letters outside ASCII becomes `xn--`, its ASCII letters, and numbers in base thirty-six that say
where the other letters have to be put in, lowest letter first. How many digits a number takes
depends on the numbers before it, so labels of one script stay short. Of the letters with another
form only those of the Latin, Greek and Cyrillic blocks and the wide forms of ASCII are known.
-/

namespace SpecExplorer

namespace Label

/-! ### One form for a letter -/

def lowered (c : Char) (distance : Nat) : List Char := [Char.ofNat (c.toNat + distance)]

def isBetween (low high : Nat) (c : Char) : Bool := low ≤ c.toNat && c.toNat ≤ high

/-- The letters that a letter stands for. -/
def fold (c : Char) : List Char :=
  if c.toNat < 0x80 then [c.toLower]
  else if [0xAD, 0x200B, 0x2060, 0xFEFF].contains c.toNat then []
  else if [0x3002, 0xFF0E, 0xFF61].contains c.toNat then ['.']
  else if isBetween 0xFF01 0xFF5E c then [(Char.ofNat (c.toNat - 0xFEE0)).toLower]
  else if (isBetween 0xC0 0xDE c && c.toNat != 0xD7) || isBetween 0x391 0x3A9 c ||
      isBetween 0x410 0x42F c then lowered c 0x20
  else if isBetween 0x400 0x40F c then lowered c 0x50
  else if isBetween 0x100 0x137 c && c.toNat % 2 = 0 && c.toNat != 0x130 then lowered c 1
  else [c]

/-- Whether no name holds a letter: controls, and what stands for an unreadable one. -/
def isRefused (c : Char) : Bool := isBetween 0x80 0x9F c || c.toNat = 0xFFFD

/-! ### Numbers -/

def digit (n : Nat) : Char :=
  if n < 26 then Char.ofNat ('a'.toNat + n) else Char.ofNat ('0'.toNat + (n - 26))

/-- The least digit that another one follows, at a place. -/
def threshold (bias place : Nat) : Nat := min 26 (max 1 (place - bias))

theorem threshold_pos (bias place : Nat) : 0 < threshold bias place := by
  unfold threshold
  omega

/-- A number, lowest digit first. -/
def number (bias place n : Nat) : List Char :=
  let t := threshold bias place
  if n < t then [digit n]
  else digit (t + (n - t) % (36 - t)) :: number bias (place + 36) ((n - t) / (36 - t))
termination_by n
decreasing_by
  have := threshold_pos bias place
  have := Nat.div_le_self (n - threshold bias place) (36 - threshold bias place)
  omega

/-- Divides by thirty-five until the result is small, and counts thirty-six for each time. -/
def shrink (n count : Nat) : Nat × Nat :=
  if 455 < n then shrink (n / 35) (count + 36) else (n, count)
termination_by n
decreasing_by omega

/-- The bias after a number. `total` letters are placed by then. -/
def adapt (n total : Nat) (first : Bool) : Nat :=
  let n := if first then n / 700 else n / 2
  let (n, count) := shrink (n + n / total) 0
  count + 36 * n / (n + 38)

/-! ### Labels -/

/-- What is written so far. -/
structure Writing where
  done : List Char
  /-- How far the next letter is from the last one placed. -/
  distance : Nat
  bias : Nat
  /-- The letters that are placed. -/
  total : Nat

/-- Passes a letter of the label while the letters of value `value` are placed. -/
def pass (basic value : Nat) (w : Writing) (c : Char) : Writing :=
  if c.toNat < value then { w with distance := w.distance + 1 }
  else if c.toNat = value then
    { done := w.done ++ number w.bias 36 w.distance
      distance := 0
      bias := adapt w.distance (w.total + 1) (w.total == basic)
      total := w.total + 1 }
  else w

/-- Places the letters of some values; all below `next` are placed. -/
def place (label : List Char) (basic : Nat) : Nat → Writing → List Nat → Writing
  | _, w, [] => w
  | next, w, value :: rest =>
    let w := { w with distance := w.distance + (value - next) * (w.total + 1) }
    let w := label.foldl (pass basic value) w
    place label basic (value + 1) { w with distance := w.distance + 1 } rest

def isBasic (c : Char) : Bool := c.toNat < 0x80

/-- The written form of a label. -/
def encode (label : List Char) : List Char :=
  if label.all isBasic then label
  else
    let basic := label.filter isBasic
    let values := ((label.filter (!isBasic ·)).map Char.toNat).mergeSort.eraseDups
    let written := place label basic.length 0x80 ⟨[], 0, 72, basic.length⟩ values
    ['x', 'n', '-', '-'] ++ basic ++ (if basic.isEmpty then [] else ['-']) ++ written.done

example : encode ['b', 'ü', 'c', 'h', 'e', 'r'] =
    ['x', 'n', '-', '-', 'b', 'c', 'h', 'e', 'r', '-', 'k', 'v', 'a'] := by decide +kernel

end Label

end SpecExplorer
