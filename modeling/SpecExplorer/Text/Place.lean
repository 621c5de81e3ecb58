/-
# Places in a text

A place is a line and a column of UTF-16 units, both counted from zero. Lines end at a line feed,
a carriage return, both together as one ending, a vertical tab, a form feed, and the Unicode
breaks U+0085, U+2028 and U+2029. Walking a text to a byte offset stops before the character that
the offset falls into, and at the end of the text if the offset is past it. Between a carriage
return and its line feed the walk is still on the line that the two end.
-/

namespace SpecExplorer

namespace Text

structure Place where
  line : Nat
  column : Nat
  deriving DecidableEq, Repr

/-- The UTF-16 units of a character. -/
def units (c : Char) : Nat := if c.toNat < 0x10000 then 1 else 2

/-- Characters that end a line whatever follows them. -/
def isBreak (c : Char) : Bool :=
  let n := c.toNat
  (0x0A ≤ n && n ≤ 0x0C) || n = 0x85 || n = 0x2028 || n = 0x2029

/-- The place after `c`, which stands at `p` and is followed by `rest`. -/
def Place.after (p : Place) (c : Char) (rest : List Char) : Place :=
  if isBreak c || (c = '\r' && rest.head? != some '\n') then ⟨p.line + 1, 0⟩
  else ⟨p.line, p.column + units c⟩

/-- The place reached from `p` by walking `offset` bytes into `cs`. -/
def Place.walk (p : Place) : Nat → List Char → Place
  | _, [] => p
  | offset, c :: rest =>
    if offset < c.utf8Size then p else (p.after c rest).walk (offset - c.utf8Size) rest

/-- The place of a byte offset. -/
def placeOf (content : String) (offset : Nat) : Place :=
  Place.walk ⟨0, 0⟩ offset content.toList

example : placeOf "a\r\nb" 2 = ⟨0, 2⟩ := by decide +kernel
example : placeOf "é😀\u0085x" 8 = ⟨1, 0⟩ := by decide +kernel

end Text

end SpecExplorer
