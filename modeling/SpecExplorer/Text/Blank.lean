/-
# Blank characters

The Unicode property `White_Space` as a table of ranges, and trimming by it. The zero width space
and the byte order mark do not have the property, so they stay.
-/

namespace SpecExplorer

namespace Text

/-- The characters with the property `White_Space`, as inclusive ranges of code points. -/
def blankRanges : List (Nat × Nat) :=
  [(0x09, 0x0D), (0x20, 0x20), (0x85, 0x85), (0xA0, 0xA0), (0x1680, 0x1680), (0x2000, 0x200A),
    (0x2028, 0x2029), (0x202F, 0x202F), (0x205F, 0x205F), (0x3000, 0x3000)]

def isBlank (c : Char) : Bool :=
  blankRanges.any fun (low, high) => low ≤ c.toNat && c.toNat ≤ high

/-- Drops blanks at the end. -/
def dropEndBlanks (cs : List Char) : List Char := (cs.reverse.dropWhile isBlank).reverse

/-- The text without blanks at either end. -/
def trim (s : String) : String := String.ofList (dropEndBlanks (s.toList.dropWhile isBlank))

/-- The text without blanks at its end. -/
def trimEnd (s : String) : String := String.ofList (dropEndBlanks s.toList)

example : trim "\u2003 a b\u3000\r\n" = "a b" := by decide +kernel
example : trim "\ufeffa\u200b" = "\ufeffa\u200b" := by decide +kernel

end Text

end SpecExplorer
