/-
# Positions of an editor

A position is a line and a column of UTF-16 units, both 32-bit words, as editors exchange them.
-/
import SpecExplorer.Text.Place

namespace SpecExplorer

structure Position where
  line : UInt32
  character : UInt32
  deriving DecidableEq, Repr, Inhabited

namespace Position

def zero : Position := ⟨0, 0⟩

/-- A place of a text, its line and column taken as 32-bit words. -/
def ofPlace (p : Text.Place) : Position := ⟨p.line.toUInt32, p.column.toUInt32⟩

/-- The position of a byte offset. -/
def ofOffset (content : String) (offset : Nat) : Position := ofPlace (Text.placeOf content offset)

end Position

/-- A stretch of text from one position up to another. -/
structure Range where
  start : Position
  stop : Position
  deriving DecidableEq, Repr, Inhabited

namespace Range

def zero : Range := ⟨.zero, .zero⟩

/-- The empty range where a range starts. -/
def collapse (r : Range) : Range := ⟨r.start, r.start⟩

end Range

end SpecExplorer
