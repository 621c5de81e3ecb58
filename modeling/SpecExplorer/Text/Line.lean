/-
# Lines

A line ends at a line feed, and one carriage return before that line feed belongs to the ending.
Elements after the last line feed form a line of their own with nothing removed, and there is no
empty line after a final line feed. The rule is the same for characters and for bytes.
-/

namespace SpecExplorer

namespace Text

variable {α : Type} [BEq α]

/-- A finished line without the carriage return of its ending. -/
def dropReturn (cr : α) (line : List α) : List α :=
  if line.getLast? == some cr then line.dropLast else line

/-- The lines of a list of elements, with the given line feed and carriage return. `current` holds
the elements of the line under way, last one first. -/
def linesFrom (lf cr : α) (current : List α) : List α → List (List α)
  | [] => if current.isEmpty then [] else [current.reverse]
  | c :: rest =>
    if c == lf then dropReturn cr current.reverse :: linesFrom lf cr [] rest
    else linesFrom lf cr (c :: current) rest

/-- The lines of a list of elements. -/
def linesBy (lf cr : α) (cs : List α) : List (List α) := linesFrom lf cr [] cs

/-- The lines of a text. -/
def lines (s : String) : List String := (linesBy '\n' '\r' s.toList).map String.ofList

example : lines "a\r\n\r\r\n\nb\r" = ["a", "\r", "", "b\r"] := by decide +kernel

end Text

end SpecExplorer
