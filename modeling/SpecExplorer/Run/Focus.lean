/-
# Focus expressions

A run is narrowed to the specs whose full text matches a pattern: the text of a node, literally,
from the start of the line, and then either the end of it or, for a container, a blank or the end.
`Focus.expression` is the written form of a pattern for the test tool, and `Focus.selects` is what
the pattern matches.
-/
import SpecExplorer.Key.Basic
import SpecExplorer.Text.Blank
import SpecExplorer.Tree.Kind

namespace SpecExplorer

/-- A pattern on full texts. -/
inductive Focus where
  /-- The text and nothing after it. -/
  | exactly (text : String)
  /-- The text, at its end or followed by a blank. -/
  | startingWith (text : String)
  deriving DecidableEq, Repr

namespace Focus

/-- Characters with a meaning of their own in an expression. -/
def special : List Char :=
  ['\\', '.', '+', '*', '?', '(', ')', '|', '[', ']', '\x7b', '\x7d', '^', '$', '#', '&', '-', '~']

def escapeChar (c : Char) : List Char := if special.contains c then ['\\', c] else [c]

/-- A text as an expression that matches it literally. -/
def escape (s : String) : String := String.ofList (s.toList.flatMap escapeChar)

def expression : Focus → String
  | .exactly text => "^" ++ escape text ++ "$"
  | .startingWith text => "^" ++ escape text ++ "(\\s|$)"

/-- Whether a full text matches. -/
def selects : Focus → String → Bool
  | .exactly text, full => full == text
  | .startingWith text, full =>
    text.toList.isPrefixOf full.toList &&
      ((full.toList.drop text.toList.length).head?.all Text.isBlank)

/-- The pattern for a node; the whole file is run without one. -/
def ofNode? (key : NodeKey) (kind : NodeKind) : Option Focus :=
  if key.isRoot then none
  else match kind with
    | .root => none
    | .spec => some (.exactly key.fullText)
    | .container => some (.startingWith key.fullText)

end Focus

end SpecExplorer
