/-
# The written form of a key

Names are joined by `/`. A later sibling of a name carries `#` and its ordinal. A backslash stands
before every `/`, `#` and backslash of a name, and an empty name is a backslash and a zero, so that
only the key of the file is written as the empty text. Reading accepts every text: a backslash
takes the next character as it is, a backslash before a zero adds nothing, and an ordinal that is
no 64-bit word counts as zero.
-/
import SpecExplorer.Key.Basic
import SpecExplorer.Text.Word

namespace SpecExplorer

namespace NodeKey

/-- Characters with a meaning of their own between names. -/
def isReserved (c : Char) : Bool := c = '/' || c = '#' || c = '\\'

def encodeChar (c : Char) : List Char := if isReserved c then ['\\', c] else [c]

/-- A name, which is never written as nothing. -/
def encodeName (name : List Char) : List Char :=
  if name.isEmpty then ['\\', '0'] else name.flatMap encodeChar

def encodeSegment (s : Segment) : List Char :=
  encodeName s.name.toList ++ if s.ordinal = 0 then [] else '#' :: Nat.toDigits 10 s.ordinal

/-- The segments with a slash between neighbours. -/
def encode : List Segment → List Char
  | [] => []
  | [s] => encodeSegment s
  | s :: rest => encodeSegment s ++ '/' :: encode rest

/-- The written form of a key. -/
def text (key : NodeKey) : String := String.ofList (encode key.segments)

instance : ToString NodeKey := ⟨text⟩

/-- A segment while it is read: the name and, after a `#`, the ordinal, both last character
first. -/
structure Partial where
  name : List Char
  ordinal : Option (List Char)

namespace Partial

def start : Partial := ⟨[], none⟩

/-- Adds a character to the ordinal if one is open, else to the name. -/
def push (p : Partial) (c : Char) : Partial :=
  match p.ordinal with
  | some digits => { p with ordinal := some (c :: digits) }
  | none => { p with name := c :: p.name }

/-- A bare `#`: it opens the ordinal, and inside one it is a character. -/
def hash (p : Partial) : Partial :=
  match p.ordinal with
  | some _ => p.push '#'
  | none => { p with ordinal := some [] }

def finish (p : Partial) : Segment where
  name := String.ofList p.name.reverse
  ordinal := (p.ordinal.bind fun digits => Text.word? digits.reverse).getD 0

end Partial

/-- The segments of a text, with the first one under way. -/
def decodeFrom (p : Partial) : List Char → List Segment
  | [] => [p.finish]
  | ['\\'] => [p.finish]
  | '\\' :: c :: rest => decodeFrom (if c = '0' then p else p.push c) rest
  | '/' :: rest => p.finish :: decodeFrom .start rest
  | '#' :: rest => decodeFrom p.hash rest
  | c :: rest => decodeFrom (p.push c) rest

def decode (cs : List Char) : List Segment :=
  if cs.isEmpty then [] else decodeFrom .start cs

/-- The key that a text stands for. -/
def parse (s : String) : NodeKey := ⟨decode s.toList⟩

example : (parse "A\\/b#1/\\0").segments = [⟨"A/b", 1⟩, ⟨"", 0⟩] := by decide +kernel
example : (parse "a#x#1\\").segments = [⟨"a", 0⟩] := by decide +kernel

end NodeKey

end SpecExplorer
