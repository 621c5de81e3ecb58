/-
# Bytes as UTF-8 text

Decoding looks at one character at a time. A well-formed sequence gives its character. Anything
else gives a fault that covers the longest prefix which could still have begun a character, and at
least one byte. Lossy decoding shows each fault as one replacement character; strict decoding
accepts only text without faults.
-/

namespace SpecExplorer

namespace Text

/-- The shape of a character by its first byte: how many bytes follow, the range of the first of
them, and the payload of the lead byte. A byte that starts no character has no shape. -/
def leadShape? (b : Nat) : Option (Nat × Nat × Nat × Nat) :=
  if b < 0x80 then some (0, 0x80, 0xBF, b)
  else if 0xC2 ≤ b ∧ b ≤ 0xDF then some (1, 0x80, 0xBF, b - 0xC0)
  else if b = 0xE0 then some (2, 0xA0, 0xBF, 0)
  else if b = 0xED then some (2, 0x80, 0x9F, 0xD)
  else if 0xE1 ≤ b ∧ b ≤ 0xEF then some (2, 0x80, 0xBF, b - 0xE0)
  else if b = 0xF0 then some (3, 0x90, 0xBF, 0)
  else if 0xF1 ≤ b ∧ b ≤ 0xF3 then some (3, 0x80, 0xBF, b - 0xF0)
  else if b = 0xF4 then some (3, 0x80, 0x8F, 4)
  else none

/-- What decoding does next: the code point under way, the bytes it still needs, and the range
of the next one. -/
structure Utf8State where
  value : Nat
  needed : Nat
  low : Nat
  high : Nat

/-- A byte looked at as a first byte: what it gives at once, and the character it begins. -/
def lead (b : UInt8) : List (Option Char) × Option Utf8State :=
  match leadShape? b.toNat with
  | none => ([none], none)
  | some (0, _, _, value) => ([some (Char.ofNat value)], none)
  | some (needed, low, high, value) => ([], some ⟨value, needed, low, high⟩)

/-- Decodes bytes into characters and faults, with the character under way if there is one. A
byte that cannot continue it closes a fault and is looked at again as a first byte. -/
def decodeFrom : Option Utf8State → List UInt8 → List (Option Char)
  | none, [] => []
  | some _, [] => [none]
  | none, b :: rest =>
    let (given, state) := lead b
    given ++ decodeFrom state rest
  | some state, b :: rest =>
    if state.low ≤ b.toNat ∧ b.toNat ≤ state.high then
      let value := state.value * 64 + (b.toNat - 0x80)
      if state.needed ≤ 1 then some (Char.ofNat value) :: decodeFrom none rest
      else decodeFrom (some ⟨value, state.needed - 1, 0x80, 0xBF⟩) rest
    else
      let (given, state) := lead b
      none :: (given ++ decodeFrom state rest)

/-- The characters of a byte string, with `none` for each fault. -/
def decodeUtf8 (bytes : List UInt8) : List (Option Char) := decodeFrom none bytes

/-- The text of a byte string, with U+FFFD for each fault. -/
def fromUtf8Lossy (bytes : List UInt8) : String :=
  String.ofList ((decodeUtf8 bytes).map (·.getD '\ufffd'))

/-- The text of a byte string without faults. -/
def fromUtf8? (bytes : List UInt8) : Option String :=
  ((decodeUtf8 bytes).mapM id).map String.ofList

/-- The bytes of a text. -/
def toUtf8 (s : String) : List UInt8 := s.toUTF8.toList

example : decodeUtf8 [0xF0, 0x90, 0x28, 0xBC] = [none, some '(', none] := by decide
example : decodeUtf8 [0xED, 0xA0, 0x80] = [none, none, none] := by decide
example : decodeUtf8 [0xE6, 0x97, 0xA5, 0x61] = [some '日', some 'a'] := by decide

end Text

end SpecExplorer
