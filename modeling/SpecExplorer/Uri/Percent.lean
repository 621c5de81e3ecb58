/-
# Percent encoding

A byte is written as a percent sign and two hexadecimal digits where the part of the address it
stands in does not take it plainly. Every part has its own set of such characters; bytes above
ASCII are always encoded. Decoding leaves a percent sign alone when no two digits follow it.
-/
import SpecExplorer.Json.Raw
import SpecExplorer.Text.Utf8

namespace SpecExplorer

namespace Percent

/-- A set of characters to encode, over and above controls and everything outside ASCII. -/
abbrev CharSet := List Char

def controls : CharSet := []
def fragment : CharSet := [' ', '"', '<', '>', '`']
def query : CharSet := [' ', '"', '#', '<', '>']
def specialQuery : CharSet := '\'' :: query
def path : CharSet := fragment ++ ['#', '?', '\x7b', '\x7d']
def userinfo : CharSet := path ++ ['/', ':', ';', '=', '@', '[', '\\', ']', '^', '|']

/-- Whether a set leaves a character as it is. -/
def isPlain (set : CharSet) (c : Char) : Bool :=
  0x20 ≤ c.toNat && c.toNat < 0x7F && !set.contains c

/-- A hexadecimal digit in upper case. -/
def upperDigit (n : Nat) : Char := (Json.hexDigit n).toUpper

def encodeByte (b : UInt8) : List Char :=
  ['%', upperDigit (b.toNat / 16), upperDigit (b.toNat % 16)]

def encodeChar (set : CharSet) (c : Char) : List Char :=
  if isPlain set c then [c] else (Text.toUtf8 (String.singleton c)).flatMap encodeByte

def encode (set : CharSet) (cs : List Char) : String := String.ofList (cs.flatMap (encodeChar set))

/-- The byte that two hexadecimal digits spell. -/
def byteOf? (high low : UInt8) : Option UInt8 := do
  let high ← Json.Raw.hexValue? (Char.ofNat high.toNat)
  let low ← Json.Raw.hexValue? (Char.ofNat low.toNat)
  some (high * 16 + low).toUInt8

/-- The bytes that a text stands for. `skip` counts the digits of the last escape that are still
to be passed over. -/
def decodeFrom : Nat → List UInt8 → List UInt8
  | _, [] => []
  | skip + 1, _ :: rest => decodeFrom skip rest
  | 0, b :: rest =>
    match (if b = 0x25 then rest else []) with
    | high :: low :: _ =>
      match byteOf? high low with
      | some byte => byte :: decodeFrom 2 rest
      | none => b :: decodeFrom 0 rest
    | _ => b :: decodeFrom 0 rest

def decode (bytes : List UInt8) : List UInt8 := decodeFrom 0 bytes

example : decode [0x25, 0x34, 0x31, 0x25, 0x7A, 0x25, 0x25, 0x34, 0x32] =
    [0x41, 0x25, 0x7A, 0x25, 0x42] := by decide +kernel

end Percent

end SpecExplorer
