/-
# Signatures of a text

A signature stands for the content of a document at one moment: its size in bytes, a digest of the
bytes, and for a file on disk the time of its last change. The buffer of an open document has no
such time, so it never matches a file, however alike the two are.
-/
import SpecExplorer.Text.Utf8

namespace SpecExplorer

/-- Sixty-four bits that stand for a byte string. -/
def digest (bytes : List UInt8) : UInt64 :=
  bytes.foldl (fun h b => (h ^^^ b.toUInt64) * 0x100000001b3) 0xcbf29ce484222325

structure Signature where
  size : Nat
  modified : Option Nat
  digest : UInt64
  deriving DecidableEq, Repr

namespace Signature

/-- The signature of an open document. -/
def ofText (text : String) : Signature :=
  let bytes := Text.toUtf8 text
  ⟨bytes.length, none, SpecExplorer.digest bytes⟩

/-- The signature of a file that was last changed at a time. -/
def ofFile (text : String) (modified : Nat) : Signature :=
  { ofText text with modified := some modified }

end Signature

/-- Why a file gives no text. -/
inductive ReadFault where
  | notText
  | notADirectory
  | isADirectory
  | notFound
  deriving DecidableEq, Repr

namespace Signature

/-- The text of a file with its signature. -/
def ofDisk (bytes : List UInt8) (modified : Nat) : Except ReadFault (String × Signature) :=
  match Text.fromUtf8? bytes with
  | some text => .ok (text, ofFile text modified)
  | none => .error .notText

end Signature

end SpecExplorer
