/-
# Reading the bytes of a text

A text is read back from its bytes. The first byte of a character leaves it under way with the
range that its second byte has in the encoding, and every further byte takes it on. The narrower
ranges after some first bytes leave out what has a shorter encoding, the surrogates, and what lies
beyond the last code point, and none of these is a character.
-/
import Mathlib.Tactic.IntervalCases
import SpecExplorer.Proofs.Text.ByteOrder

namespace SpecExplorer.Text

variable {n needed low high value : Nat}

/-! ### One byte -/

/-- A byte that begins a longer character leaves it under way. -/
theorem decodeFrom_lead (hn : n < 256)
    (h : leadShape? n = some (needed + 1, low, high, value)) (rest : List UInt8) :
    decodeFrom none (UInt8.ofNat n :: rest) =
      decodeFrom (some ⟨value, needed + 1, low, high⟩) rest := by
  rw [decodeFrom, lead, UInt8.toNat_ofNat_of_lt' hn, h]
  rfl

/-- A byte in the range takes a character on. -/
theorem decodeFrom_next (hn : n < 256) (hlow : low ≤ n) (hhigh : n ≤ high) (needed : Nat)
    (rest : List UInt8) :
    decodeFrom (some ⟨value, needed + 2, low, high⟩) (UInt8.ofNat n :: rest) =
      decodeFrom (some ⟨value * 64 + (n - 0x80), needed + 1, 0x80, 0xBF⟩) rest := by
  rw [decodeFrom, UInt8.toNat_ofNat_of_lt' hn, if_pos ⟨hlow, hhigh⟩, if_neg (by simp)]
  rfl

/-- The last byte gives the character. -/
theorem decodeFrom_last {m : Nat} (hn : n < 256) (hlow : low ≤ n) (hhigh : n ≤ high)
    (hm : value * 64 + (n - 0x80) = m) (rest : List UInt8) :
    decodeFrom (some ⟨value, 1, low, high⟩) (UInt8.ofNat n :: rest) =
      some (Char.ofNat m) :: decodeFrom none rest := by
  rw [decodeFrom, UInt8.toNat_ofNat_of_lt' hn, if_pos ⟨hlow, hhigh⟩, if_pos (by simp), hm]

/-- The first of two bytes. -/
theorem leadShape?_two (hlow : 2 ≤ n) (hhigh : n < 32) :
    leadShape? (n + 192) = some (1, 0x80, 0xBF, n) := by
  rw [leadShape?, if_neg (by omega), if_pos (by omega), Nat.add_sub_cancel]

/-- The first of three bytes. -/
theorem leadShape?_three (hn : n < 16) : leadShape? (n + 224) =
    some (2, if n = 0 then 0xA0 else 0x80, if n = 13 then 0x9F else 0xBF, n) := by
  interval_cases n <;> rfl

/-- The first of four bytes. -/
theorem leadShape?_four (hn : n < 5) : leadShape? (n + 240) =
    some (3, if n = 0 then 0x90 else 0x80, if n = 4 then 0x8F else 0xBF, n) := by
  interval_cases n <;> rfl

/-! ### A whole text -/

/-- A character is read from its bytes, whatever follows them. -/
theorem decodeFrom_utf8EncodeChar (c : Char) (rest : List UInt8) :
    decodeFrom none (String.utf8EncodeChar c ++ rest) = some c :: decodeFrom none rest := by
  have hc : Char.ofNat c.val.toNat = c := Char.ofNat_toNat c
  have hvalid : c.val.toNat < 0xD800 ∨ 0xDFFF < c.val.toNat ∧ c.val.toNat < 0x110000 := c.valid
  unfold String.utf8EncodeChar
  generalize c.val.toNat = n at hc hvalid
  subst hc
  dsimp only
  split_ifs with hone htwo hthree
  · have hshape : leadShape? n = some (0, 0x80, 0xBF, n) := if_pos (by omega)
    have hbyte : n < 256 := by omega
    rw [List.cons_append, List.nil_append, decodeFrom, lead, UInt8.toNat_ofNat_of_lt' hbyte, hshape]
    rfl
  · have hshape : leadShape? (n / 64 % 32 + 192) = some (1, 0x80, 0xBF, n / 64 % 32) :=
      leadShape?_two (by omega) (by omega)
    simp only [List.cons_append, List.nil_append]
    rw [decodeFrom_lead (by omega) hshape,
      decodeFrom_last (by omega) (by omega) (by omega) (m := n) (by omega)]
  · have hshape := leadShape?_three (n := n / 4096 % 16) (by omega)
    simp only [List.cons_append, List.nil_append]
    rw [decodeFrom_lead (by omega) hshape,
      decodeFrom_next (by omega) (by split_ifs <;> omega) (by split_ifs <;> omega),
      decodeFrom_last (by omega) (by omega) (by omega) (m := n) (by omega)]
  · have hshape := leadShape?_four (n := n / 262144 % 8) (by omega)
    simp only [List.cons_append, List.nil_append]
    rw [decodeFrom_lead (by omega) hshape,
      decodeFrom_next (by omega) (by split_ifs <;> omega) (by split_ifs <;> omega),
      decodeFrom_next (by omega) (by omega) (by omega),
      decodeFrom_last (by omega) (by omega) (by omega) (m := n) (by omega)]

theorem decodeUtf8_flatMap (cs : List Char) :
    decodeUtf8 (cs.flatMap String.utf8EncodeChar) = cs.map some := by
  induction cs with
  | nil => rfl
  | cons c rest ih =>
      rw [List.flatMap_cons, decodeUtf8, decodeFrom_utf8EncodeChar, List.map_cons]
      exact congrArg (some c :: ·) ih

/-- A text is read back from its bytes. -/
theorem fromUtf8?_toUtf8 (s : String) : fromUtf8? (toUtf8 s) = some s := by
  have hall : (s.toList.map some).mapM id = some s.toList := by
    rw [List.mapM_map]
    exact (List.mapM_pure (f := id)).trans (congrArg some (List.map_id _))
  rw [fromUtf8?, toUtf8_eq_flatMap, decodeUtf8_flatMap, hall, Option.map_some,
    String.ofList_toList]

end SpecExplorer.Text
