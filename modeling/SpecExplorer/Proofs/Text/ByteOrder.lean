/-
# The order of bytes

Texts are compared by their code points, and programs that hold them as UTF-8 compare them byte by
byte. The two orders are the same: the first characters in which two texts differ are written with
bytes of which already the first different ones stand in the order of the characters, so no byte
that follows has a say.
-/
import Mathlib.Order.Basic
import SpecExplorer.Text.Utf8

namespace SpecExplorer.Text

theorem ofNat_lt_ofNat_iff {m n : Nat} (hm : m < 256) (hn : n < 256) :
    UInt8.ofNat m < UInt8.ofNat n ↔ m < n := by
  rw [UInt8.lt_iff_toNat_lt, UInt8.toNat_ofNat_of_lt' hm, UInt8.toNat_ofNat_of_lt' hn]

theorem ofNat_eq_ofNat_iff {m n : Nat} (hm : m < 256) (hn : n < 256) :
    UInt8.ofNat m = UInt8.ofNat n ↔ m = n := by
  rw [← UInt8.toNat_inj, UInt8.toNat_ofNat_of_lt' hm, UInt8.toNat_ofNat_of_lt' hn]

theorem toNat_val_lt (c : Char) : c.val.toNat < 0x110000 := by
  rcases c.valid with h | h
  · exact Nat.lt_trans h (by decide)
  · exact h.2

/-- The bytes of a smaller character come first, whatever follows either of them. -/
theorem utf8EncodeChar_append_lt {c d : Char} (h : c < d) (cs ds : List UInt8) :
    String.utf8EncodeChar c ++ cs < String.utf8EncodeChar d ++ ds := by
  have hlt : c.val.toNat < d.val.toNat := h
  have hd := toNat_val_lt d
  unfold String.utf8EncodeChar
  generalize c.val.toNat = m at hlt
  generalize d.val.toNat = n at hlt hd
  -- The digits of base 64, each cut from the rest of the one before it.
  have htwo : ∀ k, k / 4096 = k / 64 / 64 := fun k => by omega
  have hthree : ∀ k, k / 262144 = k / 64 / 64 / 64 := fun k => by omega
  simp only [htwo, hthree]
  split_ifs <;>
    simp (disch := omega) only [List.cons_append, List.nil_append, List.cons_lt_cons_iff,
      ofNat_lt_ofNat_iff, ofNat_eq_ofNat_iff] <;>
    omega

/-! ### Bytes of a text -/

theorem toList_loop_eq (bytes : ByteArray) (i : Nat) (before : List UInt8) :
    ByteArray.toList.loop bytes i before = before.reverse ++ bytes.data.toList.drop i := by
  fun_induction ByteArray.toList.loop bytes i before with
  | case1 i before hlt ih =>
      have hi : i < bytes.data.toList.length := by simpa using hlt
      rw [ih, List.drop_eq_getElem_cons hi]
      simp [ByteArray.get!, hlt]
  | case2 i before hge =>
      rw [List.drop_eq_nil_of_le (by simpa using Nat.le_of_not_lt hge)]
      simp

theorem toUtf8_eq_flatMap (s : String) : toUtf8 s = s.toList.flatMap String.utf8EncodeChar := by
  conv => lhs; rw [← @String.ofList_toList s]
  rw [toUtf8, String.toUTF8_eq_toByteArray, ByteArray.toList, toList_loop_eq]
  exact List.toList_data_toByteArray

theorem flatMap_utf8EncodeChar_lt {cs ds : List Char} (h : cs < ds) :
    cs.flatMap String.utf8EncodeChar < ds.flatMap String.utf8EncodeChar := by
  induction h with
  | @nil d ds =>
      have hne : String.utf8EncodeChar d ≠ [] := String.utf8EncodeChar_ne_nil
      obtain ⟨b, bs, heq⟩ := List.exists_cons_of_ne_nil hne
      rw [List.flatMap_cons, heq]
      exact List.nil_lt_cons _ _
  | @rel c cs d ds hlt => exact utf8EncodeChar_append_lt hlt _ _
  | @cons c cs ds hlt ih =>
      rw [List.flatMap_cons, List.flatMap_cons]
      exact List.append_left_lt ih

/-- Texts stand in the order of their bytes. -/
theorem toUtf8_lt_toUtf8 {s t : String} (h : s < t) : toUtf8 s < toUtf8 t := by
  rw [toUtf8_eq_flatMap, toUtf8_eq_flatMap]
  exact flatMap_utf8EncodeChar_lt (String.lt_iff.mp h)

end SpecExplorer.Text
