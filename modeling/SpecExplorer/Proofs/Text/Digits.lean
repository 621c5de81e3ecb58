/-
# Digits of a word

A 64-bit word is written with the digits of base ten, and reading those gives the word. Nothing
that separates fields is among the digits.
-/
import SpecExplorer.Text.Blank
import SpecExplorer.Text.Word

namespace SpecExplorer.Text

theorem isDigit_of_mem_toDigits {n : Nat} {c : Char} (h : c ∈ Nat.toDigits 10 n) : c.isDigit :=
  Nat.isDigit_of_mem_toDigits (by decide) (by decide) h

/-- The digits of a 64-bit word spell it. -/
theorem word?_toDigits {n : Nat} (h : n ≤ Width.largest 64) :
    word? (Nat.toDigits 10 n) = some n := by
  have hplus : dropPlus (Nat.toDigits 10 n) = Nat.toDigits 10 n := by
    unfold dropPlus
    split
    next rest heq =>
        exact absurd (isDigit_of_mem_toDigits (heq ▸ List.mem_cons_self : '+' ∈ _)) (by decide)
    next => rfl
  have hvalue : digits? (Nat.toDigits 10 n) = some n := by
    rw [digits?, if_neg]
    · have hfold := Nat.ofDigitChars_toDigits (b := 10) (n := n) (by decide) (by decide)
      simpa only [Nat.ofDigitChars, Nat.mul_comm] using congrArg some hfold
    · simpa [List.isEmpty_iff, Nat.toDigits_ne_nil] using fun c => isDigit_of_mem_toDigits
  rw [word?, natUpTo?, hplus, hvalue]
  exact if_pos h

theorem not_isDigit_of_isBlank {c : Char} (h : isBlank c) : ¬ c.isDigit := by
  intro hdigit
  simp only [Char.isDigit, Bool.and_eq_true, decide_eq_true_eq, ge_iff_le,
    UInt32.le_iff_toNat_le] at hdigit
  have hval : c.val.toNat = c.toNat := rfl
  simp only [isBlank, blankRanges, List.any_cons, List.any_nil, Bool.or_eq_true,
    Bool.and_eq_true, decide_eq_true_eq, Bool.or_false] at h
  simp at hdigit
  omega

end SpecExplorer.Text
