/-
# Trimming

Trimming takes the blanks from both ends of a text. So blanks at the end, such as the carriage
return of a line's ending, have no say in what is left, a text without blanks at its ends is left
as it is, and trimming again changes nothing.
-/
import Mathlib.Data.List.DropRight
import Mathlib.Data.List.Induction
import SpecExplorer.Text.Blank
import SpecExplorer.Text.Line

namespace SpecExplorer.Text

theorem dropEndBlanks_eq (cs : List Char) : dropEndBlanks cs = cs.rdropWhile isBlank := rfl

theorem toList_trim (s : String) :
    (trim s).toList = (s.toList.dropWhile isBlank).rdropWhile isBlank := by
  rw [trim, String.toList_ofList, dropEndBlanks_eq]

theorem rdropWhile_append_of_pos {cs bs : List Char} (h : ∀ b ∈ bs, isBlank b) :
    (cs ++ bs).rdropWhile isBlank = cs.rdropWhile isBlank := by
  rw [List.rdropWhile, List.reverse_append, List.dropWhile_append_of_pos (by simpa using h)]
  rfl

/-- Nothing goes from before a character that is not blank. -/
theorem rdropWhile_append_cons_of_neg {c : Char} (h : ¬ isBlank c) (before after : List Char) :
    (before ++ c :: after).rdropWhile isBlank = before ++ c :: after.rdropWhile isBlank := by
  induction after using List.reverseRecOn with
  | nil => exact List.rdropWhile_concat_neg _ _ _ h
  | append_singleton after d ih =>
      rw [← List.cons_append, ← List.append_assoc]
      by_cases hd : isBlank d
      · rw [List.rdropWhile_concat_pos _ _ _ hd, List.rdropWhile_concat_pos _ _ _ hd, ih]
      · rw [List.rdropWhile_concat_neg _ _ _ hd, List.rdropWhile_concat_neg _ _ _ hd,
          List.append_assoc, List.cons_append]

/-- Blanks at the end have no say in what trimming leaves. -/
theorem trim_append_of_blanks {cs bs : List Char} (h : ∀ b ∈ bs, isBlank b) :
    trim (.ofList (cs ++ bs)) = trim (.ofList cs) := by
  rw [← String.toList_inj, toList_trim, toList_trim, String.toList_ofList, String.toList_ofList,
    List.dropWhile_append]
  split
  next hnone =>
      rw [List.isEmpty_iff.mp hnone, List.dropWhile_eq_nil_iff.mpr h]
  next => exact rdropWhile_append_of_pos h

theorem trim_rdropWhile (cs : List Char) :
    trim (.ofList (cs.rdropWhile isBlank)) = trim (.ofList cs) := by
  have hblank : ∀ b ∈ cs.rtakeWhile isBlank, isBlank b := fun b hb => List.mem_rtakeWhile_imp hb
  have htrim : trim (.ofList (cs.rdropWhile isBlank ++ cs.rtakeWhile isBlank)) =
      trim (.ofList (cs.rdropWhile isBlank)) := trim_append_of_blanks hblank
  rw [List.rdropWhile_append_rtakeWhile] at htrim
  exact htrim.symm

@[simp] theorem trim_trim (s : String) : trim (trim s) = trim s := by
  have hfirst : trim (.ofList (s.toList.dropWhile isBlank)) = trim s := by
    rw [← String.toList_inj, toList_trim, toList_trim, String.toList_ofList,
      List.dropWhile_idempotent]
  exact (trim_rdropWhile _).trans hfirst

/-- A blank at the start has no say either. -/
theorem trim_cons_of_blank {b : Char} (h : isBlank b) (cs : List Char) :
    trim (.ofList (b :: cs)) = trim (.ofList cs) := by
  rw [← String.toList_inj, toList_trim, toList_trim, String.toList_ofList, String.toList_ofList,
    List.dropWhile_cons_of_pos h]

/-- The carriage return that belongs to a line's ending is blank. -/
theorem trim_dropReturn (line : List Char) :
    trim (.ofList (dropReturn '\r' line)) = trim (.ofList line) := by
  rw [dropReturn]
  split
  next hreturn =>
      obtain ⟨rest, rfl⟩ := List.getLast?_eq_some_iff.mp (beq_iff_eq.mp hreturn)
      rw [List.dropLast_concat]
      have hblank : ∀ b ∈ ['\r'], isBlank b := by
        intro b hb
        obtain rfl := List.mem_singleton.mp hb
        rfl
      exact (trim_append_of_blanks hblank).symm
  next => rfl

/-- A text that neither starts nor ends with a blank is left as it is. -/
theorem trim_eq_self {s : String} (hfirst : ∀ c ∈ s.toList.head?, ¬ isBlank c)
    (hlast : ∀ c ∈ s.toList.getLast?, ¬ isBlank c) : trim s = s := by
  rw [← String.toList_inj, toList_trim]
  have hstart : s.toList.dropWhile isBlank = s.toList := by
    cases hs : s.toList with
    | nil => rfl
    | cons c cs => exact List.dropWhile_cons_of_neg (hfirst c (by simp [hs]))
  rw [hstart, List.rdropWhile_eq_self_iff]
  exact fun hne => hlast _ (List.getLast?_eq_some_getLast hne)

end SpecExplorer.Text
