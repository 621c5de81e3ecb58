/-
# Cutting into lines

A list of elements is cut at its line feeds, and every piece is a line by itself: what stands
before a line feed has no say in what comes after it. So a list that is put together from finished
lines, and perhaps one more that is not finished, is cut into just these.
-/
import SpecExplorer.Text.Line

namespace SpecExplorer.Text

variable {α : Type} [BEq α] [LawfulBEq α] {lf : α} {cr : α}

/-- Elements without a line feed are added to the line under way. -/
theorem linesFrom_append_of_not_mem {line : List α} (h : lf ∉ line) (current rest : List α) :
    linesFrom lf cr current (line ++ rest) = linesFrom lf cr (line.reverse ++ current) rest := by
  induction line generalizing current with
  | nil => rfl
  | cons c line ih =>
      obtain ⟨hc, hline⟩ := List.ne_and_not_mem_of_not_mem_cons h
      rw [List.cons_append, linesFrom, if_neg (by simpa using hc.symm), ih hline]
      simp

/-- A finished line comes first, without its ending. -/
theorem linesBy_line {line : List α} (h : lf ∉ line) (rest : List α) :
    linesBy lf cr (line ++ lf :: rest) = dropReturn cr line :: linesBy lf cr rest := by
  rw [linesBy, linesFrom_append_of_not_mem h, linesFrom, if_pos (beq_self_eq_true lf)]
  simp [linesBy]

/-- What is not finished is a line of its own, unless there is nothing. -/
theorem linesBy_last {line : List α} (h : lf ∉ line) :
    linesBy lf cr line = if line = [] then [] else [line] := by
  have hcut : linesFrom lf cr [] (line ++ []) = _ := linesFrom_append_of_not_mem h [] []
  rw [List.append_nil, List.append_nil] at hcut
  rw [linesBy, hcut, linesFrom]
  simp

/-- Finished lines, and perhaps one that is not finished, are cut into just these. -/
theorem linesBy_flatMap {lines : List (List α)} (hlines : ∀ line ∈ lines, lf ∉ line)
    {last : List α} (hlast : lf ∉ last) :
    linesBy lf cr (lines.flatMap (· ++ [lf]) ++ last) =
      lines.map (dropReturn cr) ++ if last = [] then [] else [last] := by
  induction lines with
  | nil => exact linesBy_last hlast
  | cons line rest ih =>
      obtain ⟨hline, hrest⟩ := List.forall_mem_cons.mp hlines
      rw [List.flatMap_cons, List.append_assoc, List.append_assoc, List.singleton_append,
        linesBy_line hline, ih hrest, List.map_cons, List.cons_append]

omit [BEq α] [LawfulBEq α] in
/-- Every list of elements is put together from finished lines and one that is not finished. -/
theorem exists_eq_flatMap (cs : List α) : ∃ (lines : List (List α)) (last : List α),
    (∀ line ∈ lines, lf ∉ line) ∧ lf ∉ last ∧ cs = lines.flatMap (· ++ [lf]) ++ last := by
  induction cs with
  | nil => exact ⟨[], [], nofun, List.not_mem_nil, rfl⟩
  | cons c cs ih =>
      obtain ⟨lines, last, hlines, hlast, rfl⟩ := ih
      by_cases hc : c = lf
      · exact ⟨[] :: lines, last, by simpa using hlines, hlast, by simp [hc]⟩
      cases lines with
      | nil => exact ⟨[], c :: last, nofun, by simp [hlast, Ne.symm hc], rfl⟩
      | cons line rest =>
          refine ⟨(c :: line) :: rest, last, ?_, hlast, rfl⟩
          simpa [Ne.symm hc] using hlines

/-- What follows a line feed is cut by itself, whatever line is under way. -/
theorem linesFrom_append (current cs ds : List α) :
    linesFrom lf cr current (cs ++ lf :: ds) =
      linesFrom lf cr current (cs ++ [lf]) ++ linesBy lf cr ds := by
  induction cs generalizing current with
  | nil => simp [linesFrom, linesBy]
  | cons c cs ih =>
      rw [List.cons_append, List.cons_append, linesFrom, linesFrom]
      split
      · rw [ih, List.cons_append]
      · rw [ih]

theorem linesBy_append (cs ds : List α) :
    linesBy lf cr (cs ++ lf :: ds) = linesBy lf cr (cs ++ [lf]) ++ linesBy lf cr ds :=
  linesFrom_append [] cs ds

end SpecExplorer.Text
