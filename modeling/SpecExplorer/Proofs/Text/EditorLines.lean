/-
# Positions as an editor reads them

An editor ends lines at a line feed, a carriage return, or both together, and nowhere else. It
finds a position by going to the line and then along the line, UTF-16 unit by unit. Five more
characters end a line for the positions that it is sent. So it gets back to the offset that a
position was made from as long as none of those five stands before, and lands further down
otherwise.

The proofs go through the text character by character, a carriage return with its line feed in one
step, and compare the place reached with the lines that the editor has gone past.
-/
import Mathlib.Algebra.GroupWithZero.Nat
import SpecExplorer.Proofs.Text.Places

namespace SpecExplorer

namespace Text

/-! ### The lines of an editor -/

/-- A line and what ends it, nothing for the last one. -/
structure EditorLine where
  text : List Char
  ending : List Char

def EditorLine.size (l : EditorLine) : Nat := String.utf8Len l.text + String.utf8Len l.ending

/-- Puts a character in front of the first line. -/
def prepend (c : Char) : List EditorLine → List EditorLine
  | [] => [⟨[c], []⟩]
  | l :: lines => { l with text := c :: l.text } :: lines

/-- The lines of a text. -/
def editorLines : List Char → List EditorLine
  | [] => [⟨[], []⟩]
  | '\r' :: '\n' :: rest => ⟨[], ['\r', '\n']⟩ :: editorLines rest
  | c :: rest =>
    if c = '\n' ∨ c = '\r' then ⟨[], [c]⟩ :: editorLines rest else prepend c (editorLines rest)

/-- How many bytes of a line come before a column. A column inside of a character stands for where
that starts, and one past the end of the line for the end. -/
def bytesBefore : Nat → List Char → Nat
  | _, [] => 0
  | column, c :: rest =>
    if column < units c then 0 else c.utf8Size + bytesBefore (column - units c) rest

/-- The byte offset of a line and a column, if there is such a line. -/
def offsetAt? (cs : List Char) (line column : Nat) : Option Nat :=
  let lines := editorLines cs
  lines[line]?.map fun l =>
    ((lines.take line).map EditorLine.size).sum + bytesBefore column l.text

/-- The characters that end a line for positions and stand inside one for an editor. -/
def innerBreaks : List Char := ['\u000b', '\u000c', '\u0085', '\u2028', '\u2029']

theorem map_add_eq_some {n m : Nat} {n? : Option Nat} :
    n?.map (n + ·) = some (n + m) ↔ n? = some m := by
  cases n? <;> simp

section Offsets

variable {cs rest : List Char} {c : Char} {line column : Nat}

theorem editorLines_of_ends (h : c = '\n' ∨ c = '\r')
    (hpair : ¬ (c = '\r' ∧ rest.head? = some '\n')) :
    editorLines (c :: rest) = ⟨[], [c]⟩ :: editorLines rest := by
  rw [editorLines, if_pos h]
  rintro rest' rfl rfl
  exact hpair ⟨rfl, rfl⟩

theorem editorLines_of_not_ends (h : ¬ (c = '\n' ∨ c = '\r')) :
    editorLines (c :: rest) = prepend c (editorLines rest) := by
  rw [editorLines, if_neg h]
  rintro rest' rfl rfl
  exact h (.inr rfl)

theorem editorLines_ne_nil (cs : List Char) : editorLines cs ≠ [] := by
  fun_cases editorLines cs with
  | case4 c rest =>
      unfold prepend
      split <;> exact nofun
  | case1 | case2 | case3 => exact nofun

/-- Past a line without text, the offset is that in the rest of the lines. -/
theorem offsetAt?_succ {ending : List Char}
    (h : editorLines cs = ⟨[], ending⟩ :: editorLines rest) :
    offsetAt? cs (line + 1) column =
      (offsetAt? rest line column).map (String.utf8Len ending + ·) := by
  unfold offsetAt?
  rw [h]
  simp only [List.getElem?_cons_succ, List.take_succ_cons, List.map_cons, List.sum_cons,
    Option.map_map]
  congr 1
  funext l
  simp [EditorLine.size, Nat.add_assoc]

/-- The first line starts where the text does. -/
theorem offsetAt?_zero_zero (cs : List Char) : offsetAt? cs 0 0 = some 0 := by
  obtain ⟨l, lines, h⟩ := List.exists_cons_of_ne_nil (editorLines_ne_nil cs)
  have hstart : bytesBefore 0 l.text = 0 := by
    cases l.text with
    | nil => rfl
    | cons c text =>
        rw [bytesBefore, if_pos]
        unfold units
        split <;> decide
  simp [offsetAt?, h, hstart]

/-- Inside of the first line, an offset moves on with each character. -/
theorem offsetAt?_prepend_zero (h : editorLines cs = prepend c (editorLines rest)) :
    offsetAt? cs 0 (units c + column) = (offsetAt? rest 0 column).map (c.utf8Size + ·) := by
  obtain ⟨l, lines, hrest⟩ := List.exists_cons_of_ne_nil (editorLines_ne_nil rest)
  simp [offsetAt?, h, hrest, prepend, bytesBefore]

theorem offsetAt?_prepend_zero_of_lt (h : editorLines cs = prepend c (editorLines rest))
    (hcolumn : column < units c) : offsetAt? cs 0 column = some 0 := by
  obtain ⟨l, lines, hrest⟩ := List.exists_cons_of_ne_nil (editorLines_ne_nil rest)
  simp [offsetAt?, h, hrest, prepend, bytesBefore, hcolumn]

theorem offsetAt?_prepend_succ (h : editorLines cs = prepend c (editorLines rest)) :
    offsetAt? cs (line + 1) column =
      (offsetAt? rest (line + 1) column).map (c.utf8Size + ·) := by
  obtain ⟨l, lines, hrest⟩ := List.exists_cons_of_ne_nil (editorLines_ne_nil rest)
  simp only [offsetAt?, h, hrest, prepend, List.getElem?_cons_succ, List.take_succ_cons,
    List.map_cons, List.sum_cons, Option.map_map, EditorLine.size, String.utf8Len_cons]
  congr 1
  funext l'
  simp only [Function.comp]
  omega

theorem offsetAt?_pair (line column : Nat) :
    offsetAt? ('\r' :: '\n' :: rest) (line + 1) column =
      (offsetAt? rest line column).map (2 + ·) := by
  have hlines : editorLines ('\r' :: '\n' :: rest) = ⟨[], ['\r', '\n']⟩ :: editorLines rest := by
    rw [editorLines]
  exact offsetAt?_succ hlines

theorem offsetAt?_of_ends (hends : c = '\n' ∨ c = '\r')
    (hpair : ¬ (c = '\r' ∧ rest.head? = some '\n')) (line column : Nat) :
    offsetAt? (c :: rest) (line + 1) column =
      (offsetAt? rest line column).map (c.utf8Size + ·) := by
  rw [offsetAt?_succ (editorLines_of_ends hends hpair), String.utf8Len_cons, String.utf8Len_nil,
    Nat.zero_add]

/-- No other line than the first starts where the text does. -/
theorem pos_of_offsetAt?_succ {offset : Nat} (h : offsetAt? cs (line + 1) column = some offset) :
    0 < offset := by
  obtain ⟨n, hn, rest, line', hrest⟩ : ∃ n, 0 < n ∧ ∃ rest line',
      offsetAt? cs (line + 1) column = (offsetAt? rest line' column).map (n + ·) := by
    fun_cases editorLines cs with
    | case1 => cases h
    | case2 rest => exact ⟨2, Nat.two_pos, rest, line, offsetAt?_pair line column⟩
    | case3 c rest hpair hends =>
        refine ⟨c.utf8Size, c.utf8Size_pos, rest, line, offsetAt?_of_ends hends ?_ line column⟩
        rintro ⟨rfl, hhead⟩
        obtain ⟨rest', rfl⟩ := List.head?_eq_some_iff.mp hhead
        exact hpair rest' rfl rfl
    | case4 c rest hpair hends =>
        exact ⟨c.utf8Size, c.utf8Size_pos, rest, line + 1,
          offsetAt?_prepend_succ (editorLines_of_not_ends hends)⟩
  rw [hrest] at h
  obtain ⟨offset', -, rfl⟩ := Option.map_eq_some_iff.mp h
  exact Nat.lt_of_lt_of_le hn (Nat.le_add_right n offset')

end Offsets

/-! ### The place between two parts of a text -/

namespace Place

/-- The start of a text. -/
def origin : Place := ⟨0, 0⟩

/-- The place that is reached by going on from `p` as `q` is reached from the origin. -/
def plus (p q : Place) : Place :=
  ⟨p.line + q.line, if q.line = 0 then p.column + q.column else q.column⟩

theorem plus_assoc (p q r : Place) : (p.plus q).plus r = p.plus (q.plus r) := by
  unfold plus
  grind

theorem after_eq_plus (p : Place) (c : Char) (rest : List Char) :
    p.after c rest = p.plus (origin.after c rest) := by
  unfold after
  split
  · rfl
  · simp [plus, origin]

theorem walk_eq_plus (p : Place) (offset : Nat) (cs : List Char) :
    p.walk offset cs = p.plus (origin.walk offset cs) := by
  induction cs generalizing p offset with
  | nil => rfl
  | cons c rest ih =>
      rw [walk, walk]
      split
      · rfl
      · rw [ih (p.after c rest), ih (origin.after c rest), ← plus_assoc, ← after_eq_plus]

/-- The place between a first and a second part of a text. -/
def between (before after : List Char) : Place :=
  origin.walk (String.utf8Len before) (before ++ after)

theorem between_nil (after : List Char) : between [] after = origin := by
  cases after with
  | nil => rfl
  | cons c rest => exact if_pos c.utf8Size_pos

theorem between_cons (c : Char) (before after : List Char) :
    between (c :: before) after =
      (origin.after c (before ++ after)).plus (between before after) := by
  rw [between, List.cons_append, walk, String.utf8Len_cons, if_neg (by omega),
    Nat.add_sub_cancel, walk_eq_plus]
  rfl

/-- A character that ends a line moves the place to the next one. -/
theorem between_cons_of_ends {c : Char} {before after : List Char}
    (h : isBreak c ∨ c = '\r' ∧ (before ++ after).head? ≠ some '\n') :
    between (c :: before) after =
      ⟨(between before after).line + 1, (between before after).column⟩ := by
  rw [between_cons, Place.after, if_pos (by simpa using h), plus]
  simp [origin, Nat.add_comm]

/-- Any other character moves the place along the first line. -/
theorem between_cons_of_not_ends {c : Char} {before after : List Char}
    (h : ¬ (isBreak c ∨ c = '\r' ∧ (before ++ after).head? ≠ some '\n')) :
    between (c :: before) after = plus ⟨0, units c⟩ (between before after) := by
  rw [between_cons, Place.after, if_neg (by simpa using h)]
  simp [origin]

end Place

theorem isBreak_iff {c : Char} : isBreak c ↔ c = '\n' ∨ c ∈ innerBreaks := by
  simp [isBreak, innerBreaks, ← Char.toNat_inj]
  omega

/-! ### There and back -/

/-- A text is cut between a carriage return and its line feed. -/
def CutsEnding (before after : List Char) : Prop :=
  before.getLast? = some '\r' ∧ after.head? = some '\n'

section BackAgain

variable {before after rest : List Char} {c : Char}

theorem CutsEnding.cons (h : CutsEnding rest after) : CutsEnding (c :: rest) after := by
  refine ⟨?_, h.2⟩
  rw [List.getLast?_cons, h.1]
  rfl

/-- A carriage return that is not followed by a line feed in its part of the text is not followed
by one at all. -/
theorem not_pair (hpair : ∀ rest', c = '\r' → rest = '\n' :: rest' → False)
    (hcut : ¬ CutsEnding (c :: rest) after) :
    ¬ (c = '\r' ∧ (rest ++ after).head? = some '\n') := by
  rintro ⟨rfl, hhead⟩
  cases rest with
  | nil => exact hcut ⟨rfl, hhead⟩
  | cons c' rest' =>
      obtain rfl : c' = '\n' := Option.some.inj hhead
      exact hpair rest' rfl rfl

theorem between_pair (rest after : List Char) :
    Place.between ('\r' :: '\n' :: rest) after =
      ⟨(Place.between rest after).line + 1, (Place.between rest after).column⟩ := by
  rw [Place.between_cons_of_not_ends, Place.between_cons_of_ends (.inl rfl)]
  · simp [Place.plus]
  · simp [isBreak]

theorem between_cons_of_lineEnd (hends : c = '\n' ∨ c = '\r')
    (hpair : ¬ (c = '\r' ∧ (rest ++ after).head? = some '\n')) :
    Place.between (c :: rest) after =
      ⟨(Place.between rest after).line + 1, (Place.between rest after).column⟩ := by
  refine Place.between_cons_of_ends ?_
  rcases hends with rfl | rfl
  · exact .inl rfl
  · exact .inr ⟨rfl, fun hhead => hpair ⟨rfl, hhead⟩⟩

theorem between_cons_of_inside (hends : ¬ (c = '\n' ∨ c = '\r')) (hinner : c ∉ innerBreaks) :
    Place.between (c :: rest) after = Place.plus ⟨0, units c⟩ (Place.between rest after) := by
  refine Place.between_cons_of_not_ends ?_
  rw [isBreak_iff]
  tauto

/-- Inside of its first line, a character moves an editor on as it does the place. -/
theorem offsetAt?_plus (hends : ¬ (c = '\n' ∨ c = '\r')) (q : Place) :
    offsetAt? (c :: rest) (Place.plus ⟨0, units c⟩ q).line (Place.plus ⟨0, units c⟩ q).column =
      (offsetAt? rest q.line q.column).map (c.utf8Size + ·) := by
  have hlines : editorLines (c :: rest) = prepend c (editorLines rest) :=
    editorLines_of_not_ends hends
  obtain ⟨line, column⟩ := q
  cases line with
  | zero => exact offsetAt?_prepend_zero hlines
  | succ line =>
      rw [Place.plus, Nat.zero_add]
      exact offsetAt?_prepend_succ hlines

/-- An editor that is further down than the first line, or past the first character of that, has
gone past that character. -/
theorem exists_offsetAt?_of_inside (hends : ¬ (c = '\n' ∨ c = '\r')) {line column offset : Nat}
    (h : offsetAt? (c :: rest) line column = some (offset + c.utf8Size)) :
    ∃ column', offsetAt? rest line column' = some offset := by
  have hlines : editorLines (c :: rest) = prepend c (editorLines rest) :=
    editorLines_of_not_ends hends
  rw [Nat.add_comm] at h
  cases line with
  | succ line =>
      rw [offsetAt?_prepend_succ hlines] at h
      exact ⟨column, map_add_eq_some.mp h⟩
  | zero =>
      by_cases hcolumn : column < units c
      · rw [offsetAt?_prepend_zero_of_lt hlines hcolumn] at h
        have hpos := c.utf8Size_pos
        have hzero := Option.some.inj h
        omega
      · obtain ⟨column, rfl⟩ := Nat.exists_eq_add_of_le (Nat.le_of_not_lt hcolumn)
        rw [offsetAt?_prepend_zero hlines] at h
        exact ⟨column, map_add_eq_some.mp h⟩

theorem offsetAt?_between (hcut : ¬ CutsEnding before after)
    (hinner : ∀ c ∈ before, c ∉ innerBreaks) :
    offsetAt? (before ++ after) (Place.between before after).line
      (Place.between before after).column = some (String.utf8Len before) := by
  induction before using editorLines.induct with
  | case1 =>
      rw [Place.between_nil]
      exact offsetAt?_zero_zero after
  | case2 rest ih =>
      have ih := ih (mt (fun h => h.cons.cons) hcut) fun c hc =>
        hinner c (List.mem_cons_of_mem _ (List.mem_cons_of_mem _ hc))
      rw [between_pair, List.cons_append, List.cons_append, offsetAt?_pair, ih, Option.map_some]
      exact congrArg some (Nat.add_comm 2 _)
  | case3 c rest hpair hends ih =>
      have hpair := not_pair hpair hcut
      have ih := ih (mt CutsEnding.cons hcut) fun c hc => hinner c (List.mem_cons_of_mem _ hc)
      rw [between_cons_of_lineEnd hends hpair, List.cons_append, offsetAt?_of_ends hends hpair, ih,
        Option.map_some, String.utf8Len_cons, Nat.add_comm]
  | case4 c rest hpair hends ih =>
      have ih := ih (mt CutsEnding.cons hcut) fun c hc => hinner c (List.mem_cons_of_mem _ hc)
      have hlines : editorLines (c :: (rest ++ after)) = prepend c (editorLines (rest ++ after)) :=
        editorLines_of_not_ends hends
      rw [between_cons_of_inside hends (hinner c List.mem_cons_self), List.cons_append,
        offsetAt?_plus hends, ih, Option.map_some, String.utf8Len_cons, Nat.add_comm]

/-- If an editor comes back to where a text was cut, on a line as far down at least, then it is on
that very line, and no other character than those it knows has ended a line before. -/
theorem eq_line_of_offsetAt? (hcut : ¬ CutsEnding before after) {line column : Nat}
    (hle : (Place.between before after).line ≤ line)
    (h : offsetAt? (before ++ after) line column = some (String.utf8Len before)) :
    line = (Place.between before after).line ∧ ∀ c ∈ before, c ∉ innerBreaks := by
  induction before using editorLines.induct generalizing line column with
  | case1 =>
      rw [Place.between_nil]
      refine ⟨?_, nofun⟩
      cases line with
      | zero => rfl
      | succ line => exact absurd (pos_of_offsetAt?_succ h) (Nat.lt_irrefl 0)
  | case2 rest ih =>
      rw [between_pair] at hle ⊢
      obtain ⟨line, rfl⟩ := Nat.exists_eq_add_of_le' (Nat.le_trans (Nat.le_add_left 1 _) hle)
      rw [List.cons_append, List.cons_append, offsetAt?_pair] at h
      rw [String.utf8Len_cons, String.utf8Len_cons, Nat.add_assoc, Nat.add_comm] at h
      obtain ⟨hline, hrest⟩ := ih (mt (fun h => h.cons.cons) hcut) (Nat.le_of_add_le_add_right hle)
        (map_add_eq_some.mp h)
      refine ⟨congrArg (· + 1) hline, ?_⟩
      exact List.forall_mem_cons.mpr ⟨by decide, List.forall_mem_cons.mpr ⟨by decide, hrest⟩⟩
  | case3 c rest hpair hends ih =>
      have hpair := not_pair hpair hcut
      rw [between_cons_of_lineEnd hends hpair] at hle ⊢
      obtain ⟨line, rfl⟩ := Nat.exists_eq_add_of_le' (Nat.le_trans (Nat.le_add_left 1 _) hle)
      rw [List.cons_append, offsetAt?_of_ends hends hpair, String.utf8Len_cons, Nat.add_comm] at h
      obtain ⟨hline, hrest⟩ := ih (mt CutsEnding.cons hcut) (Nat.le_of_add_le_add_right hle)
        (map_add_eq_some.mp h)
      refine ⟨congrArg (· + 1) hline, List.forall_mem_cons.mpr ⟨?_, hrest⟩⟩
      rcases hends with rfl | rfl <;> decide
  | case4 c rest hpair hends ih =>
      rw [List.cons_append, String.utf8Len_cons] at h
      obtain ⟨column', h⟩ := exists_offsetAt?_of_inside hends h
      by_cases hinner : c ∈ innerBreaks
      · -- the place goes down a line, the editor does not, and further on it never falls behind
        rw [Place.between_cons_of_ends (.inl (isBreak_iff.mpr (.inr hinner)))] at hle
        have hline := (ih (mt CutsEnding.cons hcut) (Nat.le_of_succ_le hle) h).1
        dsimp only at hle
        omega
      · rw [between_cons_of_inside hends hinner, Place.plus, Nat.zero_add] at hle ⊢
        obtain ⟨hline, hrest⟩ := ih (mt CutsEnding.cons hcut) hle h
        exact ⟨hline, List.forall_mem_cons.mpr ⟨hinner, hrest⟩⟩

end BackAgain

/-- An editor comes back to where a text was cut if and only if none of the other characters that
end a line stands before. -/
theorem offsetAt?_between_iff {before after : List Char} (hcut : ¬ CutsEnding before after) :
    offsetAt? (before ++ after) (Place.between before after).line
        (Place.between before after).column = some (String.utf8Len before) ↔
      ∀ c ∈ before, c ∉ innerBreaks :=
  ⟨fun h => (eq_line_of_offsetAt? hcut (Nat.le_refl _) h).2, offsetAt?_between hcut⟩

theorem placeOf_append (before after : String) :
    placeOf (before ++ after) before.utf8ByteSize =
      Place.between before.toList after.toList := by
  rw [placeOf, Place.between, String.toList_append, ← String.utf8ByteSize_ofList,
    String.ofList_toList]
  rfl

end Text

namespace Position

open Text

/-- The byte offset that an editor finds for a position of a text. -/
def resolve? (content : String) (p : Position) : Option Nat :=
  offsetAt? content.toList p.line.toNat p.character.toNat

/-- Wherever a text is cut, but not inside of a line ending, an editor that is sent the position
of the cut comes back to it if and only if no vertical tab, form feed, next line, line separator
or paragraph separator stands before. -/
theorem editor_comes_back_iff (before after : String)
    (hcut : ¬ CutsEnding before.toList after.toList)
    (hfits : (placeOf (before ++ after) before.utf8ByteSize).Fits) :
    resolve? (before ++ after) (ofOffset (before ++ after) before.utf8ByteSize) =
        some before.utf8ByteSize ↔
      ∀ c ∈ before.toList, c ∉ innerBreaks := by
  rw [resolve?, ofOffset, toNat_line_ofPlace hfits, toNat_character_ofPlace hfits, placeOf_append,
    String.toList_append, ← offsetAt?_between_iff hcut, ← String.utf8ByteSize_ofList,
    String.ofList_toList]

/-- A text with all sorts of line endings and wide characters, up to where a line separator
stands. -/
theorem editor_comes_back_iff_separator :
    ¬ CutsEnding "é\r\n\r😀".toList "\u2028x".toList ∧
      (placeOf ("é\r\n\r😀" ++ "\u2028x") ("é\r\n\r😀" : String).utf8ByteSize).Fits ∧
      resolve? ("é\r\n\r😀" ++ "\u2028x")
          (ofOffset ("é\r\n\r😀" ++ "\u2028x") ("é\r\n\r😀" : String).utf8ByteSize) =
        some ("é\r\n\r😀" : String).utf8ByteSize := by
  have hcut : ¬ CutsEnding "é\r\n\r😀".toList "\u2028x".toList := by
    rintro ⟨-, hhead⟩
    revert hhead
    decide
  have hsize : ("é\r\n\r😀" ++ "\u2028x").utf8ByteSize < 2 ^ 32 := by decide
  have hfits := fits_of_size_lt hsize ("é\r\n\r😀" : String).utf8ByteSize
  exact ⟨hcut, hfits, (editor_comes_back_iff _ _ hcut hfits).mpr (by simp [innerBreaks])⟩

/-- After a vertical tab the editor is sent to the next line. -/
theorem vertical_tab_misleads_editor :
    ofOffset "a\u000bb\nc" 2 = ⟨1, 0⟩ ∧ resolve? "a\u000bb\nc" ⟨0, 2⟩ = some 2 ∧
      resolve? "a\u000bb\nc" (ofOffset "a\u000bb\nc" 2) = some 4 := by
  decide

end Position

end SpecExplorer
