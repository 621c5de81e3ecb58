/-
# Reading line by line

A reader takes one line after the other off the bytes that a run prints, tells what it is, and
counts the records as it goes. What it has told and what is still due are at all times the events
of the whole stream, and its count and the records still due are those of the whole stream. So in
the end every line is told by an event of its own, whatever the other lines hold.
-/
import Mathlib.Data.List.TakeWhile
import SpecExplorer.Proofs.Text.Lines
import SpecExplorer.Run.Stream

namespace SpecExplorer

namespace RunEvent

/-- The next line of a byte stream as it is shown, and the bytes after it. -/
def nextLine? (bytes : List UInt8) : Option (String × List UInt8) :=
  let line := bytes.takeWhile (· != 0x0A)
  match bytes.dropWhile (· != 0x0A) with
  | _ :: rest => some (Text.fromUtf8Lossy (Text.dropReturn 0x0D line), rest)
  | [] => if bytes = [] then none else some (Text.fromUtf8Lossy line, [])

theorem forall_bne_of_not_mem {line : List UInt8} (h : 0x0A ∉ line) :
    ∀ b ∈ line, (b != 0x0A) = true := by
  intro b hb
  rw [bne_iff_ne]
  exact fun heq => h (heq ▸ hb)

theorem nextLine?_line {line : List UInt8} (h : 0x0A ∉ line) (rest : List UInt8) :
    nextLine? (line ++ 0x0A :: rest) =
      some (Text.fromUtf8Lossy (Text.dropReturn 0x0D line), rest) := by
  have hline := forall_bne_of_not_mem h
  rw [nextLine?, List.dropWhile_append_of_pos hline, List.takeWhile_append_of_pos hline]
  simp

theorem nextLine?_last {line : List UInt8} (h : 0x0A ∉ line) (hne : line ≠ []) :
    nextLine? line = some (Text.fromUtf8Lossy line, []) := by
  have hline := forall_bne_of_not_mem h
  rw [nextLine?, List.dropWhile_eq_nil_iff.mpr hline, List.takeWhile_eq_self_iff.mpr hline]
  simp [hne]

/-- Taking the next line off a stream takes the first one off its lines. -/
theorem linesOf_of_nextLine? {bytes rest : List UInt8} {line : String}
    (h : nextLine? bytes = some (line, rest)) :
    linesOf bytes = line :: linesOf rest ∧ rest.length < bytes.length := by
  by_cases hlf : 0x0A ∈ bytes
  · obtain ⟨first, after, rfl, hfirst⟩ := List.eq_append_cons_of_mem hlf
    rw [nextLine?_line hfirst] at h
    cases h
    refine ⟨?_, by rw [List.length_append, List.length_cons]; omega⟩
    rw [linesOf, Text.linesBy_line hfirst]
    rfl
  · by_cases hnil : bytes = []
    · subst hnil
      cases h
    · rw [nextLine?_last hlf hnil] at h
      cases h
      refine ⟨?_, List.length_pos_iff.mpr hnil⟩
      rw [linesOf, Text.linesBy_last hlf, if_neg hnil]
      rfl

theorem nextLine?_eq_none {bytes : List UInt8} (h : nextLine? bytes = none) : bytes = [] := by
  by_cases hlf : 0x0A ∈ bytes
  · obtain ⟨first, after, rfl, hfirst⟩ := List.eq_append_cons_of_mem hlf
    rw [nextLine?_line hfirst] at h
    cases h
  · by_contra hne
    rw [nextLine?_last hlf hne] at h
    cases h

end RunEvent

open RunEvent

/-- A stream that is being read: the bytes that are left, and the records counted so far. -/
structure LineReader where
  rest : List UInt8
  records : Nat

namespace LineReader

/-- Reads the next line, which `tell` makes an event of. -/
def next? (tell : String → RunEvent) (r : LineReader) : Option (RunEvent × LineReader) :=
  (nextLine? r.rest).map fun (line, rest) =>
    (tell line, ⟨rest, if (tell line).isRecord then r.records + 1 else r.records⟩)

/-- The events that are still due. -/
def due (tell : String → RunEvent) (r : LineReader) : List RunEvent := (linesOf r.rest).map tell

/-- What the reader will have counted in the end. -/
def total (tell : String → RunEvent) (r : LineReader) : Nat :=
  r.records + countRecords (r.due tell)

variable {tell : String → RunEvent} {r s : LineReader} {event : RunEvent}

/-- A line that is read is the first one due, and the count in the end stays the same. -/
theorem due_of_next? (h : r.next? tell = some (event, s)) :
    r.due tell = event :: s.due tell ∧ s.total tell = r.total tell ∧
      s.rest.length < r.rest.length := by
  obtain ⟨⟨line, rest⟩, hline, heq⟩ := Option.map_eq_some_iff.mp h
  cases heq
  obtain ⟨hlines, hlength⟩ := linesOf_of_nextLine? hline
  have hdue : r.due tell = tell line :: (linesOf rest).map tell := by
    rw [due, hlines, List.map_cons]
  refine ⟨hdue, ?_, hlength⟩
  rw [total, total, hdue, countRecords, countRecords, List.countP_cons]
  by_cases hrecord : (tell line).isRecord
  · rw [if_pos hrecord, if_pos hrecord]
    exact Nat.add_right_comm _ _ _
  · rw [if_neg hrecord, if_neg hrecord]
    rfl

/-- At the end of the stream nothing is due. -/
theorem due_of_end (h : r.next? tell = none) :
    r.due tell = [] ∧ r.total tell = r.records := by
  have hrest : r.rest = [] := nextLine?_eq_none (Option.map_eq_none_iff.mp h)
  have hdue : r.due tell = [] := by
    rw [due, hrest]
    rfl
  exact ⟨hdue, by rw [total, hdue]; rfl⟩

/-- What is due first can be read next. -/
theorem exists_next? {events : List RunEvent} (h : r.due tell = event :: events) :
    ∃ s, r.next? tell = some (event, s) ∧ s.due tell = events := by
  cases hnext : r.next? tell with
  | none =>
      rw [(due_of_end hnext).1] at h
      cases h
  | some p =>
      obtain ⟨first, s⟩ := p
      obtain ⟨rfl, rfl⟩ := List.cons.inj ((due_of_next? hnext).1.symm.trans h)
      exact ⟨s, rfl, rfl⟩

/-- Where nothing is due, the stream is at its end. -/
theorem next?_eq_none_of_due (h : r.due tell = []) : r.next? tell = none := by
  cases hnext : r.next? tell with
  | none => rfl
  | some p =>
      rw [(due_of_next? hnext).1] at h
      cases h

/-- Reads to the end of the stream. -/
def readAll (tell : String → RunEvent) (r : LineReader) : List RunEvent × Nat :=
  match h : r.next? tell with
  | none => ([], r.records)
  | some (event, s) =>
    have := (due_of_next? h).2.2
    let (events, records) := readAll tell s
    (event :: events, records)
termination_by r.rest.length

/-- Reading to the end tells what is due. -/
theorem readAll_eq (tell : String → RunEvent) (r : LineReader) :
    r.readAll tell = (r.due tell, r.total tell) := by
  fun_induction readAll tell r with
  | case1 r h =>
      obtain ⟨hdue, htotal⟩ := due_of_end h
      rw [hdue, htotal]
  | case2 r event s h hlength events records hread ih =>
      obtain ⟨hdue, htotal, -⟩ := due_of_next? h
      rw [hread] at ih
      obtain ⟨rfl, rfl⟩ := Prod.mk.inj ih
      rw [hdue, htotal]

end LineReader

namespace RunEvent

/-- Reads what a run prints on its standard output: the events, and how many records there were. -/
def readStdout (bytes : List UInt8) : List RunEvent × Nat := LineReader.readAll ofLine ⟨bytes, 0⟩

theorem readStdout_eq (bytes : List UInt8) :
    readStdout bytes = (ofStdout bytes, countRecords (ofStdout bytes)) := by
  rw [readStdout, LineReader.readAll_eq, LineReader.total, Nat.zero_add]
  rfl

theorem readStdout_fst (bytes : List UInt8) : (readStdout bytes).1 = ofStdout bytes := by
  rw [readStdout_eq]

/-- What follows a line feed is told by itself. -/
theorem ofStdout_append (a b : List UInt8) :
    ofStdout (a ++ 0x0A :: b) = ofStdout (a ++ [0x0A]) ++ ofStdout b := by
  rw [ofStdout, linesOf, Text.linesBy_append, List.map_append, List.map_append]
  rfl

/-- The event of a finished line, which may end in a carriage return. -/
def ofFinishedLine (line : List UInt8) : RunEvent :=
  ofLine (Text.fromUtf8Lossy (Text.dropReturn 0x0D line))

/-- Each finished line is told by one event, which the bytes of that line alone decide, and what is
left after the last line feed by one more. -/
theorem ofStdout_flatMap {lines : List (List UInt8)} (hlines : ∀ line ∈ lines, 0x0A ∉ line)
    {last : List UInt8} (hlast : 0x0A ∉ last) :
    ofStdout (lines.flatMap (· ++ [0x0A]) ++ last) =
      lines.map ofFinishedLine ++
        if last = [] then [] else [ofLine (Text.fromUtf8Lossy last)] := by
  rw [ofStdout, linesOf, Text.linesBy_flatMap hlines hlast, List.map_append, List.map_append,
    List.map_map, List.map_map]
  have hfinished : lines.map ((ofLine ∘ Text.fromUtf8Lossy) ∘ Text.dropReturn 0x0D) =
      lines.map ofFinishedLine :=
    List.map_congr_left fun line _ => by
      rw [Function.comp_apply, Function.comp_apply, ofFinishedLine]
  rw [hfinished]
  by_cases hnil : last = []
  · rw [if_pos hnil, if_pos hnil, List.map_nil, List.map_nil]
  · rw [if_neg hnil, if_neg hnil, List.map_singleton, List.map_singleton]

/-- What follows a line feed is told as if it were alone, and the count is that of the records
told. So there is one event for each line, in order, and no line has a say in how another one is
told. -/
theorem lines_are_told_apart (a b : List UInt8) :
    (readStdout (a ++ 0x0A :: b)).1 = (readStdout (a ++ [0x0A])).1 ++ (readStdout b).1 ∧
      (∀ bytes, (readStdout bytes).1 = ofStdout bytes ∧
        (readStdout bytes).2 = (readStdout bytes).1.countP isRecord) ∧
      (∀ bytes, ∃ (lines : List (List UInt8)) (last : List UInt8), (∀ line ∈ lines, 0x0A ∉ line) ∧
        0x0A ∉ last ∧ bytes = lines.flatMap (· ++ [0x0A]) ++ last) ∧
      ∀ (lines : List (List UInt8)) (last : List UInt8), (∀ line ∈ lines, 0x0A ∉ line) →
        0x0A ∉ last → (readStdout (lines.flatMap (· ++ [0x0A]) ++ last)).1 =
          lines.map ofFinishedLine ++
            if last = [] then [] else [ofLine (Text.fromUtf8Lossy last)] := by
  refine ⟨?_, fun bytes => ?_, Text.exists_eq_flatMap, fun lines last hlines hlast => ?_⟩
  · rw [readStdout_fst, readStdout_fst, readStdout_fst, ofStdout_append]
  · rw [readStdout_eq]
    exact ⟨rfl, rfl⟩
  · rw [readStdout_fst, ofStdout_flatMap hlines hlast]

/-- A line that only looks like a record, one with two bytes that are no text and a carriage
return before its line feed, and the start of a character with which the stream breaks off. -/
def brokenBytes : List UInt8 := [0x7B, 0x0A, 0x61, 0xFF, 0xFE, 0x0D, 0x0A, 0xE6, 0x97]

theorem lines_are_told_apart_broken :
    (∀ line ∈ [[0x7B], [0x61, 0xFF, 0xFE, 0x0D]], (0x0A : UInt8) ∉ line) ∧
      (0x0A : UInt8) ∉ [0xE6, 0x97] ∧
      (readStdout brokenBytes).1 =
        [.malformed ⟨.unreadable, "\x7b"⟩, .output "a\ufffd\ufffd", .output "\ufffd"] ∧
      (readStdout brokenBytes).2 = 0 := by
  have hlines : ∀ line ∈ [[0x7B], [0x61, 0xFF, 0xFE, 0x0D]], (0x0A : UInt8) ∉ line := by decide
  have hlast : (0x0A : UInt8) ∉ [0xE6, 0x97] := by decide
  obtain ⟨-, hcount, -, htold⟩ := lines_are_told_apart brokenBytes []
  have hevents : (readStdout brokenBytes).1 = _ := htold _ _ hlines hlast
  have hshown : [[0x7B], [0x61, 0xFF, 0xFE, 0x0D]].map ofFinishedLine ++
      [ofLine (Text.fromUtf8Lossy [0xE6, 0x97])] =
        [.malformed ⟨.unreadable, "\x7b"⟩, .output "a\ufffd\ufffd", .output "\ufffd"] := by
    decide +kernel
  refine ⟨hlines, hlast, hevents.trans hshown, ?_⟩
  rw [(hcount brokenBytes).2, hevents.trans hshown]
  rfl

end RunEvent

end SpecExplorer
