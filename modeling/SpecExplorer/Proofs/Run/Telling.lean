/-
# How a run is told

Both channels of a process are read side by side, and each line is told as soon as it is there. Only
when both are at their end and the process has ended is it known whether any record was printed. If
not, the report that it left is told, and the exit comes last of all. The events that are due at a
stage of this are weaves of what the two readers have due, followed by the closing that the count
of records will ask for, and every step tells the first event of one of them.
-/
import SpecExplorer.Proofs.Run.Reading
import SpecExplorer.Proofs.Run.Reported
import SpecExplorer.Proofs.Run.Scope
import SpecExplorer.Proofs.Text.ReadBack
import SpecExplorer.Tool.Machine

namespace SpecExplorer

/-- Two lists woven into one, each in its own order. -/
inductive Woven {α : Type} : List α → List α → List α → Prop
  | nil : Woven [] [] []
  | left {a : α} {as bs all : List α} (rest : Woven as bs all) : Woven (a :: as) bs (a :: all)
  | right {b : α} {as bs all : List α} (rest : Woven as bs all) : Woven as (b :: bs) (b :: all)

namespace Woven

variable {α : Type} {as bs all : List α}

theorem append (as bs : List α) : Woven as bs (as ++ bs) := by
  induction as with
  | nil =>
      induction bs with
      | nil => exact .nil
      | cons b bs ih => exact ih.right
  | cons a as ih => exact ih.left

theorem filter (p : α → Bool) (h : Woven as bs all) :
    Woven (as.filter p) (bs.filter p) (all.filter p) := by
  induction h with
  | nil => exact .nil
  | @left a _ _ _ _ ih =>
      by_cases ha : p a
      · rw [List.filter_cons_of_pos ha, List.filter_cons_of_pos ha]
        exact ih.left
      · rwa [List.filter_cons_of_neg ha, List.filter_cons_of_neg ha]
  | @right b _ _ _ _ ih =>
      by_cases hb : p b
      · rw [List.filter_cons_of_pos hb, List.filter_cons_of_pos hb]
        exact ih.right
      · rwa [List.filter_cons_of_neg hb, List.filter_cons_of_neg hb]

theorem eq_of_nil_right (h : Woven as [] all) : all = as := by
  generalize hbs : ([] : List α) = bs at h
  induction h with
  | nil => rfl
  | left _ ih => rw [ih hbs]
  | right => cases hbs

end Woven

/-- What is known of a process once it has ended: its status, unless waiting for it failed, and the
bytes of the report that it left, if there is one. -/
structure ProcessEnd where
  status : Option ExitStatus
  report : Option (List UInt8)

namespace ProcessEnd

/-- The event of the exit. -/
def exit (e : ProcessEnd) : RunEvent :=
  match e.status with
  | some status => .exited status.success (status.code?.map Int.ofNat)
  | none => .exited false none

/-- The events of the report. Bytes that are no text count as no report. -/
def reported (e : ProcessEnd) : List RunEvent :=
  Machine.reportEvents (e.report.bind Text.fromUtf8?)

/-- What is told when both channels are at their end, by the number of records that were printed. -/
def closing (e : ProcessEnd) (records : Nat) : List RunEvent :=
  (if records = 0 then e.reported else []) ++ [e.exit]

end ProcessEnd

/-- How far a run has come. -/
inductive RunStage where
  | /-- Nothing is told yet of what the process prints. -/
    starting (out err : List UInt8)
  | /-- Both channels are being read. -/
    reading (out err : LineReader)
  | /-- The process has ended, and some events are left to tell. -/
    closing (left : List RunEvent)

namespace RunStage

open RunEvent

/-- A step of a run, with the event that it tells. While both channels have lines, either may be
read next. -/
inductive Step (e : ProcessEnd) : RunStage → Option RunEvent → RunStage → Prop
  | started (out err : List UInt8) :
      Step e (.starting out err) (some .started) (.reading ⟨out, 0⟩ ⟨err, 0⟩)
  | printed {out out' : LineReader} {event : RunEvent} (err : LineReader)
      (hline : out.next? ofLine = some (event, out')) :
      Step e (.reading out err) (some event) (.reading out' err)
  | warned {err err' : LineReader} {event : RunEvent} (out : LineReader)
      (hline : err.next? .output = some (event, err')) :
      Step e (.reading out err) (some event) (.reading out err')
  | ended {out err : LineReader} (hout : out.next? ofLine = none)
      (herr : err.next? .output = none) :
      Step e (.reading out err) none (.closing (e.closing out.records))
  | told (event : RunEvent) (left : List RunEvent) :
      Step e (.closing (event :: left)) (some event) (.closing left)

/-- From one stage to another, some events are told. -/
inductive Tells (e : ProcessEnd) : RunStage → List RunEvent → RunStage → Prop
  | refl (s : RunStage) : Tells e s [] s
  | step {s s' s'' : RunStage} {event : Option RunEvent} {events : List RunEvent}
      (first : Step e s event s') (rest : Tells e s' events s'') :
      Tells e s (event.toList ++ events) s''

/-- Events that may be told from a stage to the end of the run. -/
def Due (e : ProcessEnd) (events : List RunEvent) : RunStage → Prop
  | .starting out err => ∃ printed, Woven (ofStdout out) (ofStderr err) printed ∧
      events = .started :: (printed ++ e.closing (countRecords (ofStdout out)))
  | .reading out err => ∃ printed, Woven (out.due ofLine) (err.due .output) printed ∧
      events = printed ++ e.closing (out.total ofLine)
  | .closing left => events = left

variable {e : ProcessEnd} {s s' : RunStage} {events : List RunEvent}

/-- What a step tells comes before what is due after it. -/
theorem Step.due {event : Option RunEvent} (h : Step e s event s') (hdue : s'.Due e events) :
    s.Due e (event.toList ++ events) := by
  cases h with
  | started out err =>
      obtain ⟨printed, hwoven, rfl⟩ := hdue
      refine ⟨printed, hwoven, ?_⟩
      rw [LineReader.total, Nat.zero_add]
      rfl
  | printed err hline =>
      obtain ⟨printed, hwoven, rfl⟩ := hdue
      obtain ⟨hout, htotal, -⟩ := LineReader.due_of_next? hline
      exact ⟨_ :: printed, hout ▸ hwoven.left, by rw [htotal]; rfl⟩
  | warned out hline =>
      obtain ⟨printed, hwoven, rfl⟩ := hdue
      obtain ⟨herr, -⟩ := LineReader.due_of_next? hline
      exact ⟨_ :: printed, herr ▸ hwoven.right, rfl⟩
  | ended hout herr =>
      obtain rfl := hdue
      obtain ⟨hnone, htotal⟩ := LineReader.due_of_end hout
      refine ⟨[], ?_, by rw [htotal]; rfl⟩
      rw [hnone, (LineReader.due_of_end herr).1]
      exact .nil
  | told event left =>
      obtain rfl := hdue
      rfl

/-- Whatever is told to the end of a run was due. -/
theorem Tells.due (h : Tells e s events (.closing [])) : s.Due e events := by
  generalize hlast : RunStage.closing [] = last at h
  induction h with
  | refl => subst hlast; rfl
  | step first _ ih => exact first.due (ih hlast)

theorem tells_closing (left : List RunEvent) : Tells e (.closing left) left (.closing []) := by
  induction left with
  | nil => exact .refl _
  | cons event left ih => exact .step (.told event left) ih

/-- Whichever way the lines that are due are woven, they can be read so. -/
theorem tells_reading {out err : LineReader} {printed : List RunEvent}
    (h : Woven (out.due ofLine) (err.due .output) printed) :
    Tells e (.reading out err) (printed ++ e.closing (out.total ofLine)) (.closing []) := by
  generalize hout : out.due ofLine = as at h
  generalize herr : err.due .output = bs at h
  induction h generalizing out err with
  | nil =>
      have hend := LineReader.next?_eq_none_of_due hout
      have hend' := LineReader.next?_eq_none_of_due herr
      rw [(LineReader.due_of_end hend).2]
      exact .step (.ended hend hend') (tells_closing _)
  | left _ ih =>
      obtain ⟨out', hline, hdue⟩ := LineReader.exists_next? hout
      obtain ⟨-, htotal, -⟩ := LineReader.due_of_next? hline
      rw [← htotal]
      exact .step (.printed err hline) (ih hdue herr)
  | right _ ih =>
      obtain ⟨err', hline, hdue⟩ := LineReader.exists_next? herr
      exact .step (.warned out hline) (ih hout hdue)

/-- Whatever is due can be told. -/
theorem tells_of_due (h : s.Due e events) : Tells e s events (.closing []) := by
  cases s with
  | starting out err =>
      obtain ⟨printed, hwoven, rfl⟩ := h
      have hreading : Tells e (.reading ⟨out, 0⟩ ⟨err, 0⟩) _ _ := tells_reading hwoven
      rw [LineReader.total, Nat.zero_add] at hreading
      exact .step (.started out err) hreading
  | reading out err =>
      obtain ⟨printed, hwoven, rfl⟩ := h
      exact tells_reading hwoven
  | closing left =>
      obtain rfl := h
      exact tells_closing _

/-- Some events are due at every stage. -/
theorem exists_due (e : ProcessEnd) (s : RunStage) : ∃ events, s.Due e events := by
  cases s with
  | starting out err => exact ⟨_, _, .append _ _, rfl⟩
  | reading out err => exact ⟨_, _, .append _ _, rfl⟩
  | closing left => exact ⟨left, rfl⟩

end RunStage

open RunEvent RunSession

/-- The events of a whole run of a process that prints `out` and `err`. -/
def Told (e : ProcessEnd) (out err : List UInt8) (events : List RunEvent) : Prop :=
  RunStage.Tells e (.starting out err) events (.closing [])

theorem told_iff {e : ProcessEnd} {out err : List UInt8} {events : List RunEvent} :
    Told e out err events ↔ ∃ printed, Woven (ofStdout out) (ofStderr err) printed ∧
      events = .started :: (printed ++ e.closing (countRecords (ofStdout out))) :=
  ⟨fun h => RunStage.Tells.due h,
    fun h => RunStage.tells_of_due (s := .starting out err) h⟩

/-! ### Exits and records among the events -/

theorem isExit_ofLine (line : String) : isExit (ofLine line) = false := by
  unfold ofLine
  split <;> rfl

theorem filter_ofStdout_isExit (bytes : List UInt8) : (ofStdout bytes).filter isExit = [] := by
  rw [ofStdout, List.filter_eq_nil_iff]
  intro event hevent
  obtain ⟨line, -, rfl⟩ := List.mem_map.mp hevent
  simp [isExit_ofLine]

/-- Of what is printed, error output has no part in anything but plain lines. -/
theorem filter_printed {p : RunEvent → Bool} (hp : ∀ line, p (.output line) = false)
    {out err : List UInt8} {printed : List RunEvent}
    (h : Woven (ofStdout out) (ofStderr err) printed) :
    printed.filter p = (ofStdout out).filter p := by
  have hstderr : (ofStderr err).filter p = [] := by
    rw [ofStderr, List.filter_eq_nil_iff]
    intro event hevent
    obtain ⟨line, -, rfl⟩ := List.mem_map.mp hevent
    simp [hp]
  have hfilter := h.filter p
  rw [hstderr] at hfilter
  exact hfilter.eq_of_nil_right

theorem countRecords_eq_zero {events : List RunEvent} :
    countRecords events = 0 ↔ events.any isRecord = false := by
  rw [countRecords, List.countP_eq_zero, List.any_eq_false]

theorem filter_isRecord_eq_nil {events : List RunEvent} (h : events.any isRecord = false) :
    events.filter isRecord = [] := by
  rwa [List.filter_eq_nil_iff, ← List.any_eq_false]

namespace ProcessEnd

variable (e : ProcessEnd)

theorem isExit_exit : isExit e.exit = true := by
  unfold exit
  split <;> rfl

theorem isRecord_exit : e.exit.isRecord = false := by
  unfold exit
  split <;> rfl

theorem reported_eq : e.reported =
    match e.report.bind Text.fromUtf8? with
    | none => []
    | some text => match DecodedReport.decode text with
      | .error fault => [.malformed fault]
      | .ok d => d.output.map .output ++ d.records.map .record := rfl

/-- A report that can be read is told by its lines and its records. -/
theorem reported_of_decode {text : String} {d : DecodedReport}
    (htext : e.report.bind Text.fromUtf8? = some text)
    (hdecode : DecodedReport.decode text = .ok d) :
    e.reported = d.output.map .output ++ d.records.map .record := by
  rw [reported_eq, htext]
  simp only [hdecode]

theorem filter_reported_isExit : e.reported.filter isExit = [] := by
  rw [reported_eq]
  split
  · rfl
  · split
    · rfl
    · rw [List.filter_append, List.filter_map, List.filter_map]
      simp [Function.comp_def, isExit]

theorem closing_eq (printed : List RunEvent) : e.closing (countRecords printed) =
    (if printed.any isRecord then [] else e.reported) ++ [e.exit] := by
  rw [closing]
  cases hany : printed.any isRecord with
  | false => rw [if_pos (countRecords_eq_zero.mpr hany), if_neg Bool.false_ne_true]
  | true => rw [if_neg (by rw [countRecords_eq_zero, hany]; decide), if_pos rfl]

end ProcessEnd

/-- There is one exit, and it comes last. -/
theorem Told.exit {e : ProcessEnd} {out err : List UInt8} {events : List RunEvent}
    (h : Told e out err events) :
    events.filter isExit = [e.exit] ∧ events.getLast? = some e.exit := by
  obtain ⟨printed, hwoven, rfl⟩ := told_iff.mp h
  rw [e.closing_eq]
  constructor
  · have hreported :
        (if (ofStdout out).any isRecord then [] else e.reported).filter isExit = [] := by
      split
      · rfl
      · exact e.filter_reported_isExit
    rw [List.filter_cons_of_neg (by decide), List.filter_append, List.filter_append,
      filter_printed (fun _ => rfl) hwoven, filter_ofStdout_isExit, hreported,
      List.filter_singleton, e.isExit_exit]
    rfl
  · rw [← List.append_assoc, ← List.cons_append]
    exact List.getLast?_concat

/-- The records all are from standard output, or all from the report. -/
theorem Told.records {e : ProcessEnd} {out err : List UInt8} {events : List RunEvent}
    (h : Told e out err events) :
    events.filter isRecord = (ofStdout out).filter isRecord ∨
      (ofStdout out).filter isRecord = [] ∧
        events.filter isRecord = e.reported.filter isRecord := by
  obtain ⟨printed, hwoven, rfl⟩ := told_iff.mp h
  have hexit : [e.exit].filter isRecord = [] := by
    rw [List.filter_singleton, e.isRecord_exit]
    rfl
  rw [e.closing_eq, List.filter_cons_of_neg (by decide), List.filter_append, List.filter_append,
    hexit, List.append_nil, filter_printed (fun _ => rfl) hwoven]
  cases hany : (ofStdout out).any isRecord with
  | true => exact .inl (List.append_nil _)
  | false => exact .inr ⟨filter_isRecord_eq_nil hany, by rw [filter_isRecord_eq_nil hany]; rfl⟩

/-- A run is told like this: its start; the lines of both channels, woven in any way that keeps the
order of each; where none of them is a record, the events of its report; and at last its exit. Any
such events may be told, and no others. There is one exit, and the records all are from standard
output or all from the report. -/
theorem run_is_told_in_order (e : ProcessEnd) (out err : List UInt8) :
    (∀ events, Told e out err events ↔ ∃ printed, Woven (ofStdout out) (ofStderr err) printed ∧
      events = .started :: (printed ++
        ((if (ofStdout out).any isRecord then [] else
          match e.report.bind Text.fromUtf8? with
          | none => []
          | some text => match DecodedReport.decode text with
            | .error fault => [.malformed fault]
            | .ok d => d.output.map .output ++ d.records.map .record) ++ [e.exit]))) ∧
      (∃ events, Told e out err events) ∧
      ∀ events, Told e out err events →
        events.filter isExit = [e.exit] ∧ events.getLast? = some e.exit ∧
        (events.filter isRecord = (ofStdout out).filter isRecord ∨
          (ofStdout out).filter isRecord = [] ∧
            events.filter isRecord = e.reported.filter isRecord) := by
  refine ⟨fun events => ?_, ?_, fun events htold => ?_⟩
  · rw [told_iff, e.closing_eq, e.reported_eq]
  · obtain ⟨events, hdue⟩ := RunStage.exists_due e (.starting out err)
    exact ⟨events, RunStage.tells_of_due hdue⟩
  · obtain ⟨hexits, hlast⟩ := htold.exit
    exact ⟨hexits, hlast, htold.records⟩

/-- A process that prints a record and a warning, leaves a report all the same, and fails. -/
def warnedEnd : ProcessEnd := ⟨some (.exited 1), some [0x5B]⟩

/-- What it prints on standard output. -/
def warnedStdout : List UInt8 :=
  Text.toUtf8 "\x7b\"kind\":\"spec\",\"leaf\":\"adds\",\"state\":\"passed\"\x7d\n"

/-- The record that it prints. -/
def warnedRecord : RunEvent := .record (.spec ⟨[], "adds", "passed", none, none, none, none⟩)

/-- The events of its run if the warning is read first. -/
def warnedEvents : List RunEvent :=
  [.started, .output "slow", warnedRecord, .exited false (some 1)]

/-- A process that leaves the report of two suites, and fails. -/
def cartEnd : ProcessEnd := ⟨some (.exited 1), some (Text.toUtf8 DecodedReport.cartReport)⟩

/-- The events of its run if all it prints is a line. The report stands in for records. -/
def cartEvents : List RunEvent :=
  [.started, .output "slow", .output "[BeforeSuite] no database",
    .record (.spec ⟨["cart"], "adds", "Passed", none, none, some 5, none⟩),
    .record (.spec ⟨[], "removes", "lost", none, none, none, none⟩),
    .record (.suite ⟨"Cart", false, 1, 0, 0, none⟩),
    .record (.suite ⟨"", true, 0, 0, 0, none⟩), .exited false (some 1)]

theorem run_is_told_in_order_warned :
    (Told warnedEnd warnedStdout (Text.toUtf8 "slow\r\n") warnedEvents ∧
      warnedEvents.filter isExit = [warnedEnd.exit] ∧
      warnedEvents.getLast? = some warnedEnd.exit) ∧
    (ofStdout (Text.toUtf8 "slow\n")).any isRecord = false ∧
      Told cartEnd (Text.toUtf8 "slow\n") [] cartEvents ∧
      cartEvents.filter isRecord = cartEnd.reported.filter isRecord := by
  have hout : ofStdout warnedStdout = [warnedRecord] := by decide +kernel
  have hslow : ofStdout (Text.toUtf8 "slow\n") = [.output "slow"] := by decide +kernel
  have herr : ofStderr (Text.toUtf8 "slow\r\n") = [.output "slow"] := by decide +kernel
  obtain ⟨htold, -, hends⟩ := run_is_told_in_order warnedEnd warnedStdout (Text.toUtf8 "slow\r\n")
  obtain ⟨htold', -, hends'⟩ := run_is_told_in_order cartEnd (Text.toUtf8 "slow\n") []
  have hevents : Told warnedEnd warnedStdout (Text.toUtf8 "slow\r\n") warnedEvents := by
    refine (htold warnedEvents).mpr ⟨[.output "slow", warnedRecord], ?_, ?_⟩
    · rw [hout, herr]
      exact Woven.nil.left.right
    · rw [hout]
      rfl
  have hreport : cartEnd.report.bind Text.fromUtf8? = some DecodedReport.cartReport := by
    rw [cartEnd, Option.bind_some, Text.fromUtf8?_toUtf8]
  have hdecode : DecodedReport.decode DecodedReport.cartReport =
      .ok (DecodedReport.ofSuites DecodedReport.cartSuites) := by
    rw [DecodedReport.decode, DecodedReport.readAll?_cartReport]
  have hevents' : Told cartEnd (Text.toUtf8 "slow\n") [] cartEvents := by
    refine (htold' cartEvents).mpr ⟨[.output "slow"], ?_, ?_⟩
    · rw [hslow]
      exact Woven.nil.left
    · rw [hslow, ← cartEnd.reported_eq, cartEnd.reported_of_decode hreport hdecode]
      decide +kernel
  obtain ⟨hexits, hlast, -⟩ := hends warnedEvents hevents
  obtain ⟨-, -, hrecords⟩ := hends' cartEvents hevents'
  refine ⟨⟨hevents, hexits, hlast⟩, by rw [hslow]; rfl, hevents', ?_⟩
  -- Records are among the events, and none of them was printed.
  rcases hrecords with hprinted | ⟨-, hreported⟩
  · rw [hslow] at hprinted
    exact absurd hprinted (by decide)
  · exact hreported

/-- The machine tells a run in one of these ways, all of standard output first. -/
theorem told_runEvents (o : Outcome) {report : Option (List UInt8)}
    (hreport : report.bind Text.fromUtf8? = o.report) :
    Told ⟨some o.status, report⟩ (Text.toUtf8 o.stdout) (Text.toUtf8 o.stderr)
      (Machine.runEvents o) := by
  rw [told_iff]
  refine ⟨_, .append _ _, ?_⟩
  rw [Machine.runEvents, Machine.closingEvents, ProcessEnd.closing, ProcessEnd.reported, hreport]
  rfl

end SpecExplorer
