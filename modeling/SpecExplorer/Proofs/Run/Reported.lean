/-
# What a report tells

Going over a report keeps everything in its place. After some nodes of a suite the records are
those of the specs among them, the output has the failures of the others, and the record of the
suite has counted the status of each spec. So every suite is told by one record for each of its
specs, in order, and a record of its own that agrees with them.
-/
import Mathlib.Data.List.Forall2
import SpecExplorer.Run.Report

namespace SpecExplorer

/-! ### Counting -/

namespace SuiteRecord

/-- How many specs a suite counts for a status. -/
def count (s : SuiteRecord) : RunStatus → Nat
  | .passed => s.passed
  | .failed => s.failed
  | .skipped => s.skipped
  | .pending | .running => 0

theorem countUp_of_lt {n : Nat} (h : n + 1 < Width.count 32) : countUp n = n + 1 :=
  Nat.mod_eq_of_lt h

theorem count_tally {status : RunStatus} (hfinal : status.isTerminal) (s : SuiteRecord)
    (ended : Option RunStatus) :
    (s.tally ended).count status =
      if ended = some status then countUp (s.count status) else s.count status := by
  cases ended with
  | none => rfl
  | some e => cases e <;> cases status <;> first | rfl | cases hfinal

/-- As long as 32 bits hold the number, a suite counts every spec that ended in a status. -/
theorem count_foldl_tally {status : RunStatus} (hfinal : status.isTerminal)
    (ends : List (Option RunStatus)) (s : SuiteRecord)
    (hsize : s.count status + ends.length < Width.count 32) :
    (ends.foldl tally s).count status = s.count status + ends.count (some status) := by
  induction ends generalizing s with
  | nil => rfl
  | cons ended rest ih =>
      rw [List.length_cons] at hsize
      have hcount := count_tally hfinal s ended
      rw [List.foldl_cons, List.count_cons]
      by_cases h : ended = some status
      · rw [if_pos h, countUp_of_lt (by omega)] at hcount
        rw [ih _ (by omega), hcount, if_pos (by simpa using h)]
        omega
      · rw [if_neg h] at hcount
        rw [ih _ (by omega), hcount, if_neg (by simpa using h)]
        omega

/-- Counting leaves everything but the counts. -/
theorem exists_foldl_tally_eq (ends : List (Option RunStatus)) (s : SuiteRecord) :
    ∃ passed failed skipped,
      ends.foldl tally s = ⟨s.description, s.success, passed, failed, skipped, s.runTime⟩ := by
  induction ends generalizing s with
  | nil => exact ⟨s.passed, s.failed, s.skipped, rfl⟩
  | cons ended rest ih =>
      obtain ⟨passed, failed, skipped, heq⟩ := ih (s.tally ended)
      refine ⟨passed, failed, skipped, ?_⟩
      rw [List.foldl_cons, heq]
      cases ended with
      | none => rfl
      | some e => cases e <;> rfl

end SuiteRecord

/-! ### Going over a report -/

namespace SuiteReport

/-- The records of the specs of a suite. -/
def specRecords (s : SuiteReport) : List SpecRecord :=
  (s.nodes.filter (·.isSpec)).map (·.record)

/-- The record of a suite once its specs are counted. -/
def summary (s : SuiteReport) : SuiteRecord :=
  (s.specRecords.map (·.status?)).foldl SuiteRecord.tally s.opening

/-- The lines that the failures outside of specs leave. -/
def failureLines (s : SuiteReport) : List String :=
  (s.nodes.filter (!·.isSpec)).filterMap (·.failureLine?)

theorem failureLines_eq (s : SuiteReport) :
    s.failureLines = (s.nodes.filter fun n => n.nodeType ≠ "It" ∧ n.failure ≠ "").map
      fun n => "[" ++ n.nodeType ++ "] " ++ n.failure := by
  rw [failureLines, ← List.filterMap_eq_map, List.filterMap_filter, List.filterMap_filter]
  refine List.filterMap_congr fun n _ => ?_
  by_cases htype : n.nodeType = "It"
  · simp [NodeReport.isSpec, htype]
  · by_cases hfailure : n.failure = ""
    · simp [NodeReport.failureLine?, nonEmpty?, hfailure]
    · simp [NodeReport.isSpec, NodeReport.failureLine?, nonEmpty?, htype, hfailure]

end SuiteReport

namespace DecodedReport

/-- What is told after some nodes of a suite. -/
theorem foldl_addNode (nodes : List NodeReport) (d : DecodedReport) (summary : SuiteRecord) :
    nodes.foldl addNode (d, summary) =
      (⟨d.records ++ (nodes.filter (·.isSpec)).map (.spec ·.record),
          d.output ++ (nodes.filter (!·.isSpec)).filterMap (·.failureLine?)⟩,
        ((nodes.filter (·.isSpec)).map (·.record.status?)).foldl SuiteRecord.tally summary) := by
  induction nodes generalizing d summary with
  | nil => simp
  | cons n rest ih =>
      rw [List.foldl_cons]
      by_cases hspec : n.isSpec
      · rw [addNode, if_pos hspec, ih]
        simp [hspec]
      · rw [addNode, if_neg hspec, ih]
        cases hline : n.failureLine? with
        | none => simp [hspec, hline]
        | some line => simp [hspec, hline]

/-- A suite adds its records and its lines to what is told before it. -/
theorem addSuite_eq (d : DecodedReport) (s : SuiteReport) :
    addSuite d s = ⟨d.records ++ (s.specRecords.map .spec ++ [.suite s.summary]),
      d.output ++ s.failureLines⟩ := by
  simp [addSuite, foldl_addNode, SuiteReport.specRecords, SuiteReport.summary,
    SuiteReport.failureLines, Function.comp_def]

theorem foldl_addSuite (suites : List SuiteReport) (d : DecodedReport) :
    suites.foldl addSuite d =
      ⟨d.records ++ suites.flatMap fun s => s.specRecords.map .spec ++ [.suite s.summary],
        d.output ++ suites.flatMap (·.failureLines)⟩ := by
  induction suites generalizing d with
  | nil => simp
  | cons s rest ih =>
      rw [List.foldl_cons, addSuite_eq, ih]
      simp only [List.flatMap_cons, List.append_assoc]

end DecodedReport

/-! ### What is told of a node and of a suite -/

theorem nanosOf_eq : nanosOf = fun time => (max time 0).toNat := by
  funext time
  rw [nanosOf]
  omega

/-- A record tells all that the report of a spec says. -/
structure NodeReport.ToldBy (n : NodeReport) (r : SpecRecord) : Prop where
  names : r.names = n.hierarchy ++ [n.text]
  state : r.state = n.state
  /-- Both channels are kept, on lines of their own where both have something. -/
  output : r.output =
    if n.stdOutErr = "" ∧ n.writerOutput = "" then none
    else if n.stdOutErr = "" ∨ n.writerOutput = "" then some (n.stdOutErr ++ n.writerOutput)
    else some (Text.trimEnd n.stdOutErr ++ "\n" ++ n.writerOutput)
  failure : r.failure = if n.failure = "" then none else some n.failure
  file : r.file = if n.file = "" then none else some n.file
  /-- A time below zero counts as none at all. -/
  runTime : r.runTime = n.runTime.map fun time => (max time 0).toNat

theorem NodeReport.toldBy_record (n : NodeReport) : n.ToldBy n.record where
  names := rfl
  state := rfl
  output := by
    by_cases hstreams : n.stdOutErr = "" <;> by_cases hwriter : n.writerOutput = "" <;>
      simp [record, output, nonEmpty?, hstreams, hwriter]
  failure := by simp [record, nonEmpty?]
  file := by simp [record, nonEmpty?]
  runTime := by rw [record, nanosOf_eq]

/-- A suite is told by the records of its specs and by a record that agrees with them. -/
structure SuiteReport.ToldBy (s : SuiteReport) (specs : List SpecRecord) (summary : SuiteRecord) :
    Prop where
  /-- Each spec has one record, in order, and nothing but a spec has one. -/
  inOrder : List.Forall₂ NodeReport.ToldBy (s.nodes.filter (·.nodeType = "It")) specs
  description : summary.description = s.description
  success : summary.success = s.succeeded
  runTime : summary.runTime = s.runTime.map fun time => (max time 0).toNat
  /-- A record without a known state is counted nowhere. -/
  passed : summary.passed = specs.countP (·.status? = some .passed)
  failed : summary.failed = specs.countP (·.status? = some .failed)
  skipped : summary.skipped = specs.countP (·.status? = some .skipped)

namespace SuiteReport

theorem exists_summary_eq (s : SuiteReport) : ∃ passed failed skipped, s.summary =
    ⟨s.description, s.succeeded, passed, failed, skipped, s.runTime.map nanosOf⟩ :=
  SuiteRecord.exists_foldl_tally_eq _ s.opening

/-- As long as 32 bits hold the number of its specs, a suite counts those of each final status. -/
theorem count_summary {s : SuiteReport}
    (hsize : (s.nodes.filter (·.isSpec)).length < Width.count 32) (status : RunStatus)
    (hfinal : status.isTerminal) :
    s.summary.count status = s.specRecords.countP (·.status? = some status) := by
  have hopening : s.opening.count status = 0 := by cases status <;> rfl
  have hlength : (s.specRecords.map (·.status?)).length < Width.count 32 := by
    rwa [List.length_map, specRecords, List.length_map]
  rw [summary, SuiteRecord.count_foldl_tally hfinal _ _ (by omega), hopening, Nat.zero_add,
    List.count, List.countP_map]
  refine List.countP_congr fun r _ => ?_
  simp

theorem toldBy_summary {s : SuiteReport}
    (hsize : (s.nodes.filter (·.isSpec)).length < Width.count 32) :
    s.ToldBy s.specRecords s.summary := by
  obtain ⟨passed, failed, skipped, heq⟩ := s.exists_summary_eq
  have hspecs : s.nodes.filter (·.nodeType = "It") = s.nodes.filter (·.isSpec) :=
    List.filter_congr fun n _ => (beq_eq_decide n.nodeType "It").symm
  exact {
    inOrder := by
      rw [hspecs, specRecords, List.forall₂_map_right_iff, List.forall₂_same]
      exact fun n _ => n.toldBy_record
    description := by rw [heq]
    success := by rw [heq]
    runTime := by rw [heq, nanosOf_eq]
    passed := count_summary hsize .passed rfl
    failed := count_summary hsize .failed rfl
    skipped := count_summary hsize .skipped rfl }

end SuiteReport

namespace DecodedReport

/-- A report that can be read is told suite by suite: one record for each spec, in order, and then
one for the suite, whose counts are those of its specs by their status. The output has one line for
each failure outside of specs, in order. -/
theorem suites_are_told_in_order (suites : List SuiteReport)
    (hsize : ∀ s ∈ suites, (s.nodes.filter (·.nodeType = "It")).length < Width.count 32) :
    (∀ text, SuiteReport.readAll? text = some suites → decode text = .ok (ofSuites suites)) ∧
      (∃ told : List (List SpecRecord × SuiteRecord),
        List.Forall₂ (fun s t => s.ToldBy t.1 t.2) suites told ∧
        (ofSuites suites).records = told.flatMap fun t => t.1.map .spec ++ [.suite t.2]) ∧
      (ofSuites suites).output = suites.flatMap fun s =>
        (s.nodes.filter fun n => n.nodeType ≠ "It" ∧ n.failure ≠ "").map
          fun n => "[" ++ n.nodeType ++ "] " ++ n.failure := by
  have hsuites : ofSuites suites = _ := foldl_addSuite suites ⟨[], []⟩
  refine ⟨fun text hread => ?_, ⟨suites.map fun s => (s.specRecords, s.summary), ?_, ?_⟩, ?_⟩
  · rw [decode, hread]
  · rw [List.forall₂_map_right_iff, List.forall₂_same]
    exact fun s hs => SuiteReport.toldBy_summary (hsize s hs)
  · rw [hsuites, List.nil_append, List.flatMap_map]
  · rw [hsuites, List.nil_append]
    exact List.flatMap_congr fun s _ => s.failureLines_eq

/-- Two suites. In the first one the setup fails, one spec passes, and one ends in a state that is
not known. The second one has no specs. -/
def cartSuites : List SuiteReport :=
  [⟨"Cart", false, none,
    [⟨[], "", "BeforeSuite", "", "failed", none, "", "", "no database"⟩,
      ⟨["cart"], "adds", "It", "", "Passed", some 5, "", "", ""⟩,
      ⟨[], "removes", "It", "", "lost", none, "", "", ""⟩]⟩,
    ⟨"", true, none, []⟩]

/-- Their report. -/
def cartReport : String :=
  "[\x7b\"SuiteDescription\":\"Cart\"," ++ "\"SpecReports\":[" ++
    "\x7b\"LeafNodeType\":\"BeforeSuite\"," ++ "\"State\":\"failed\"," ++
      "\"Failure\":\x7b\"Message\":\"no database\"\x7d\x7d," ++
    "\x7b\"ContainerHierarchyTexts\":[\"cart\"]," ++ "\"LeafNodeText\":\"adds\"," ++
      "\"LeafNodeType\":\"It\"," ++ "\"State\":\"Passed\",\"RunTime\":5\x7d," ++
    "\x7b\"LeafNodeText\":\"removes\"," ++
      "\"LeafNodeType\":\"It\",\"State\":\"lost\"\x7d]\x7d," ++
    "\x7b\"SuiteSucceeded\":true\x7d]"

theorem readAll?_cartReport : SuiteReport.readAll? cartReport = some cartSuites := by
  unfold SuiteReport.readAll? Json.Raw.read? cartReport
  -- The kernel takes the characters of one long text only slowly.
  simp only [String.toList_append]
  decide +kernel

theorem suites_are_told_in_order_cart :
    (∀ s ∈ cartSuites, (s.nodes.filter (·.nodeType = "It")).length < Width.count 32) ∧
      SuiteReport.readAll? cartReport = some cartSuites ∧
      decode cartReport = .ok (ofSuites cartSuites) ∧
      (∃ told : List (List SpecRecord × SuiteRecord),
        List.Forall₂ (fun s t => s.ToldBy t.1 t.2) cartSuites told ∧
        (ofSuites cartSuites).records = told.flatMap fun t => t.1.map .spec ++ [.suite t.2]) ∧
      (ofSuites cartSuites).output = ["[BeforeSuite] no database"] := by
  have hsize : ∀ s ∈ cartSuites,
      (s.nodes.filter (·.nodeType = "It")).length < Width.count 32 := by
    decide +kernel
  obtain ⟨hdecode, htold, houtput⟩ := suites_are_told_in_order cartSuites hsize
  exact ⟨hsize, readAll?_cartReport, hdecode cartReport readAll?_cartReport, htold,
    houtput.trans (by decide +kernel)⟩

end DecodedReport

end SpecExplorer
