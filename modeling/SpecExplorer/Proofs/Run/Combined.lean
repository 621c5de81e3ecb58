/-
# Combined results

The result of a node with children is combined from theirs, one level at a time. This module says
what a combined result is in terms of statuses and times, and that combining level by level comes
to the same as looking at all leaves at once: the worst status counts, and times are summed where
there are any.
-/
import Mathlib.Algebra.GroupWithZero.Nat
import SpecExplorer.Proofs.Tree.Replaced

namespace SpecExplorer

namespace TestNode

/-- Whether the node has a result with a final status. -/
def isFinished (n : TestNode) : Bool := n.status.any (·.isTerminal)

/-- The time that the node shows, if any. -/
def nanos? (n : TestNode) : Option Nat := n.result.bind (·.nanos)

theorem isFinished_of_result {n : TestNode} {r : RunResult} (h : n.result = some r) :
    n.isFinished = r.status.isTerminal := by
  simp [isFinished, status, h]

theorem status_of_result {n : TestNode} {r : RunResult} (h : n.result = some r) :
    n.status = some r.status := by
  simp [status, h]

theorem nanos?_of_result {n : TestNode} {r : RunResult} (h : n.result = some r) :
    n.nanos? = r.nanos := by
  simp [nanos?, h]

/-- Starting changes a node only where it is pending, and then to running. -/
theorem start?_getD_cases (run : RunId) (n : TestNode) :
    (n.start? run).getD n = n ∨ ∃ r, n.result = some r ∧ r.status = .pending ∧
      (n.start? run).getD n = { n with result := some { r with status := .running } } := by
  unfold start?
  split
  next r hr =>
      split
      next hpending =>
          rw [Bool.and_eq_true, beq_iff_eq] at hpending
          exact .inr ⟨r, hr, hpending.2, rfl⟩
      next => exact .inl rfl
  next => exact .inl rfl

theorem isFinished_start (run : RunId) (n : TestNode) :
    ((n.start? run).getD n).isFinished = n.isFinished := by
  rcases start?_getD_cases run n with heq | ⟨r, hr, hpending, heq⟩
  · rw [heq]
  · rw [heq, isFinished_of_result hr, hpending]
    rfl

theorem start_eq_of_isFinished (run : RunId) {n : TestNode} (h : n.isFinished) :
    (n.start? run).getD n = n := by
  rcases start?_getD_cases run n with heq | ⟨r, hr, hpending, heq⟩
  · exact heq
  · rw [isFinished_of_result hr, hpending] at h
    cases h

end TestNode

/-- The sum of some times, absent where there are none. -/
def sum? : List Nat → Option Nat
  | [] => none
  | times => some times.sum

theorem sum?_append (as bs : List Nat) :
    sum? (as ++ bs) = match sum? as, sum? bs with
      | some a, some b => some (a + b)
      | some a, none => some a
      | none, b => b := by
  cases as <;> cases bs <;> simp [sum?, Nat.add_assoc]

/-- The status of nodes taken together: failed if one of them failed, else passed if one of them
passed, else skipped. -/
def verdict (ns : List TestNode) : RunStatus :=
  if ∃ n ∈ ns, n.status = some .failed then .failed
  else if ∃ n ∈ ns, n.status = some .passed then .passed
  else .skipped

theorem verdict_eq_failed_iff {ns : List TestNode} :
    verdict ns = .failed ↔ ∃ n ∈ ns, n.status = some .failed := by
  unfold verdict
  split
  next hfailed => exact iff_of_true rfl hfailed
  next hfailed => exact iff_of_false (by split <;> simp) hfailed

theorem verdict_eq_passed_iff {ns : List TestNode} :
    verdict ns = .passed ↔
      (¬ ∃ n ∈ ns, n.status = some .failed) ∧ ∃ n ∈ ns, n.status = some .passed := by
  unfold verdict
  split
  next hfailed => exact iff_of_false (by simp) fun h => h.1 hfailed
  next hfailed =>
      split
      next hpassed => exact iff_of_true rfl ⟨hfailed, hpassed⟩
      next hpassed => exact iff_of_false (by simp) fun h => hpassed h.2

namespace RunResult

theorem isTerminal_overall (statuses : List RunStatus) : (overall statuses).isTerminal := by
  unfold overall
  split
  · rfl
  · split <;> rfl

/-- There is a combined result where there are results and all of them are final. -/
theorem combine_isSome_iff {results : List RunResult} :
    (combine results).isSome ↔ results ≠ [] ∧ ∀ r ∈ results, r.status.isTerminal := by
  cases results with
  | nil => simp [combine]
  | cons r rest => simp [combine]

theorem foldl_addNanos (total : Option Nat) (results : List RunResult) :
    results.foldl addNanos total =
      sum? (total.toList ++ results.filterMap (·.nanos)) := by
  induction results generalizing total with
  | nil => cases total <;> simp [sum?]
  | cons r rest ih =>
      rw [List.foldl_cons, ih, addNanos]
      cases hnanos : r.nanos with
      | none => simp [hnanos]
      | some n =>
          cases total with
          | none => simp [hnanos]
          | some m => simp [hnanos, sum?, Nat.add_assoc]

theorem combine_eq_some {results : List RunResult} {a : RunResult} (h : combine results = some a) :
    a = ⟨overall (results.map (·.status)), none, sum? (results.filterMap (·.nanos))⟩ := by
  simp only [combine] at h
  split at h
  · cases h
  · cases h
    rw [foldl_addNanos]
    rfl

end RunResult

namespace TestTree

/-- The results of siblings, idle ones left out. -/
def results (siblings : List TestTree) : List RunResult := siblings.filterMap (·.info.result)

theorem combined_eq_combine (siblings : List TestTree) :
    combined siblings = RunResult.combine (results siblings) := rfl

/-- Siblings that all have results have a combined one when all of them are finished. -/
theorem combined_isSome_iff {siblings : List TestTree} (hne : siblings ≠ [])
    (hresult : ∀ c ∈ siblings, c.info.result.isSome) :
    (combined siblings).isSome ↔ ∀ c ∈ siblings, c.info.isFinished := by
  rw [combined_eq_combine, RunResult.combine_isSome_iff]
  obtain ⟨c, hc⟩ := List.exists_mem_of_ne_nil _ hne
  obtain ⟨r, hr⟩ := Option.isSome_iff_exists.mp (hresult c hc)
  have hresults : results siblings ≠ [] :=
    List.ne_nil_of_mem (List.mem_filterMap.mpr ⟨c, hc, hr⟩)
  constructor
  · rintro ⟨-, hall⟩ d hd
    obtain ⟨q, hq⟩ := Option.isSome_iff_exists.mp (hresult d hd)
    rw [TestNode.isFinished_of_result hq]
    exact hall q (List.mem_filterMap.mpr ⟨d, hd, hq⟩)
  · intro hall
    refine ⟨hresults, ?_⟩
    intro q hq
    obtain ⟨d, hd, hq⟩ := List.mem_filterMap.mp hq
    rw [← TestNode.isFinished_of_result hq]
    exact hall d hd

theorem isTerminal_of_combined {siblings : List TestTree} {a : RunResult}
    (h : combined siblings = some a) : a.status.isTerminal := by
  rw [RunResult.combine_eq_some h]
  exact RunResult.isTerminal_overall _

/-- Nothing is combined while a sibling is unfinished. -/
theorem combined_eq_none_of_unfinished {siblings : List TestTree} {c : TestTree}
    (hc : c ∈ siblings) {r : RunResult} (hr : c.info.result = some r)
    (hopen : ¬ r.status.isTerminal) : combined siblings = none := by
  rw [← Option.not_isSome_iff_eq_none, combined_eq_combine, RunResult.combine_isSome_iff]
  exact fun h => hopen (h.2 r (List.mem_filterMap.mpr ⟨c, hc, hr⟩))

/-! ### Leaves -/

/-- The leaves of a tree: its specs and its nodes without children. -/
def leaves (t : TestTree) : List TestNode :=
  (t.subtrees.filter fun s => s.info.isLeaf s.children).map info

theorem leaves_node_nil (info : TestNode) : (node info []).leaves = [info] := by
  simp [leaves, TestNode.isLeaf]

/-- Where specs are leaves, the leaves of a node with children are those of its children. -/
theorem leaves_node {info : TestNode} {children : List TestTree} (hne : children ≠ [])
    (hleaf : (node info children).SpecsAreLeaves) :
    (node info children).leaves = children.flatMap leaves := by
  have hkind : info.kind ≠ .spec := fun hspec =>
    hne ((specsAreLeaves_node.mp hleaf).1 hspec)
  have hroot : info.isLeaf children = false := by
    simp [TestNode.isLeaf, hkind, hne]
  rw [leaves, subtrees_node, List.filter_cons_of_neg (by simp [hroot]), List.filter_flatMap,
    List.map_flatMap]
  rfl

/-- The statuses of children that show what their leaves show combine to what all leaves show. -/
theorem overall_eq_verdict {children : List TestTree}
    (h : ∀ c ∈ children, c.info.status = some (verdict c.leaves)) :
    RunResult.overall ((results children).map (·.status)) =
      verdict (children.flatMap leaves) := by
  have hmem : ∀ status, status ∈ (results children).map (·.status) ↔
      ∃ c ∈ children, verdict c.leaves = status := by
    intro status
    simp only [results, List.map_filterMap, List.mem_filterMap]
    refine exists_congr fun c => and_congr_right fun hc => ?_
    have hstatus : c.info.result.map (·.status) = some (verdict c.leaves) := h c hc
    rw [hstatus, Option.some.injEq]
  have hfailed : RunStatus.failed ∈ (results children).map (·.status) ↔
      ∃ n ∈ children.flatMap leaves, n.status = some .failed := by
    simp only [hmem, verdict_eq_failed_iff, List.mem_flatMap]
    grind
  unfold RunResult.overall
  rw [verdict]
  simp only [List.contains_iff_mem, hfailed]
  split
  · rfl
  next hnone =>
      have hpassed : RunStatus.passed ∈ (results children).map (·.status) ↔
          ∃ n ∈ children.flatMap leaves, n.status = some .passed := by
        simp only [hmem, verdict_eq_passed_iff, List.mem_flatMap]
        grind
      simp only [hpassed]

/-- The times of children that show the sums of their leaves sum up to that of all leaves. -/
theorem sum?_eq_sum?_leaves {children : List TestTree}
    (h : ∀ c ∈ children, c.info.nanos? = sum? (c.leaves.filterMap (·.nanos?))) :
    sum? ((results children).filterMap (·.nanos)) =
      sum? ((children.flatMap leaves).filterMap (·.nanos?)) := by
  induction children with
  | nil => rfl
  | cons c rest ih =>
      have hrest := ih fun d hd => h d (List.mem_cons_of_mem _ hd)
      have hc : c.info.nanos? = sum? (c.leaves.filterMap (·.nanos?)) := h c List.mem_cons_self
      have hhead : (results (c :: rest)).filterMap (·.nanos) =
          c.info.nanos?.toList ++ (results rest).filterMap (·.nanos) := by
        cases hr : c.info.result with
        | none => simp [results, hr, TestNode.nanos?]
        | some r => cases hn : r.nanos <;> simp [results, hr, hn, TestNode.nanos?]
      rw [hhead, sum?_append, List.flatMap_cons, List.filterMap_append, sum?_append, ← hrest, hc]
      cases c.leaves.filterMap (·.nanos?) <;> simp [sum?]

end TestTree

end SpecExplorer
