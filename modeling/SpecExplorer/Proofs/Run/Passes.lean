/-
# A run is closed in two passes

In an arena a run is closed by two loops that write down which nodes they change. The first goes
over a node and all below it and skips the leaves that the run has left open. The second goes over
the containers among these from the last to the first, and on to the ancestors, and shows at each
what its children show together. What was written down is sorted in the end, and repetitions are
dropped, as one node may be changed by both.

A round reads the arena that the rounds before it have left. Here is what one round does to a
painted arena, and that a pass does the same to all its nodes, if each of them is as it has to be
when the pass comes to it.
-/
import Mathlib.Data.List.Destutter
import Mathlib.Data.List.Sort
import SpecExplorer.Proofs.Run.Combined
import SpecExplorer.Proofs.Tree.Painted

namespace SpecExplorer

/-! ### Going over the children -/

/-- What the children of a node have come to so far. -/
structure Tally where
  any : Bool
  failed : Bool
  passed : Bool
  total : Nat
  timed : Bool

namespace Tally

/-- Takes in what a child shows. An idle one does not count, one that is under way ends it all. -/
def add? (y : Tally) : Option RunResult → Option Tally
  | none => some y
  | some r =>
    if r.status.isTerminal then
      some {
        any := true
        failed := y.failed || r.status == .failed
        passed := y.passed || r.status == .passed
        total := y.total + r.nanos.getD 0
        timed := y.timed || r.nanos.isSome }
    else none

/-- The combined result, unless no child counted. -/
def result? (y : Tally) : Option RunResult :=
  if y.any then
    some {
      status := if y.failed then .failed else if y.passed then .passed else .skipped
      output := none
      nanos := if y.timed then some y.total else none }
  else none

/-- The tally of some results. -/
def ofResults (results : List RunResult) : Tally where
  any := !results.isEmpty
  failed := (results.map (·.status)).contains .failed
  passed := (results.map (·.status)).contains .passed
  total := (results.filterMap (·.nanos)).sum
  timed := !(results.filterMap (·.nanos)).isEmpty

/-- Takes in all children. -/
def overall? (shown : List (Option RunResult)) : Option RunResult :=
  (shown.foldlM add? (ofResults [])).bind result?

theorem add?_ofResults (results : List RunResult) {r : RunResult} (hr : r.status.isTerminal) :
    (ofResults results).add? (some r) = some (ofResults (results ++ [r])) := by
  have hstatus : ∀ status, (r.status == status) = (status == r.status) := fun _ => BEq.comm
  rw [add?, if_pos hr, hstatus, hstatus]
  cases hnanos : r.nanos <;> simp [ofResults, hnanos, beq_eq_decide]

/-- A loop over the children ends with their tally, if none of them is under way. -/
theorem foldlM_add? (results : List RunResult) (shown : List (Option RunResult)) :
    shown.foldlM add? (ofResults results) =
      if (shown.filterMap id).all (·.status.isTerminal) then
        some (ofResults (results ++ shown.filterMap id))
      else none := by
  induction shown generalizing results with
  | nil => simp
  | cons s rest ih =>
      rw [List.foldlM_cons]
      cases s with
      | none => exact ih results
      | some r =>
          by_cases hr : r.status.isTerminal
          · rw [add?_ofResults results hr, Option.bind_eq_bind, Option.bind_some, ih]
            simp [hr]
          · rw [add?, if_neg hr]
            simp [hr]

theorem result?_ofResults {results : List RunResult} (h : ∀ r ∈ results, r.status.isTerminal) :
    (ofResults results).result? = RunResult.combine results := by
  cases results with
  | nil => rfl
  | cons r rest =>
      have hopen : ((r :: rest).map (·.status)).any (!·.isTerminal) = false := by
        simpa using h
      have htime : (if (ofResults (r :: rest)).timed then some (ofResults (r :: rest)).total
          else none) = sum? ((r :: rest).filterMap (·.nanos)) := by
        rw [ofResults]
        cases (r :: rest).filterMap (·.nanos) <;> rfl
      rw [result?, htime, RunResult.combine, hopen, RunResult.foldl_addNanos]
      rfl

/-- The loop combines the results of the children. -/
theorem overall?_eq_combine (shown : List (Option RunResult)) :
    overall? shown = RunResult.combine (shown.filterMap id) := by
  rw [overall?, foldlM_add?, List.nil_append]
  split
  next h => exact result?_ofResults (List.all_eq_true.mp h)
  next h =>
      rw [List.all_eq_true] at h
      have hnone := mt RunResult.combine_isSome_iff.mp (not_and_of_not_right _ h)
      exact (Option.not_isSome_iff_eq_none.mp hnone).symm

end Tally

namespace Arena

/-! ### The two passes -/

/-- Shows a result at the node with a number. -/
def setResult (a : Arena) (i : Nat) (r : RunResult) : Arena :=
  { a with nodes := a.nodes.modify i fun n => { n with info := { n.info with result := some r } } }

/-- The combined result of the children of a node. There is no answer if one of the nodes does not
exist. -/
def aggregate? (a : Arena) (i : Nat) : Option (Option RunResult) := do
  let n ← a.nodes[i]?
  let children ← n.children.mapM a.info?
  return Tally.overall? (children.map (·.result))

def hasChildren (a : Arena) (i : Nat) : Bool := a.nodes[i]?.any (!·.children.isEmpty)

/-- An arena in which a run is being closed. -/
structure Closing where
  arena : Arena
  /-- The changed nodes in the order of the changes. -/
  changed : List Nat

/-- Shows another result at a node, and writes the node down. -/
def Closing.change (w : Closing) (i : Nat) (r : RunResult) : Closing :=
  ⟨w.arena.setResult i r, w.changed ++ [i]⟩

/-- Skips a node of the run, if it is a leaf that is not finished. -/
def skipLeaf? (run : RunId) (w : Closing) (i : Nat) : Option Closing := do
  let n ← w.arena.nodes[i]?
  if !n.info.isClaimedBy run then some w
  else if !(n.info.kind == .spec || n.children.isEmpty) then some w
  else match n.info.result with
    | none => some w
    | some r =>
      if r.status.isTerminal then some w else some (w.change i { r with status := .skipped })

/-- Shows at a node what its children show together, if they do. -/
def settle? (w : Closing) (i : Nat) : Option Closing := do
  let n ← w.arena.nodes[i]?
  match ← w.arena.aggregate? i with
  | none => some w
  | some r => if n.info.result = some r then some w else some (w.change i r)

/-- Closes a run from a node on, and gives the nodes that it changed, in ascending order and each
once. There is no answer if a loop comes to a node that does not exist. -/
def finishRun? (a : Arena) (scope : Nat) (run : RunId) : Option (Arena × List Nat) := do
  let subtree ← a.subtree? scope
  let w ← subtree.foldlM (skipLeaf? run) ⟨a, []⟩
  let above ← w.arena.ancestors? scope
  let w ← (subtree.reverse.filter w.arena.hasChildren ++ above).foldlM settle? w
  return (w.arena, (w.changed.insertionSort (· ≤ ·)).destutter (· ≠ ·))

variable {a : Arena} {shown : Nat → TestNode} {i : Nat} {n : ArenaNode}

/-! ### One round of a pass -/

theorem setResult_paint (a : Arena) (shown : Nat → TestNode) (i : Nat) (r : RunResult) :
    (a.paint shown).setResult i r =
      a.paint (Function.update shown i { shown i with result := some r }) := by
  have hnodes : ((a.paint shown).setResult i r).nodes =
      (a.paint (Function.update shown i { shown i with result := some r })).nodes := by
    refine List.ext_getElem? fun j => ?_
    rw [setResult, List.getElem?_modify, getElem?_paint, getElem?_paint]
    by_cases hj : i = j
    · subst hj
      simp [Function.comp_def]
    · simp [Function.update_of_ne (Ne.symm hj), hj]
  exact congrArg (Arena.mk · a.index) hnodes

/-- The number of a node, if it is shown with another result. -/
def changedAt (i : Nat) (before after : TestNode) : List Nat :=
  if before.result = after.result then [] else [i]

/-- A painted arena after a node has been shown anew. -/
def Closing.painted (a : Arena) (shown : Nat → TestNode) (changed : List Nat) (i : Nat)
    (after : TestNode) : Closing :=
  ⟨a.paint (Function.update shown i after), changed ++ changedAt i (shown i) after⟩

theorem Closing.painted_self (a : Arena) (shown : Nat → TestNode) (changed : List Nat) (i : Nat) :
    painted a shown changed i (shown i) = ⟨a.paint shown, changed⟩ := by
  rw [painted, Function.update_eq_self, changedAt, if_pos rfl, List.append_nil]

theorem Closing.change_paint (a : Arena) (shown : Nat → TestNode) (changed : List Nat) {i : Nat}
    {r : RunResult} (h : (shown i).result ≠ some r) :
    Closing.change ⟨a.paint shown, changed⟩ i r =
      painted a shown changed i { shown i with result := some r } := by
  rw [change, setResult_paint, painted, changedAt, if_neg h]

section Round

variable (h : a.nodes[i]? = some n) (changed : List Nat)

include h

theorem getElem?_paint_of_getElem? :
    (a.paint shown).nodes[i]? = some { n with info := shown i } := by
  rw [getElem?_paint, h, Option.map_some]

/-- In the first pass a node is closed by itself. -/
theorem skipLeaf?_paint (run : RunId) {children : List TestTree}
    (hleaf : n.children.isEmpty = children.isEmpty) :
    skipLeaf? run ⟨a.paint shown, changed⟩ i =
      some (.painted a shown changed i ((shown i).close run children)) := by
  rw [skipLeaf?, getElem?_paint_of_getElem? h, Option.bind_eq_bind, Option.bind_some]
  simp only [hleaf, TestNode.close, TestNode.isLeaf]
  cases hr : (shown i).result with
  | none =>
      rw [Closing.painted_self]
      split
      · rfl
      · split <;> rfl
  | some r =>
      simp only [Bool.not_eq_true']
      by_cases hclaimed : (shown i).isClaimedBy run
      · by_cases hkind : (shown i).kind == .spec || children.isEmpty
        · by_cases hopen : r.status.isTerminal
          · simp [hclaimed, hkind, hopen, Closing.painted_self]
          · have hne : (shown i).result ≠ some { r with status := .skipped } := by
              rw [hr]
              rintro heq
              exact hopen (by rw [Option.some.inj heq]; rfl)
            simp [hclaimed, hkind, hopen, Closing.change_paint a shown changed hne]
        · simp [hclaimed, hkind, Closing.painted_self]
      · simp [hclaimed, Closing.painted_self]

/-- In the second pass a node is settled from its children. -/
theorem settle?_paint {combined : Option RunResult}
    (hcombined : (a.paint shown).aggregate? i = some combined) :
    settle? ⟨a.paint shown, changed⟩ i =
      some (.painted a shown changed i ((shown i).settle combined)) := by
  rw [settle?, getElem?_paint_of_getElem? h, hcombined]
  simp only [Option.bind_eq_bind, Option.bind_some]
  cases combined with
  | none => rw [TestNode.settle, Closing.painted_self]
  | some r =>
      by_cases hr : (shown i).result = some r
      · have hself : (shown i).settle (some r) = shown i := by
          rw [TestNode.settle, ← hr]
        simp [hr, hself, Closing.painted_self]
      · simp [hr, Closing.change_paint a shown changed hr, TestNode.settle]

end Round

/-! ### A whole pass -/

/-- Nodes as they are after a pass, where it has come to them, and as before it elsewhere. -/
def halfway (before after : Nat → TestNode) (done : List Nat) : Nat → TestNode :=
  fun i => if i ∈ done then after i else before i

@[simp] theorem halfway_nil (before after : Nat → TestNode) : halfway before after [] = before := by
  funext i
  exact if_neg List.not_mem_nil

theorem halfway_concat (before after : Nat → TestNode) (done : List Nat) (i : Nat) :
    halfway before after (done ++ [i]) =
      Function.update (halfway before after done) i (after i) := by
  funext j
  by_cases hj : j = i
  · subst hj
    rw [halfway, if_pos (by simp), Function.update_self]
  · rw [Function.update_of_ne hj]
    simp [halfway, hj]

/-- A pass that leaves each node as it has to be, when it comes to it, leaves all of them so, and
writes down those that are shown with another result. -/
theorem foldlM_halfway {step : Closing → Nat → Option Closing} {before after : Nat → TestNode}
    {ids : List Nat} (hnodup : ids.Nodup)
    (hstep : ∀ done i rest, ids = done ++ i :: rest → i ∉ done → ∀ changed,
      step ⟨a.paint (halfway before after done), changed⟩ i =
        some (.painted a (halfway before after done) changed i (after i)))
    (changed : List Nat) :
    ids.foldlM step ⟨a.paint before, changed⟩ =
      some ⟨a.paint (halfway before after ids),
        changed ++ ids.flatMap fun i => changedAt i (before i) (after i)⟩ := by
  induction ids using List.reverseRecOn with
  | nil => simp
  | append_singleton done i ih =>
      have hi : i ∉ done := fun hmem => (List.nodup_append.mp hnodup).2.2 _ hmem _
        (List.mem_singleton_self i) rfl
      have hdone := ih (List.nodup_append.mp hnodup).1 fun before i rest heq =>
        hstep before i (rest ++ [_]) (by rw [heq, List.append_assoc, List.cons_append])
      have hbefore : halfway before after done i = before i := if_neg hi
      rw [List.foldlM_append, hdone, Option.bind_eq_bind, Option.bind_some, List.foldlM_cons,
        hstep done i [] rfl hi, Closing.painted, hbefore, ← halfway_concat, List.flatMap_append,
        List.flatMap_singleton, List.append_assoc]
      rfl

/-- If the nodes that a pass does not come to are as they have to be, all nodes are so after it. -/
theorem foldlM_pass {step : Closing → Nat → Option Closing} {before after : Nat → TestNode}
    {ids : List Nat} (hnodup : ids.Nodup)
    (hstep : ∀ done i rest, ids = done ++ i :: rest → i ∉ done → ∀ changed,
      step ⟨a.paint (halfway before after done), changed⟩ i =
        some (.painted a (halfway before after done) changed i (after i)))
    (hkept : ∀ i < a.nodes.length, i ∉ ids → after i = before i) (changed : List Nat) :
    ids.foldlM step ⟨a.paint before, changed⟩ =
      some ⟨a.paint after, changed ++ ids.flatMap fun i => changedAt i (before i) (after i)⟩ := by
  have hafter : a.paint (halfway before after ids) = a.paint after := paint_congr fun i hi => by
    unfold halfway
    split
    next => rfl
    next hnot => exact (hkept i hi hnot).symm
  rw [foldlM_halfway hnodup hstep, hafter]

/-! ### What was written down -/

theorem mem_destutter'_ne {l : List Nat} {i j : Nat} :
    j ∈ l.destutter' (· ≠ ·) i ↔ j ∈ i :: l := by
  induction l generalizing i with
  | nil => rfl
  | cons k rest ih =>
      by_cases hne : i ≠ k
      · rw [List.destutter'_cons_pos _ hne, List.mem_cons, ih, List.mem_cons (a := j) (b := i)]
      · obtain rfl := not_not.mp hne
        rw [List.destutter'_cons_neg _ hne, ih]
        simp

/-- Dropping repetitions loses nothing. -/
theorem mem_destutter_ne {l : List Nat} {j : Nat} : j ∈ l.destutter (· ≠ ·) ↔ j ∈ l := by
  cases l with
  | nil => rfl
  | cons i rest => exact mem_destutter'_ne

/-- In a sorted list no repetition is left. -/
theorem pairwise_destutter_ne {l : List Nat} (h : l.Pairwise (· ≤ ·)) :
    (l.destutter (· ≠ ·)).Pairwise (· < ·) := by
  cases l with
  | nil => exact List.Pairwise.nil
  | cons i rest =>
      rw [List.destutter_cons']
      induction rest generalizing i with
      | nil => exact List.pairwise_singleton _ _
      | cons k rest ih =>
          obtain ⟨hi, hrest⟩ := List.pairwise_cons.mp h
          by_cases hne : i ≠ k
          · rw [List.destutter'_cons_pos _ hne]
            refine List.pairwise_cons.mpr ⟨fun j hj => ?_, ih k hrest⟩
            have hik := hi k List.mem_cons_self
            have hkj : k ≤ j := by
              rcases List.mem_cons.mp (mem_destutter'_ne.mp hj) with rfl | hj
              exacts [Nat.le_refl _, (List.pairwise_cons.mp hrest).1 j hj]
            omega
          · obtain rfl := not_not.mp hne
            rw [List.destutter'_cons_neg _ hne]
            exact ih i hrest

end Arena

end SpecExplorer
