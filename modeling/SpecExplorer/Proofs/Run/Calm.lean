/-
# Calm changes

Once a run has been prepared, nothing that is done for it puts a node under way that was not: nodes
start, are settled, closed or given up, and all of this leaves a node unfinished only where it was
unfinished before. Nor does it touch what comes from the outline, or which run a node belongs to.
This module says so for each change of a node that the operations of a run are made of.
-/
import SpecExplorer.Proofs.Run.Combined
import SpecExplorer.Proofs.Tree.Rebuilt

namespace SpecExplorer

open TestTree

/-! ### Nodes under way -/

namespace TestNode

variable {n : TestNode}

theorem isUnfinished_of_result {r : RunResult} (h : n.result = some r) :
    n.isUnfinished = !r.status.isTerminal := by
  simp [isUnfinished, status, h]

theorem isUnfinished_of_idle (h : n.result = none) : n.isUnfinished = false := by
  simp [isUnfinished, status, h]

theorem exists_result_of_isUnfinished (h : n.isUnfinished) :
    ∃ r, n.result = some r ∧ r.status.isTerminal = false := by
  cases hr : n.result with
  | none =>
      rw [isUnfinished_of_idle hr] at h
      cases h
  | some r => exact ⟨r, rfl, by simpa [isUnfinished_of_result hr] using h⟩

theorem isClaimedBy_iff {run : RunId} : n.isClaimedBy run ↔ n.run = some run := by
  rw [isClaimedBy, beq_iff_eq]

@[simp] theorem run_prepare (n : TestNode) (run : RunId) : (n.prepare run).run = some run := rfl

@[simp] theorem isUnfinished_prepare (n : TestNode) (run : RunId) :
    (n.prepare run).isUnfinished := rfl

theorem isUnfinished_start (run : RunId) (n : TestNode) :
    ((n.start? run).getD n).isUnfinished = n.isUnfinished := by
  rcases start?_getD_cases run n with heq | ⟨r, hr, hpending, heq⟩
  · rw [heq]
  · rw [heq, isUnfinished_of_result hr, hpending]
    rfl

@[simp] theorem run_start (run : RunId) (n : TestNode) :
    ((n.start? run).getD n).run = n.run := by
  rcases start?_getD_cases run n with heq | ⟨r, -, -, heq⟩ <;> rw [heq]

@[simp] theorem bare_start (run : RunId) (n : TestNode) :
    ((n.start? run).getD n).bare = n.bare := by
  rcases start?_getD_cases run n with heq | ⟨r, -, -, heq⟩ <;> rw [heq]
  rfl

/-- Giving a run up makes its unfinished nodes idle. -/
theorem revert?_getD (run : RunId) (n : TestNode) :
    (n.revert? run).getD n =
      if n.isClaimedBy run && n.isUnfinished then { n with result := none } else n := by
  unfold revert?
  split <;> rfl

@[simp] theorem run_revert (run : RunId) (n : TestNode) :
    ((n.revert? run).getD n).run = n.run := by
  rw [revert?_getD]
  split <;> rfl

@[simp] theorem bare_revert (run : RunId) (n : TestNode) :
    ((n.revert? run).getD n).bare = n.bare := by
  rw [revert?_getD]
  split <;> rfl

/-- After a run is given up, the unfinished nodes are those that it had no claim on. -/
theorem isUnfinished_revert_iff {run : RunId} :
    ((n.revert? run).getD n).isUnfinished ↔ n.isUnfinished ∧ ¬ n.isClaimedBy run := by
  rw [revert?_getD]
  split
  next h =>
      rw [Bool.and_eq_true] at h
      exact iff_of_false (by simp [isUnfinished_of_idle]) fun hnot => hnot.2 h.1
  next h =>
      rw [Bool.and_eq_true] at h
      exact ⟨fun hopen => ⟨hopen, fun hclaimed => h ⟨hclaimed, hopen⟩⟩, And.left⟩

@[simp] theorem run_settle (n : TestNode) (r : Option RunResult) : (n.settle r).run = n.run := by
  cases r <;> rfl

/-- After the close of a run, the unfinished nodes are those that are no leaves or that it had no
claim on. -/
theorem isUnfinished_close_iff {run : RunId} {children : List TestTree} :
    (n.close run children).isUnfinished ↔
      n.isUnfinished ∧ ¬ (n.isClaimedBy run ∧ n.isLeaf children) := by
  unfold close
  split
  next r hr =>
      rw [isUnfinished_of_result hr]
      split
      next hclosed =>
          rw [Bool.and_eq_true, Bool.and_eq_true] at hclosed
          exact iff_of_false (by simp [isUnfinished, status, RunStatus.isTerminal])
            fun hnot => hnot.2 hclosed.1
      next hclosed =>
          rw [Bool.and_eq_true, Bool.and_eq_true] at hclosed
          rw [isUnfinished_of_result hr]
          exact ⟨fun hopen => ⟨hopen, fun hleaf => hclosed ⟨hleaf, hopen⟩⟩, And.left⟩
  next hr => simp [isUnfinished_of_idle hr]

theorem result_close_eq_none_iff {run : RunId} {children : List TestTree} :
    (n.close run children).result = none ↔ n.result = none := by
  unfold close
  split
  next r hr => split <;> simp [hr]
  next hr => rfl

theorem not_isUnfinished_of_isFinished (h : n.isFinished) : ¬ n.isUnfinished := by
  cases hr : n.result with
  | none => simp [isUnfinished_of_idle hr]
  | some r =>
      rw [isFinished_of_result hr] at h
      simp [isUnfinished_of_result hr, h]

end TestNode

namespace TestTree

theorem run_settled (info : TestNode) (children : List TestTree) :
    (settled info children).run = info.run :=
  TestNode.run_settle _ _

/-- A node that is settled shows the combined result of its children, or nothing new. -/
theorem settled_cases (info : TestNode) (children : List TestTree) :
    combined children = none ∧ settled info children = info ∨
      ∃ a, combined children = some a ∧
        settled info children = { info with result := some a } := by
  unfold settled
  cases h : combined children with
  | none => exact .inl ⟨rfl, rfl⟩
  | some a => exact .inr ⟨a, rfl, rfl⟩

/-- Of settling twice the second time counts, if the children have something to show then, or had
nothing the first time. -/
theorem settled_settled {info : TestNode} {before after : List TestTree}
    (h : combined after = none → combined before = none) :
    settled (settled info before) after = settled info after := by
  unfold settled
  cases hafter : combined after with
  | none =>
      rw [h hafter]
      rfl
  | some a => cases combined before <;> rfl

/-- A node that is settled is unfinished if it was and its children have nothing to show. -/
theorem isUnfinished_settled_iff {info : TestNode} {children : List TestTree} :
    (settled info children).isUnfinished ↔ combined children = none ∧ info.isUnfinished := by
  rcases settled_cases info children with ⟨hnone, heq⟩ | ⟨a, ha, heq⟩
  · simp [heq, hnone]
  · have hresult : (settled info children).result = some a := by rw [heq]
    simp [TestNode.isUnfinished_of_result hresult, isTerminal_of_combined ha, ha]

theorem isFinished_settled_of_combined {info : TestNode} {children : List TestTree}
    {a : RunResult} (ha : combined children = some a) : (settled info children).isFinished := by
  have hresult : (settled info children).result = some a := by rw [settled, ha]; rfl
  rw [TestNode.isFinished_of_result hresult]
  exact isTerminal_of_combined ha

/-! ### Changes that put nothing under way -/

/-- No node is pending or running. -/
def Quiet (t : TestTree) : Prop := ∀ n ∈ t.nodes, ¬ n.isUnfinished

instance (t : TestTree) : Decidable t.Quiet :=
  inferInstanceAs (Decidable (∀ n ∈ t.nodes, ¬ n.isUnfinished))

theorem quiet_iff {t : TestTree} : t.Quiet ↔ ∀ s ∈ t.subtrees, ¬ s.info.isUnfinished := by
  rw [Quiet, nodes_eq_map_subtrees, List.forall_mem_map]

theorem quiet_node {info : TestNode} {children : List TestTree} :
    (node info children).Quiet ↔ ¬ info.isUnfinished ∧ ∀ c ∈ children, c.Quiet := by
  simp only [quiet_iff, forall_subtrees_node, info_node]

/-- A change keeps what comes from the outline and which run a node belongs to, and puts no node
under way. -/
structure Calm (f : NodeChange) : Prop where
  bare : ∀ info children, (f info children).bare = info.bare
  run : ∀ info children, (f info children).run = info.run
  unfinished : ∀ info children, (f info children).isUnfinished → info.isUnfinished

theorem calm_kept : Calm kept :=
  ⟨fun _ _ => rfl, fun _ _ => rfl, fun _ _ h => h⟩

theorem calm_settled : Calm settled :=
  ⟨bare_settled, run_settled, fun _ _ h => (isUnfinished_settled_iff.mp h).2⟩

theorem calm_closing (run : RunId) : Calm (closing run) where
  bare _ _ := (bare_settled _ _).trans (TestNode.bare_close _ _ _)
  run _ _ := (run_settled _ _).trans (TestNode.run_close _ _ _)
  unfinished _ _ h :=
    (TestNode.isUnfinished_close_iff.mp (calm_settled.unfinished _ _ h)).1

theorem Calm.around {below above : NodeChange} (hbelow : Calm below) (habove : Calm above)
    (place : NodeKey) : Calm (around place below above) where
  bare := bare_around hbelow.bare habove.bare
  run info children := by
    unfold TestTree.around
    repeat' split
    · exact hbelow.run info children
    · exact habove.run info children
    · rfl
  unfinished info children := by
    unfold TestTree.around
    repeat' split
    · exact hbelow.unfinished info children
    · exact habove.unfinished info children
    · exact id

/-- A change that keeps what comes from the outline keeps the leaves. -/
theorem isLeaf_rebuild {f : NodeChange}
    (hf : ∀ info children, (f info children).bare = info.bare) (t : TestTree) :
    (t.rebuild f).info.isLeaf (t.rebuild f).children = t.info.isLeaf t.children := by
  have hkind := TestNode.kind_eq_of_bare_eq (hf t.info (t.children.map (rebuild f)))
  rw [TestNode.isLeaf, TestNode.isLeaf, info_rebuild, children_rebuild, List.isEmpty_map, hkind]

theorem Calm.isClaimedBy {f : NodeChange} (hf : Calm f) (t : TestTree) (run : RunId) :
    (t.rebuild f).info.isClaimedBy run = t.info.isClaimedBy run := by
  rw [info_rebuild, TestNode.isClaimedBy, TestNode.isClaimedBy, hf.run]

theorem calm_recording (key : NodeKey) {r : RunResult} (hr : r.status.isTerminal) :
    Calm (recording key r) := by
  refine Calm.around ⟨fun info _ => ?_, fun info _ => ?_, fun info _ => ?_⟩ calm_settled key
  · split <;> rfl
  · split <;> rfl
  · split
    · intro h
      rw [TestNode.isUnfinished_of_result (r := r) rfl, hr] at h
      cases h
    · exact id

theorem calm_starting (run : RunId) : Calm (touching (·.start? run)) where
  bare info _ := TestNode.bare_start run info
  run info _ := TestNode.run_start run info
  unfinished info _ h := by rwa [touching, TestNode.isUnfinished_start] at h

theorem calm_reverting (run : RunId) : Calm (touching (·.revert? run)) where
  bare info _ := TestNode.bare_revert run info
  run info _ := TestNode.run_revert run info
  unfinished _ _ h := (TestNode.isUnfinished_revert_iff.mp h).1

/-- The start of a run leaves the same nodes under way. -/
theorem isUnfinished_starting (scope : NodeKey) (run : RunId) (t : TestTree) :
    (t.rebuild (around scope (touching (·.start? run)) kept)).info.isUnfinished =
      t.info.isUnfinished := by
  rw [info_rebuild, around_kept]
  split
  · exact TestNode.isUnfinished_start run t.info
  · rfl

/-! ### What a combined result depends on -/

/-- Siblings have nothing to show together while all are idle or one is under way. -/
theorem combined_eq_none_iff {children : List TestTree} :
    combined children = none ↔
      (∀ c ∈ children, c.info.result = none) ∨ ∃ c ∈ children, c.info.isUnfinished := by
  rw [← Option.not_isSome_iff_eq_none, combined_eq_combine, RunResult.combine_isSome_iff,
    Decidable.not_and_iff_or_not, not_ne_iff]
  refine or_congr ?_ ?_
  · rw [results, List.filterMap_eq_nil_iff]
  · simp only [results, List.mem_filterMap, not_forall, exists_prop]
    constructor
    · rintro ⟨r, ⟨c, hc, hr⟩, hopen⟩
      exact ⟨c, hc, by simp [TestNode.isUnfinished_of_result hr, hopen]⟩
    · rintro ⟨c, hc, hopen⟩
      obtain ⟨r, hr, hstatus⟩ := TestNode.exists_result_of_isUnfinished hopen
      exact ⟨r, ⟨c, hc, hr⟩, by simp [hstatus]⟩

/-- Quiet siblings that have nothing to show together are idle. -/
theorem result_eq_none_of_combined {children : List TestTree}
    (hquiet : ∀ c ∈ children, c.Quiet) (hnone : combined children = none) :
    ∀ c ∈ children, c.info.result = none := by
  refine (combined_eq_none_iff.mp hnone).resolve_right ?_
  rintro ⟨c, hc, hopen⟩
  exact quiet_iff.mp (hquiet c hc) c (self_mem_subtrees c) hopen

/-- What siblings show together after a change, they showed before it, if it left each of them
under way or with the result that it had. -/
theorem combined_of_map {children : List TestTree} {F : TestTree → TestTree} {a : RunResult}
    (h : ∀ c ∈ children, (F c).info.isUnfinished ∨ (F c).info.result = c.info.result)
    (ha : combined (children.map F) = some a) : combined children = some a := by
  have hsame : ∀ c ∈ children, (F c).info.result = c.info.result := by
    intro c hc
    refine (h c hc).resolve_left fun hopen => ?_
    rw [combined_eq_none_iff.mpr (.inr ⟨_, List.mem_map_of_mem hc, hopen⟩)] at ha
    cases ha
  rw [← ha, combined, combined, List.filterMap_map]
  exact congrArg _ (List.filterMap_congr fun c hc => (hsame c hc).symm)

/-- A combined result takes no notice of outputs. -/
theorem combined_map_congr {children : List TestTree} {F : TestTree → TestTree}
    (h : ∀ c ∈ children, (F c).info.status = c.info.status ∧ (F c).info.nanos? = c.info.nanos?) :
    combined (children.map F) = combined children := by
  have hview : ∀ c ∈ children, (F c).info.result.map (fun r => (r.status, r.nanos)) =
      c.info.result.map (fun r => (r.status, r.nanos)) := by
    intro c hc
    obtain ⟨hstatus, hnanos⟩ := h c hc
    unfold TestNode.status at hstatus
    unfold TestNode.nanos? at hnanos
    cases hF : (F c).info.result <;> cases hr : c.info.result <;> simp_all
  have hmap : (results (children.map F)).map (fun r => (r.status, r.nanos)) =
      (results children).map (fun r => (r.status, r.nanos)) := by
    simp only [results, List.map_filterMap, List.filterMap_map]
    exact List.filterMap_congr hview
  have hstatuses : (results (children.map F)).map (·.status) =
      (results children).map (·.status) := by
    simpa only [List.map_map, Function.comp_def] using congrArg (List.map Prod.fst) hmap
  have hnanos : (results (children.map F)).filterMap (·.nanos) =
      (results children).filterMap (·.nanos) := by
    simpa only [List.filterMap_map, Function.comp_def] using congrArg (List.filterMap Prod.snd) hmap
  simp only [combined_eq_combine, RunResult.combine, RunResult.foldl_addNanos, hstatuses, hnanos]

/-! ### What recording a result makes of a subtree -/

/-- Recording a result at a key sets it there, settles what is above, and changes nothing else. -/
theorem rebuild_recording_cases {t : TestTree} (hkeyed : t.Keyed) (key : NodeKey)
    (r : RunResult) :
    t.rebuild (recording key r) = t ∨
      t.key = key ∧ (t.rebuild (recording key r)).info = { t.info with result := some r } ∨
      t.key.covers key ∧ (t.rebuild (recording key r)).info =
        settled t.info (t.rebuild (recording key r)).children := by
  rw [info_rebuild, children_rebuild]
  by_cases hbelow : key.covers t.key
  · by_cases hkey : t.key = key
    · refine .inr (.inl ⟨hkey, ?_⟩)
      rw [recording, around_below hbelow, if_pos (show t.info.key = key from hkey)]
    · refine .inl (rebuild_eq_self fun y hy => ?_)
      have hty := hkeyed.covers_of_mem_subtrees hy
      rw [recording, around_below (NodeKey.covers_trans hbelow hty), if_neg]
      rintro rfl
      exact hkey (NodeKey.covers_antisymm hty hbelow)
  · by_cases habove : t.key.covers key
    · exact .inr (.inr ⟨habove, around_above hbelow habove _⟩)
    · exact .inl (hkeyed.rebuild_apart hbelow habove fun _ children hb ha =>
        around_apart hb ha children)

end TestTree

end SpecExplorer
