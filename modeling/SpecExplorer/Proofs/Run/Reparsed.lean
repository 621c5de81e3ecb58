/-
# Outlines that change during a run

While a run is under way its file may be outlined anew. A merge carries pending and running nodes
over by their keys, whatever becomes of the nodes below them, and the exit settles a container only
from what its children show. So a container is left under way where all below it is idle, as it is
when its specs were replaced during the run. This module shows that nothing else is left: every
node under way belongs to the run and to its scope, however often the file is outlined, and the
exit settles all of them but those containers.
-/
import SpecExplorer.Proofs.Run.Act
import SpecExplorer.Proofs.View.Delta

namespace SpecExplorer

open TestTree

namespace TestTree

variable {t : TestTree}

/-! ### Containers over nothing -/

/-- All nodes of a tree are idle. -/
def Idle (t : TestTree) : Prop := ∀ n ∈ t.nodes, n.result = none

theorem idle_iff : t.Idle ↔ ∀ s ∈ t.subtrees, s.info.result = none := by
  rw [Idle, nodes_eq_map_subtrees, List.forall_mem_map]

theorem idle_node {info : TestNode} {children : List TestTree} :
    (node info children).Idle ↔ info.result = none ∧ ∀ c ∈ children, c.Idle := by
  simp only [idle_iff, forall_subtrees_node, info_node]

/-- A node that is pending or running waits for its children, and all below it is idle. -/
structure Stranded (t : TestTree) : Prop where
  unfinished : t.info.isUnfinished
  notLeaf : t.info.isLeaf t.children = false
  idle : ∀ c ∈ t.children, c.Idle

/-! ### What is carried over -/

/-- A node that was not there before is idle, and belongs to no run. -/
theorem ofOutlineNode_fresh {old? : NodeKey → Option TestNode} {key : NodeKey} (o : OutlineNode) :
    ∀ s ∈ (ofOutlineNode old? key o).subtrees, old? s.key = none →
      s.info.result = none ∧ s.info.run = none := by
  induction o generalizing key with
  | node info children ih =>
      refine forall_subtrees_node.mpr ⟨fun hnone => ?_, fun c hc => ?_⟩
      · rw [key_node, TestNode.carry_key] at hnone
        rw [info_node, show old? key = none from hnone]
        exact ⟨rfl, rfl⟩
      · obtain ⟨m, hm, ordinal, -, rfl⟩ := exists_of_mem_ofOutlineNodes hc
        exact ih m hm

/-- After a merge a node has the result and the run of the node that had its key before. Where
there was none, it is idle and belongs to no run. -/
theorem exists_old_or_fresh {previous : TestTree} (hroot : previous.key = .root) (o : Outline)
    (name : String) {s : TestTree} (hs : s ∈ (ofOutline (some previous) o name).subtrees) :
    (∃ x ∈ previous.subtrees, x.key = s.key ∧ x.info.result = s.info.result ∧
        x.info.run = s.info.run) ∨
      ¬ previous.contains s.key ∧ s.info.result = none ∧ s.info.run = none := by
  cases hold : previous.node? s.key with
  | some n =>
      obtain ⟨hresult, hrun, -⟩ := ofOutline_carries hroot o name s hs n hold
      obtain ⟨x, hx, rfl⟩ := Option.map_eq_some_iff.mp hold
      obtain ⟨hmem, hkey⟩ := mem_subtrees_of_find? hx
      exact .inl ⟨x, hmem, hkey, hresult.symm, hrun.symm⟩
  | none =>
      have hgone : ¬ previous.contains s.key := by
        simpa [node?, contains] using hold
      rcases mem_subtrees_node.mp hs with rfl | ⟨c, hc, hsc⟩
      · rw [key_node, TestNode.carry_key] at hgone
        exact absurd (contains_iff.mpr ⟨_, self_mem_subtrees _, hroot⟩) hgone
      · obtain ⟨m, -, ordinal, -, rfl⟩ := exists_of_mem_ofOutlineNodes hc
        exact .inr ⟨hgone, ofOutlineNode_fresh m s hsc hold⟩

/-- What is under way after a merge was so before, and for the same run. -/
theorem exists_old_of_isUnfinished {previous : TestTree} (hroot : previous.key = .root)
    (o : Outline) (name : String) {s : TestTree}
    (hs : s ∈ (ofOutline (some previous) o name).subtrees) (h : s.info.isUnfinished) :
    ∃ x ∈ previous.subtrees, x.key = s.key ∧ x.info.run = s.info.run ∧ x.info.isUnfinished := by
  rcases exists_old_or_fresh hroot o name hs with ⟨x, hx, hkey, hresult, hrun⟩ | ⟨-, hidle, -⟩
  · refine ⟨x, hx, hkey, hrun, ?_⟩
    rwa [TestNode.isUnfinished, TestNode.status, hresult]
  · rw [TestNode.isUnfinished_of_idle hidle] at h
    cases h

end TestTree

namespace RunSession

variable {s : RunSession} {t x : TestTree}

/-! ### Closing a run at one node -/

/-- In its scope, a run leaves those nodes under way that its close does not skip and that have
nothing to show for their children. -/
theorem isUnfinished_closure_iff {n : TestNode} (hcovers : s.scope.covers n.key)
    {children : List TestTree} :
    (s.closure n children).isUnfinished ↔ combined children = none ∧ n.isUnfinished ∧
      ¬ (n.isClaimedBy s.run ∧ n.isLeaf children) := by
  rw [closure, around_below hcovers, isUnfinished_logged, closing, isUnfinished_settled_iff,
    TestNode.isUnfinished_close_iff]

/-- In its scope, a run leaves those nodes idle that are idle and have nothing to show for their
children. -/
theorem result_closure_eq_none_iff {n : TestNode} (hcovers : s.scope.covers n.key)
    {children : List TestTree} :
    (s.closure n children).result = none ↔ combined children = none ∧ n.result = none := by
  rw [closure, around_below hcovers, result_logged_eq_none_iff, closing]
  rcases settled_cases (n.close s.run children) children with ⟨hnone, heq⟩ | ⟨a, ha, heq⟩
  · rw [heq, TestNode.result_close_eq_none_iff, hnone]
    exact ⟨fun h => ⟨rfl, h⟩, And.right⟩
  · simp [heq, ha]

/-! ### Closing a run over a tree -/

theorem idle_closure (hkeyed : x.Keyed) (hcovers : s.scope.covers x.key) (h : x.Idle) :
    (x.rebuild s.closure).Idle := by
  induction x with
  | node info children ih =>
      obtain ⟨hroot, hchildren⟩ := idle_node.mp h
      have hchildren' : ∀ c ∈ children.map (rebuild s.closure), c.Idle :=
        List.forall_mem_map.mpr fun c hc => ih c hc (hkeyed.of_mem_children hc)
          (NodeKey.covers_trans hcovers (hkeyed.covers_of_mem_children hc)) (hchildren c hc)
      rw [rebuild_node, idle_node]
      refine ⟨(result_closure_eq_none_iff hcovers).mpr
        ⟨combined_eq_none_iff.mpr (.inl fun c hc => ?_), hroot⟩, hchildren'⟩
      exact idle_iff.mp (hchildren' c hc) c (self_mem_subtrees c)

/-- A tree whose root stays idle while nothing in it is left under way was idle as a whole. -/
theorem idle_of_quiet_closure (hkeyed : x.Keyed) (hcovers : s.scope.covers x.key)
    (hquiet : (x.rebuild s.closure).Quiet) (hroot : (x.rebuild s.closure).info.result = none) :
    x.Idle := by
  induction x with
  | node info children ih =>
      rw [rebuild_node] at hquiet hroot
      obtain ⟨hnone, hresult⟩ := (result_closure_eq_none_iff hcovers).mp hroot
      obtain ⟨-, hchildren⟩ := quiet_node.mp hquiet
      have hidle := result_eq_none_of_combined hchildren hnone
      rw [List.forall_mem_map] at hidle hchildren
      refine idle_node.mpr ⟨hresult, fun c hc => ih c hc (hkeyed.of_mem_children hc) ?_
        (hchildren c hc) (hidle c hc)⟩
      exact NodeKey.covers_trans hcovers (hkeyed.covers_of_mem_children hc)

/-- Whatever is under way belongs to the run and lies in its scope. -/
def Owns (s : RunSession) (t : TestTree) : Prop :=
  ∀ x ∈ t.subtrees, x.info.isUnfinished → x.info.isClaimedBy s.run ∧ s.scope.covers x.key

theorem Owns.of_mem_children {c : TestTree} (h : s.Owns t) (hc : c ∈ t.children) : s.Owns c :=
  fun x hx => h x (mem_subtrees_trans hx (mem_subtrees_of_mem_children hc))

/-- Where something is left under way, something was stranded. -/
theorem exists_stranded (hkeyed : t.Keyed) (howns : s.Owns t)
    (h : ¬ (t.rebuild s.closure).Quiet) : ∃ x ∈ t.subtrees, x.Stranded := by
  induction t with
  | node info children ih =>
      rw [rebuild_node] at h
      by_cases hchildren : ∀ c ∈ children.map (rebuild s.closure), c.Quiet
      · have hroot : (s.closure info (children.map (rebuild s.closure))).isUnfinished := by
          by_contra hroot
          exact h (quiet_node.mpr ⟨hroot, hchildren⟩)
        have hopen : info.isUnfinished := s.calm_closure.unfinished _ _ hroot
        obtain ⟨hclaimed, hcovers⟩ := howns _ (self_mem_subtrees _) hopen
        obtain ⟨hnone, -, hleaf⟩ := (isUnfinished_closure_iff hcovers).mp hroot
        have hidle := result_eq_none_of_combined hchildren hnone
        rw [List.forall_mem_map] at hidle hchildren
        refine ⟨_, self_mem_subtrees _, hopen, ?_, fun c hc => idle_of_quiet_closure
          (hkeyed.of_mem_children hc) (NodeKey.covers_trans hcovers
            (hkeyed.covers_of_mem_children hc)) (hchildren c hc) (hidle c hc)⟩
        rw [TestNode.isLeaf, List.isEmpty_map] at hleaf
        exact Bool.eq_false_iff.mpr fun hleaf' => hleaf ⟨hclaimed, hleaf'⟩
      · rw [List.forall_mem_map] at hchildren
        simp only [not_forall, exists_prop] at hchildren
        obtain ⟨c, hc, hopen⟩ := hchildren
        obtain ⟨x, hx, hstranded⟩ := ih c hc (hkeyed.of_mem_children hc)
          (howns.of_mem_children hc) hopen
        exact ⟨x, mem_subtrees_node.mpr (.inr ⟨c, hc, hx⟩), hstranded⟩

/-- What is stranded is left under way. -/
theorem isUnfinished_of_stranded (hkeyed : x.Keyed) (hcovers : s.scope.covers x.key)
    (h : x.Stranded) : (x.rebuild s.closure).info.isUnfinished := by
  rw [info_rebuild, isUnfinished_closure_iff hcovers]
  refine ⟨combined_eq_none_iff.mpr (.inl (List.forall_mem_map.mpr fun c hc => ?_)),
    h.unfinished, fun hleaf => ?_⟩
  · have hidle := idle_closure (hkeyed.of_mem_children hc)
      (NodeKey.covers_trans hcovers (hkeyed.covers_of_mem_children hc)) (h.idle c hc)
    exact idle_iff.mp hidle _ (self_mem_subtrees _)
  · have hleaf' := h.notLeaf
    rw [TestNode.isLeaf] at hleaf hleaf'
    rw [List.isEmpty_map, hleaf'] at hleaf
    cases hleaf.2

/-- Closing a run that owns whatever is under way leaves nothing so, unless something is
stranded. -/
theorem quiet_closure_iff (hkeyed : t.Keyed) (howns : s.Owns t) :
    (t.rebuild s.closure).Quiet ↔ ∀ x ∈ t.subtrees, ¬ x.Stranded := by
  refine ⟨fun hquiet x hx hstranded => ?_, fun hnone => ?_⟩
  · obtain ⟨-, hcovers⟩ := howns x hx hstranded.unfinished
    have hopen := isUnfinished_of_stranded (hkeyed.of_mem_subtrees hx) hcovers hstranded
    exact forall_subtrees_rebuild.mp (quiet_iff.mp hquiet) x hx hopen
  · by_contra hopen
    obtain ⟨x, hx, hstranded⟩ := exists_stranded hkeyed howns hopen
    exact hnone x hx hstranded

/-! ### Events and outlines in turn -/

/-- What may happen while a run is under way and no other is: an event of the run, or a fresh
outline of the file. -/
inductive Turn where
  | event (e : RunEvent)
  | reparse (o : Outline) (name : String)

/-- Whether a turn is the exit of the run. -/
def Turn.isExit : Turn → Bool
  | .event e => RunSession.isExit e
  | .reparse _ _ => false

/-- Takes a turn. -/
def turn (s : RunSession) (t : TestTree) : Turn → RunSession × TestTree
  | .event e => ((s.apply t e).1, (s.apply t e).2.1)
  | .reparse o name => (s, (TestTree.merge (some t) o name).1)

/-- Takes turns one after the other. -/
def turnAll (s : RunSession) (t : TestTree) : List Turn → RunSession × TestTree
  | [] => (s, t)
  | a :: rest => turnAll (s.turn t a).1 (s.turn t a).2 rest

theorem turnAll_append (s : RunSession) (t : TestTree) (before after : List Turn) :
    s.turnAll t (before ++ after) =
      (s.turnAll t before).1.turnAll (s.turnAll t before).2 after := by
  induction before generalizing s t with
  | nil => rfl
  | cons a rest ih => exact ih _ _

theorem keyed_turn (hkeyed : t.Keyed) (s : RunSession) (a : Turn) : (s.turn t a).2.Keyed := by
  cases a with
  | event e => exact hkeyed.of_frame_eq (s.apply_frame t e)
  | reparse o name => exact ofOutline_keyed _ o name

theorem key_turn (hroot : t.key = .root) (s : RunSession) (a : Turn) :
    (s.turn t a).2.key = .root := by
  cases a with
  | event e => exact (key_eq_of_frame_eq (s.apply_frame t e)).trans hroot
  | reparse o name => exact ofOutline_key _ o name

@[simp] theorem turn_scope (s : RunSession) (t : TestTree) (a : Turn) :
    (s.turn t a).1.scope = s.scope := by
  cases a with
  | event e => exact apply_scope s t e
  | reparse o name => rfl

@[simp] theorem turn_run (s : RunSession) (t : TestTree) (a : Turn) :
    (s.turn t a).1.run = s.run := by
  cases a with
  | event e => exact apply_run s t e
  | reparse o name => rfl

/-- A session is finished once a turn was the exit of its run. -/
theorem turn_finished (s : RunSession) (t : TestTree) (a : Turn) :
    (s.turn t a).1.finished = (s.finished || a.isExit) := by
  cases a with
  | event e => exact apply_finished s t e
  | reparse o name => exact (Bool.or_false _).symm

/-- The one session under way, on the tree of a file. -/
structure Sole (s : RunSession) (t : TestTree) : Prop where
  keyed : t.Keyed
  root : t.key = .root
  running : s.finished = false
  owns : s.Owns t

namespace Sole

theorem start (hkeyed : t.Keyed) (hroot : t.key = .root) (hquiet : t.Quiet) (scope : NodeKey)
    (run : RunId) : Sole (RunSession.start t scope run).1 (RunSession.start t scope run).2.1 where
  keyed := hkeyed.of_frame_eq (start_frame t scope run)
  root := (key_eq_of_frame_eq (start_frame t scope run)).trans hroot
  running := rfl
  owns := by
    rw [Owns, start_eq_rebuild hkeyed hroot]
    refine forall_subtrees_rebuild.mpr fun x hx hopen => ?_
    have hcovers : scope.covers x.key :=
      (isUnfinished_preparing.mp hopen).resolve_right (quiet_iff.mp hquiet x hx)
    rw [key_rebuild (bare_preparing scope run), isClaimedBy_preparing, if_pos hcovers]
    exact ⟨rfl, hcovers⟩

theorem owns_turn (h : Sole s t) (a : Turn) : (s.turn t a).1.Owns (s.turn t a).2 := by
  rw [Owns, turn_run, turn_scope]
  cases a with
  | reparse o name =>
      intro y hy hopen
      obtain ⟨x, hx, hkey, hrun, hopen⟩ := exists_old_of_isUnfinished h.root o name hy hopen
      obtain ⟨hclaimed, hcovers⟩ := h.owns x hx hopen
      rw [TestNode.isClaimedBy, hrun] at hclaimed
      exact ⟨hclaimed, hkey ▸ hcovers⟩
  | event e =>
      obtain ⟨f, hact, htree⟩ := exists_act h.keyed h.root s (.event e)
      have htree' : (s.turn t (.event e)).2 = t.rebuild f := htree
      rw [htree']
      refine forall_subtrees_rebuild.mpr fun x hx hopen => ?_
      rw [info_rebuild] at hopen
      rw [key_rebuild hact.calm.bare, hact.calm.isClaimedBy]
      exact h.owns x hx (hact.calm.unfinished _ _ hopen)

theorem turn (h : Sole s t) {a : Turn} (hexit : a.isExit = false) :
    Sole (s.turn t a).1 (s.turn t a).2 where
  keyed := keyed_turn h.keyed s a
  root := key_turn h.root s a
  running := by rw [turn_finished, h.running, hexit, Bool.or_false]
  owns := h.owns_turn a

theorem turnAll (h : Sole s t) {turns : List Turn} (hexit : turns.any Turn.isExit = false) :
    Sole (s.turnAll t turns).1 (s.turnAll t turns).2 := by
  induction turns generalizing s t with
  | nil => exact h
  | cons a rest ih =>
      rw [List.any_cons, Bool.or_eq_false_iff] at hexit
      exact ih (h.turn hexit.1) hexit.2

/-- The exit leaves nothing under way, unless something is stranded. -/
theorem quiet_exit_iff (h : Sole s t) (success : Bool) (code : Option Int) :
    (s.apply t (.exited success code)).2.1.Quiet ↔ ∀ x ∈ t.subtrees, ¬ x.Stranded := by
  obtain ⟨f, hact, htree⟩ := exists_act h.keyed h.root s (.event (.exited success code))
  have htree' : (s.apply t (.exited success code)).2.1 = t.rebuild f := htree
  rw [htree']
  cases hact with
  | closed _ _ _ => exact quiet_closure_iff h.keyed h.owns
  | stay _ hcloses =>
      -- The scope is gone, and with it whatever the run had under way.
      have hscope : ¬ t.contains s.scope := by
        refine (hcloses rfl).resolve_left ?_
        rw [h.running]
        exact nofun
      have hquiet : ∀ x ∈ t.subtrees, ¬ x.info.isUnfinished := fun x hx hopen =>
        hscope (h.keyed.contains_above h.root hx (h.owns x hx hopen).2)
      rw [rebuild_eq_self fun _ _ => rfl, quiet_iff]
      exact iff_of_true hquiet fun x hx hstranded => hquiet x hx hstranded.unfinished

end Sole

/-- A run over a quiet tree leaves it quiet after its exit, however often the file is outlined
anew in between, exactly if no container is stranded when it exits: pending or running over
nothing but idle nodes. -/
theorem quiet_after_exit_iff_none_stranded {t : TestTree} (hkeyed : t.Keyed)
    (hroot : t.key = .root) (hquiet : t.Quiet) (scope : NodeKey) (run : RunId)
    {turns : List Turn} (hturns : turns.any Turn.isExit = false) (success : Bool)
    (code : Option Int) :
    (turnAll (start t scope run).1 (start t scope run).2.1
      (turns ++ [.event (.exited success code)])).2.Quiet ↔
    ∀ x ∈ (turnAll (start t scope run).1 (start t scope run).2.1 turns).2.subtrees,
      ¬ x.Stranded := by
  rw [turnAll_append]
  exact ((Sole.start hkeyed hroot hquiet scope run).turnAll hturns).quiet_exit_iff success code

/-- A container is left running when its only spec is renamed while the run is under way. -/
theorem cart_left_running_by_rename :
    (TestTree.merge none (.cartOf ["adds"]) "cart_test.go").1.Quiet ∧
      ¬ (turnAll
        (start (TestTree.merge none (.cartOf ["adds"]) "cart_test.go").1 (.ofNames ["cart"]) 7).1
        (start (TestTree.merge none (.cartOf ["adds"]) "cart_test.go").1 (.ofNames ["cart"]) 7).2.1
        [.event .started, .reparse (.cartOf ["removes"]) "cart_test.go",
          .event (.exited true (some 0))]).2.Quiet := by
  decide +kernel

theorem quiet_after_exit_iff_none_stranded_cart :
    (turnAll
      (start (TestTree.merge none (.cartOf ["adds"]) "cart_test.go").1 (.ofNames ["cart"]) 7).1
      (start (TestTree.merge none (.cartOf ["adds"]) "cart_test.go").1 (.ofNames ["cart"]) 7).2.1
      ([.event .started, .reparse (.cartOf ["adds", "removes"]) "cart_test.go"] ++
        [.event (.exited true (some 0))])).2.Quiet ∧
    ∀ x ∈ (turnAll
      (start (TestTree.merge none (.cartOf ["adds"]) "cart_test.go").1 (.ofNames ["cart"]) 7).1
      (start (TestTree.merge none (.cartOf ["adds"]) "cart_test.go").1 (.ofNames ["cart"]) 7).2.1
      [.event .started, .reparse (.cartOf ["adds", "removes"]) "cart_test.go"]).2.subtrees,
      ¬ x.Stranded := by
  have hturns : [.event .started, .reparse (.cartOf ["adds", "removes"]) "cart_test.go"].any
      Turn.isExit = false := rfl
  have hiff := quiet_after_exit_iff_none_stranded (ofOutline_keyed none (.cartOf ["adds"])
    "cart_test.go") (ofOutline_key none _ _) (by decide +kernel) (.ofNames ["cart"]) 7 hturns true
    (some 0)
  have hquiet := by
    refine hiff.mp ?_
    decide +kernel
  exact ⟨hiff.mpr hquiet, hquiet⟩

end RunSession

end SpecExplorer
