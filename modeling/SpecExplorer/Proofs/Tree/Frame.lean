/-
# The frame of a tree

A run, a click and a merge differ in what they may change of a tree. What comes from the outline is
its frame: all but the result, the run and the expansion of every node. Trees of one frame have the
same keys in the same places, so facts about keys and specs carry over from one to the other.
-/
import SpecExplorer.Proofs.Tree.Merged

namespace SpecExplorer

/-- A node as the outline has it, with nothing known of runs and clicks. -/
def TestNode.bare (n : TestNode) : TestNode :=
  { n with result := none, run := none, expanded := false }

namespace TestNode

@[simp] theorem bare_key (n : TestNode) : n.bare.key = n.key := rfl

@[simp] theorem bare_name (n : TestNode) : n.bare.name = n.name := rfl

@[simp] theorem bare_kind (n : TestNode) : n.bare.kind = n.kind := rfl

@[simp] theorem bare_range (n : TestNode) : n.bare.range = n.range := rfl

@[simp] theorem bare_focused (n : TestNode) : n.bare.focused = n.focused := rfl

@[simp] theorem bare_pending (n : TestNode) : n.bare.pending = n.pending := rfl

@[simp] theorem bare_labels (n : TestNode) : n.bare.labels = n.labels := rfl

theorem key_eq_of_bare_eq {m n : TestNode} (h : m.bare = n.bare) : m.key = n.key := by
  simpa using congrArg key h

theorem kind_eq_of_bare_eq {m n : TestNode} (h : m.bare = n.bare) : m.kind = n.kind := by
  simpa using congrArg kind h

end TestNode

namespace TestTree

mutual

/-- The tree with every node as the outline has it. -/
def frame : TestTree → TestTree
  | .node info children => .node info.bare (frames children)

def frames : List TestTree → List TestTree
  | [] => []
  | t :: rest => frame t :: frames rest

end

theorem frames_eq (ts : List TestTree) : frames ts = ts.map frame := by
  induction ts with
  | nil => rfl
  | cons t rest ih => rw [frames, ih, List.map_cons]

@[simp] theorem frame_node (info : TestNode) (children : List TestTree) :
    (node info children).frame = .node info.bare (children.map frame) := by
  rw [frame, frames_eq]

@[simp] theorem info_frame (t : TestTree) : t.frame.info = t.info.bare := by
  cases t
  simp

@[simp] theorem children_frame (t : TestTree) : t.frame.children = t.children.map frame := by
  cases t
  simp

@[simp] theorem key_frame (t : TestTree) : t.frame.key = t.key := by
  cases t
  simp

theorem subtrees_frame (t : TestTree) : t.frame.subtrees = t.subtrees.map frame := by
  induction t with
  | node info children ih =>
      rw [frame_node, subtrees_node, subtrees_node, List.map_cons, frame_node,
        List.flatMap_map, List.map_flatMap, List.flatMap_congr ih]

theorem nodes_frame (t : TestTree) : t.frame.nodes = t.nodes.map TestNode.bare := by
  rw [nodes_eq_map_subtrees, nodes_eq_map_subtrees, subtrees_frame, List.map_map, List.map_map]
  exact List.map_congr_left fun s _ => info_frame s

theorem keyed_frame {t : TestTree} : t.frame.Keyed ↔ t.Keyed := by
  simp only [Keyed, subtrees_frame, List.forall_mem_map, childKeys, children_frame, List.map_map,
    key_frame, info_frame, TestNode.bare_name]
  have hkeys : key ∘ frame = key := funext key_frame
  rw [hkeys]

theorem specsAreLeaves_frame {t : TestTree} : t.frame.SpecsAreLeaves ↔ t.SpecsAreLeaves := by
  simp [SpecsAreLeaves, subtrees_frame]

/-! ### Trees of one frame -/

section SameFrame

variable {t t' : TestTree} (hframe : t'.frame = t.frame)

include hframe

theorem Keyed.of_frame_eq (h : t.Keyed) : t'.Keyed :=
  keyed_frame.mp (hframe ▸ keyed_frame.mpr h)

theorem SpecsAreLeaves.of_frame_eq (h : t.SpecsAreLeaves) : t'.SpecsAreLeaves :=
  specsAreLeaves_frame.mp (hframe ▸ specsAreLeaves_frame.mpr h)

theorem bare_info_eq_of_frame_eq : t'.info.bare = t.info.bare := by
  rw [← info_frame, ← info_frame, hframe]

theorem name_eq_of_frame_eq : t'.info.name = t.info.name := by
  simpa using congrArg TestNode.name (bare_info_eq_of_frame_eq hframe)

theorem key_eq_of_frame_eq : t'.key = t.key := by
  rw [← key_frame, hframe, key_frame]

theorem contains_eq_of_frame_eq (key : NodeKey) : t'.contains key = t.contains key := by
  have hkeys : ∀ u : TestTree, u.contains key ↔ u.frame.contains key := by
    intro u
    simp [contains_iff, subtrees_frame]
  rw [Bool.eq_iff_iff, hkeys t', hkeys t, hframe]

end SameFrame

/-! ### Runs keep the frame -/

theorem touch_frame {change : TestNode → Option TestNode}
    (hbare : ∀ n n', change n = some n' → n'.bare = n.bare) (t : TestTree) :
    (t.touch change).1.frame = t.frame := by
  induction t with
  | node info children ih =>
      have hinfo : ((change info).getD info).bare = info.bare := by
        cases h : change info with
        | none => rfl
        | some n => exact hbare info n h
      rw [touch_fst, frame_node, frame_node, hinfo, List.map_map]
      exact congrArg _ (List.map_congr_left ih)

end TestTree

namespace TestNode

@[simp] theorem bare_settle (n : TestNode) (r : Option RunResult) :
    (n.settle r).bare = n.bare := by
  cases r <;> rfl

@[simp] theorem bare_close (n : TestNode) (run : RunId) (children : List TestTree) :
    (n.close run children).bare = n.bare := by
  rw [close]
  split
  · split <;> rfl
  · rfl

@[simp] theorem expanded_settle (n : TestNode) (r : Option RunResult) :
    (n.settle r).expanded = n.expanded := by
  cases r <;> rfl

@[simp] theorem expanded_close (n : TestNode) (run : RunId) (children : List TestTree) :
    (n.close run children).expanded = n.expanded := by
  rw [close]
  split
  · split <;> rfl
  · rfl

@[simp] theorem run_close (n : TestNode) (run : RunId) (children : List TestTree) :
    (n.close run children).run = n.run := by
  rw [close]
  split
  · split <;> rfl
  · rfl

theorem bare_of_prepare {run : RunId} {n n' : TestNode} (h : some (n.prepare run) = some n') :
    n'.bare = n.bare := by
  cases h
  rfl

theorem bare_of_start? {run : RunId} {n n' : TestNode} (h : n.start? run = some n') :
    n'.bare = n.bare := by
  rw [start?] at h
  split at h
  · split at h
    · cases h
      rfl
    · cases h
  · cases h

theorem bare_of_revert? {run : RunId} {n n' : TestNode} (h : n.revert? run = some n') :
    n'.bare = n.bare := by
  rw [revert?] at h
  split at h
  · cases h
    rfl
  · cases h

end TestNode

namespace TestTree

theorem finish_frame (run : RunId) (t : TestTree) : (t.finish run).1.frame = t.frame := by
  induction t with
  | node info children ih =>
      rw [finish_fst, frame_node, frame_node, finishNode, TestNode.bare_settle,
        TestNode.bare_close, List.map_map]
      exact congrArg _ (List.map_congr_left ih)

end TestTree

end SpecExplorer
