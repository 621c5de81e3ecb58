/-
# Subtrees of a test tree

The functions on trees recurse through lists of children. This module gives each of them one
equation over the whole list, an induction principle that speaks of all children at once, and the
subtrees of a tree in pre-order. A statement about every node together with its children is a
statement about every subtree.
-/
import Mathlib.Data.List.Basic
import SpecExplorer.Tree.Merge
import SpecExplorer.Tree.Run

namespace SpecExplorer.TestTree

/-- Induction over a tree, with the hypothesis for every child. -/
@[elab_as_elim, induction_eliminator]
theorem induction {motive : TestTree → Prop}
    (node : ∀ info children, (∀ c ∈ children, motive c) → motive (.node info children))
    (t : TestTree) : motive t := by
  refine TestTree.rec (motive_1 := motive) (motive_2 := fun cs => ∀ c ∈ cs, motive c)
    node ?_ ?_ t
  · intro c hc
    cases hc
  · intro head tail hhead htail c hc
    rcases List.mem_cons.mp hc with rfl | hc
    · exact hhead
    · exact htail c hc

@[simp] theorem info_node (info : TestNode) (children : List TestTree) :
    (node info children).info = info := rfl

@[simp] theorem children_node (info : TestNode) (children : List TestTree) :
    (node info children).children = children := rfl

@[simp] theorem key_node (info : TestNode) (children : List TestTree) :
    (node info children).key = info.key := rfl

/-! ### One equation for each recursion -/

theorem forestNodes_eq (ts : List TestTree) : forestNodes ts = ts.flatMap nodes := by
  induction ts with
  | nil => rfl
  | cons t rest ih => rw [forestNodes, ih, List.flatMap_cons]

@[simp] theorem nodes_node (info : TestNode) (children : List TestTree) :
    (node info children).nodes = info :: children.flatMap nodes := by
  rw [nodes, forestNodes_eq]

theorem findAmong?_eq (key : NodeKey) (ts : List TestTree) :
    findAmong? key ts = ts.findSome? (find? key) := by
  induction ts with
  | nil => rfl
  | cons t rest ih =>
      rw [findAmong?, ih, List.findSome?_cons]
      cases find? key t <;> rfl

theorem find?_node (key : NodeKey) (info : TestNode) (children : List TestTree) :
    (node info children).find? key =
      if info.key = key then some (.node info children)
      else children.findSome? (find? key) := by
  rw [find?, findAmong?_eq]

theorem ancestorsAmong?_eq (key : NodeKey) (ts : List TestTree) :
    ancestorsAmong? key ts = ts.findSome? (ancestors? key) := by
  induction ts with
  | nil => rfl
  | cons t rest ih =>
      rw [ancestorsAmong?, ih, List.findSome?_cons]
      cases ancestors? key t <;> rfl

theorem ancestors?_node (key : NodeKey) (info : TestNode) (children : List TestTree) :
    (node info children).ancestors? key =
      if info.key = key then some []
      else (children.findSome? (ancestors? key)).map (· ++ [info]) := by
  rw [ancestors?, ancestorsAmong?_eq]

theorem touchAll_eq (change : TestNode → Option TestNode) (ts : List TestTree) :
    touchAll change ts =
      (ts.map fun t => (t.touch change).1, ts.flatMap fun t => (t.touch change).2) := by
  induction ts with
  | nil => rfl
  | cons t rest ih => simp [touchAll, ih]

/-- A touched node is the changed one, if there is a change for it. -/
theorem touch_fst (change : TestNode → Option TestNode) (info : TestNode)
    (children : List TestTree) :
    ((node info children).touch change).1 =
      .node ((change info).getD info) (children.map fun t => (t.touch change).1) := by
  rw [touch, touchAll_eq]
  cases change info <;> rfl

theorem touch_snd (change : TestNode → Option TestNode) (info : TestNode)
    (children : List TestTree) :
    ((node info children).touch change).2 =
      (if (change info).isSome then [info.key] else []) ++
        children.flatMap fun t => (t.touch change).2 := by
  rw [touch, touchAll_eq]
  cases change info <;> rfl

theorem info_touch (change : TestNode → Option TestNode) (t : TestTree) :
    (t.touch change).1.info = (change t.info).getD t.info := by
  cases t
  rw [touch_fst]
  rfl

theorem finishAll_eq (run : RunId) (ts : List TestTree) :
    finishAll run ts =
      (ts.map fun t => (t.finish run).1, ts.flatMap fun t => (t.finish run).2) := by
  induction ts with
  | nil => rfl
  | cons t rest ih => simp [finishAll, ih]

/-- What closing a run leaves at a node: it is closed if it is a leaf, and settled from its
closed children. -/
def finishNode (run : RunId) (info : TestNode) (children : List TestTree) : TestNode :=
  (info.close run children).settle (combined (children.map fun t => (t.finish run).1))

theorem finish_fst (run : RunId) (info : TestNode) (children : List TestTree) :
    ((node info children).finish run).1 =
      .node (finishNode run info children) (children.map fun t => (t.finish run).1) := by
  rw [finish, finishAll_eq]
  rfl

theorem finish_snd (run : RunId) (info : TestNode) (children : List TestTree) :
    ((node info children).finish run).2 =
      info.changedKey (finishNode run info children) ++
        children.flatMap fun t => (t.finish run).2 := by
  rw [finish, finishAll_eq]
  rfl

/-! ### Subtrees -/

mutual

/-- The subtrees of a tree in pre-order, itself first. -/
def subtrees : TestTree → List TestTree
  | .node info children => .node info children :: forestSubtrees children

/-- The subtrees of the trees of a forest in pre-order. -/
def forestSubtrees : List TestTree → List TestTree
  | [] => []
  | t :: rest => subtrees t ++ forestSubtrees rest

end

theorem forestSubtrees_eq (ts : List TestTree) : forestSubtrees ts = ts.flatMap subtrees := by
  induction ts with
  | nil => rfl
  | cons t rest ih => rw [forestSubtrees, ih, List.flatMap_cons]

@[simp] theorem subtrees_node (info : TestNode) (children : List TestTree) :
    (node info children).subtrees = .node info children :: children.flatMap subtrees := by
  rw [subtrees, forestSubtrees_eq]

theorem mem_subtrees_node {s : TestTree} {info : TestNode} {children : List TestTree} :
    s ∈ (node info children).subtrees ↔
      s = .node info children ∨ ∃ c ∈ children, s ∈ c.subtrees := by
  simp

/-- What holds of every subtree holds of the tree and of the subtrees of its children. -/
theorem forall_subtrees_node {p : TestTree → Prop} {info : TestNode} {children : List TestTree} :
    (∀ s ∈ (node info children).subtrees, p s) ↔
      p (.node info children) ∧ ∀ c ∈ children, ∀ s ∈ c.subtrees, p s := by
  simp only [subtrees_node, List.forall_mem_cons, List.mem_flatMap]
  refine and_congr_right fun _ => ⟨fun h c hc s hs => h s ⟨c, hc, hs⟩, ?_⟩
  rintro h s ⟨c, hc, hs⟩
  exact h c hc s hs

theorem self_mem_subtrees (t : TestTree) : t ∈ t.subtrees := by
  cases t
  simp

theorem mem_subtrees_of_mem_children {c t : TestTree} (hc : c ∈ t.children) :
    c ∈ t.subtrees := by
  cases t with
  | node info children => exact mem_subtrees_node.mpr (.inr ⟨c, hc, self_mem_subtrees c⟩)

theorem mem_subtrees_trans {r s t : TestTree} (hr : r ∈ s.subtrees) (hs : s ∈ t.subtrees) :
    r ∈ t.subtrees := by
  induction t with
  | node info children ih =>
      rcases mem_subtrees_node.mp hs with rfl | ⟨c, hc, hs⟩
      · exact hr
      · exact mem_subtrees_node.mpr (.inr ⟨c, hc, ih c hc hs⟩)

/-- The nodes of a tree are the roots of its subtrees. -/
theorem nodes_eq_map_subtrees (t : TestTree) : t.nodes = t.subtrees.map info := by
  induction t with
  | node info children ih =>
      rw [nodes_node, subtrees_node, List.map_cons, List.map_flatMap, info_node,
        List.flatMap_congr ih]

theorem mem_nodes {n : TestNode} {t : TestTree} : n ∈ t.nodes ↔ ∃ s ∈ t.subtrees, s.info = n := by
  rw [nodes_eq_map_subtrees, List.mem_map]

theorem info_mem_nodes {s t : TestTree} (hs : s ∈ t.subtrees) : s.info ∈ t.nodes :=
  mem_nodes.mpr ⟨s, hs, rfl⟩

theorem mem_subtrees_of_find? {key : NodeKey} {s t : TestTree} (h : t.find? key = some s) :
    s ∈ t.subtrees ∧ s.key = key := by
  induction t with
  | node info children ih =>
      rw [find?_node] at h
      split at h
      next hkey =>
          cases h
          exact ⟨self_mem_subtrees _, hkey⟩
      next =>
          obtain ⟨c, hc, hfound⟩ := List.exists_of_findSome?_eq_some h
          obtain ⟨hmem, hkey⟩ := ih c hc hfound
          exact ⟨mem_subtrees_node.mpr (.inr ⟨c, hc, hmem⟩), hkey⟩

theorem find?_isSome_iff {key : NodeKey} {t : TestTree} :
    (t.find? key).isSome ↔ ∃ s ∈ t.subtrees, s.key = key := by
  induction t with
  | node info children ih =>
      rw [find?_node]
      split
      next hkey => simpa using .inl hkey
      next hkey =>
          rw [List.findSome?_isSome_iff]
          simp only [mem_subtrees_node, exists_eq_or_imp, key_node, hkey, false_or]
          constructor
          · rintro ⟨c, hc, hfound⟩
            obtain ⟨s, hs, hk⟩ := (ih c hc).mp hfound
            exact ⟨s, ⟨c, hc, hs⟩, hk⟩
          · rintro ⟨s, ⟨c, hc, hs⟩, hk⟩
            exact ⟨c, hc, (ih c hc).mpr ⟨s, hs, hk⟩⟩

/-- A key is in a tree exactly when it is the key of some subtree. -/
theorem contains_iff {key : NodeKey} {t : TestTree} :
    t.contains key ↔ ∃ s ∈ t.subtrees, s.key = key :=
  find?_isSome_iff

/-- Just the nodes of a tree have ancestors in it, be it none. -/
theorem isSome_ancestors? (key : NodeKey) (t : TestTree) :
    (t.ancestors? key).isSome = t.contains key := by
  induction t with
  | node info children ih =>
      rw [ancestors?_node, contains, find?_node]
      split
      next => rfl
      next =>
          rw [Option.isSome_map, Bool.eq_iff_iff, List.findSome?_isSome_iff,
            List.findSome?_isSome_iff]
          exact exists_congr fun c => and_congr_right fun hc => Bool.eq_iff_iff.mp (ih c hc)

theorem contains_key {s t : TestTree} (hs : s ∈ t.subtrees) : t.contains s.key :=
  contains_iff.mpr ⟨s, hs, rfl⟩

theorem contains_of_mem_nodes {n : TestNode} {t : TestTree} (hn : n ∈ t.nodes) :
    t.contains n.key := by
  obtain ⟨s, hs, rfl⟩ := mem_nodes.mp hn
  exact contains_key hs

theorem contains_of_find? {key : NodeKey} {s t : TestTree} (h : t.find? key = some s) :
    t.contains key := by
  rw [contains, h]
  rfl

/-- A key that is in a subtree is in the tree. -/
theorem contains_trans {key : NodeKey} {s t : TestTree} (hkey : s.contains key)
    (hs : s ∈ t.subtrees) : t.contains key := by
  obtain ⟨r, hr, rfl⟩ := contains_iff.mp hkey
  exact contains_key (mem_subtrees_trans hr hs)

theorem contains_of_child {key : NodeKey} {info : TestNode} {children : List TestTree}
    {c : TestTree} (hc : c ∈ children) (hkey : c.contains key) :
    (node info children).contains key :=
  contains_trans hkey (mem_subtrees_node.mpr (.inr ⟨c, hc, self_mem_subtrees c⟩))

end SpecExplorer.TestTree
