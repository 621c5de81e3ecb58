/-
# Rebuilding a tree from below

Every operation on a tree makes something of each node: of the nodes at and below its key from
themselves and their new children, of the nodes above the key by settling them or not at all, and
of the others nothing. So the whole of an operation is one function of a node and its new children,
applied from the leaves up, and `rebuild` is that recursion. What an operation does at a node can
then be read off the function, and what it keeps of the tree is an induction over the tree alone.
-/
import SpecExplorer.Proofs.Tree.Replaced

namespace SpecExplorer

namespace NodeKey

theorem root_covers (key : NodeKey) : root.covers key :=
  covers_iff.mpr List.nil_prefix

/-- Of two keys that cover a common key, the shorter one covers the other. -/
theorem covers_of_depth_le {a b c : NodeKey} (ha : a.covers c) (hb : b.covers c)
    (hdepth : a.depth ≤ b.depth) : a.covers b :=
  covers_iff.mpr (List.prefix_of_prefix_length_le (covers_iff.mp ha) (covers_iff.mp hb) hdepth)

/-- Two keys that cover a common key lie one above the other. -/
theorem covers_or_covers {a b c : NodeKey} (ha : a.covers c) (hb : b.covers c) :
    a.covers b ∨ b.covers a :=
  (Nat.le_total a.depth b.depth).imp (covers_of_depth_le ha hb) (covers_of_depth_le hb ha)

theorem depth_lt_of_covers {a b : NodeKey} (h : a.covers b) (hne : a ≠ b) : a.depth < b.depth :=
  Nat.lt_of_le_of_ne (depth_le_of_covers h) fun hdepth =>
    hne (eq_of_covers_of_depth_eq h (covers_refl b) hdepth)

end NodeKey

/-- What an operation makes of a node and the new children of it. -/
abbrev NodeChange := TestNode → List TestTree → TestNode

namespace TestTree

mutual

/-- Makes a new node of every node and its new children, from the leaves up. -/
def rebuild (f : NodeChange) : TestTree → TestTree
  | .node info children => .node (f info (rebuildAll f children)) (rebuildAll f children)

def rebuildAll (f : NodeChange) : List TestTree → List TestTree
  | [] => []
  | t :: rest => rebuild f t :: rebuildAll f rest

end

theorem rebuildAll_eq (f : NodeChange) (ts : List TestTree) :
    rebuildAll f ts = ts.map (rebuild f) := by
  induction ts with
  | nil => rfl
  | cons t rest ih => rw [rebuildAll, ih, List.map_cons]

theorem rebuild_node (f : NodeChange) (info : TestNode) (children : List TestTree) :
    (node info children).rebuild f =
      .node (f info (children.map (rebuild f))) (children.map (rebuild f)) := by
  rw [rebuild, rebuildAll_eq]

variable {f g : NodeChange} {t t' s : TestTree} {key : NodeKey}

theorem info_rebuild (f : NodeChange) (t : TestTree) :
    (t.rebuild f).info = f t.info (t.children.map (rebuild f)) := by
  cases t
  rw [rebuild_node]
  rfl

@[simp] theorem children_rebuild (f : NodeChange) (t : TestTree) :
    (t.rebuild f).children = t.children.map (rebuild f) := by
  cases t
  rw [rebuild_node]
  rfl

/-- The subtrees of a rebuilt tree are the rebuilt subtrees. -/
theorem subtrees_rebuild (f : NodeChange) (t : TestTree) :
    (t.rebuild f).subtrees = t.subtrees.map (rebuild f) := by
  induction t with
  | node info children ih =>
      rw [subtrees_node, List.map_cons, rebuild_node, subtrees_node, List.flatMap_map,
        List.map_flatMap, List.flatMap_congr ih]

theorem mem_subtrees_rebuild (hs : s ∈ t.subtrees) : s.rebuild f ∈ (t.rebuild f).subtrees := by
  rw [subtrees_rebuild]
  exact List.mem_map_of_mem hs

theorem forall_subtrees_rebuild {p : TestTree → Prop} :
    (∀ s ∈ (t.rebuild f).subtrees, p s) ↔ ∀ s ∈ t.subtrees, p (s.rebuild f) := by
  rw [subtrees_rebuild, List.forall_mem_map]

theorem rebuild_congr
    (h : ∀ s ∈ t.subtrees, f s.info (s.children.map (rebuild g)) =
      g s.info (s.children.map (rebuild g))) : t.rebuild f = t.rebuild g := by
  induction t with
  | node info children ih =>
      obtain ⟨hroot, hchildren⟩ := forall_subtrees_node.mp h
      have hmap : children.map (rebuild f) = children.map (rebuild g) :=
        List.map_congr_left fun c hc => ih c hc (hchildren c hc)
      rw [rebuild_node, rebuild_node, hmap]
      exact congrArg (node · _) hroot

theorem rebuild_eq_self (h : ∀ s ∈ t.subtrees, f s.info s.children = s.info) :
    t.rebuild f = t := by
  induction t with
  | node info children ih =>
      obtain ⟨hroot, hchildren⟩ := forall_subtrees_node.mp h
      have hmap : children.map (rebuild f) = children :=
        (List.map_congr_left fun c hc => ih c hc (hchildren c hc)).trans (List.map_id' _)
      rw [rebuild_node, hmap]
      exact congrArg (node · _) hroot

/-- Rebuilding twice is rebuilding once, where the second time nothing of the children matters and
the first time nothing that the second changes. -/
theorem rebuild_rebuild {change : TestNode → TestNode}
    (h : ∀ info children, f info (children.map (rebuild fun n _ => change n)) = f info children)
    (t : TestTree) : (t.rebuild f).rebuild (fun n _ => change n) =
      t.rebuild fun info children => change (f info children) := by
  induction t with
  | node info children ih =>
      have hmap : (children.map (rebuild f)).map (rebuild fun n _ => change n) =
          children.map (rebuild fun info children => change (f info children)) := by
        rw [List.map_map]
        exact List.map_congr_left ih
      rw [rebuild_node, rebuild_node, rebuild_node, hmap, ← hmap, h]

section Frame

variable (hf : ∀ info children, (f info children).bare = info.bare)

include hf

theorem rebuild_frame (t : TestTree) : (t.rebuild f).frame = t.frame := by
  induction t with
  | node info children ih =>
      rw [rebuild_node, frame_node, frame_node, hf, List.map_map]
      exact congrArg _ (List.map_congr_left ih)

theorem key_rebuild (t : TestTree) : (t.rebuild f).key = t.key :=
  key_eq_of_frame_eq (rebuild_frame hf t)

/-- In a rebuilt tree a key finds the rebuilt subtree. -/
theorem find?_rebuild (hkeyed : t.Keyed) (hs : t.find? key = some s) :
    (t.rebuild f).find? key = some (s.rebuild f) := by
  obtain ⟨hmem, hkey⟩ := mem_subtrees_of_find? hs
  have hkeyed' : (t.rebuild f).Keyed := hkeyed.of_frame_eq (rebuild_frame hf t)
  exact hkeyed'.find?_eq_some_iff.mpr ⟨mem_subtrees_rebuild hmem, (key_rebuild hf s).trans hkey⟩

end Frame

/-! ### Changes around a key -/

/-- One change for the nodes at and below a key, and one for those above. -/
def around (place : NodeKey) (below above : NodeChange) : NodeChange := fun info children =>
  if place.covers info.key then below info children
  else if info.key.covers place then above info children
  else info

section Around

variable {place : NodeKey} {below above : NodeChange} {info : TestNode}

theorem around_below (h : place.covers info.key) (children : List TestTree) :
    around place below above info children = below info children := if_pos h

theorem around_above (hbelow : ¬ place.covers info.key) (habove : info.key.covers place)
    (children : List TestTree) :
    around place below above info children = above info children := by
  rw [around, if_neg hbelow, if_pos habove]

theorem around_apart (hbelow : ¬ place.covers info.key) (habove : ¬ info.key.covers place)
    (children : List TestTree) : around place below above info children = info := by
  rw [around, if_neg hbelow, if_neg habove]

/-- A change around a key that keeps what is above it is one of the nodes at and below it. -/
theorem around_kept (info : TestNode) (children : List TestTree) :
    around place below kept info children =
      if place.covers info.key then below info children else info := by
  unfold around
  split
  · rfl
  · split <;> rfl

theorem bare_around (hbelow : ∀ info children, (below info children).bare = info.bare)
    (habove : ∀ info children, (above info children).bare = info.bare) (info : TestNode)
    (children : List TestTree) :
    (around place below above info children).bare = info.bare := by
  unfold around
  repeat' split
  · exact hbelow info children
  · exact habove info children
  · rfl

end Around

/-- A subtree that lies neither above nor below a place stays as it is, where a change keeps all
nodes there. -/
theorem Keyed.rebuild_apart (hkeyed : t.Keyed) {place : NodeKey}
    (hbelow : ¬ place.covers t.key) (habove : ¬ t.key.covers place)
    (hf : ∀ info children, ¬ place.covers info.key → ¬ info.key.covers place →
      f info children = info) : t.rebuild f = t := by
  refine rebuild_eq_self fun s hs => ?_
  have hts := hkeyed.covers_of_mem_subtrees hs
  refine hf _ _ (fun hcovers => ?_) fun hcovers => ?_
  · exact (NodeKey.covers_or_covers hcovers hts).elim hbelow habove
  · exact habove (NodeKey.covers_trans hts hcovers)

/-- A change around a place at or below a child leaves the siblings of the child as they are. -/
theorem Keyed.rebuild_sibling (hkeyed : t.Keyed) {c d : TestTree} (hc : c ∈ t.children)
    (hd : d ∈ t.children) (hne : d ≠ c) {place : NodeKey} (hplace : c.key.covers place)
    (below above : NodeChange) : d.rebuild (around place below above) = d := by
  have hdepth := (hkeyed.depth_of_mem_children hd).trans (hkeyed.depth_of_mem_children hc).symm
  refine (hkeyed.of_mem_children hd).rebuild_apart (fun hcovers => hne ?_) (fun hcovers => hne ?_)
    fun _ children hbelow habove => around_apart hbelow habove children
  · exact hkeyed.eq_of_children_cover hd hc (NodeKey.covers_refl _)
      (NodeKey.covers_trans hplace hcovers)
  · exact hkeyed.eq_of_children_cover hd hc hcovers hplace

/-- The key of a tree covers the keys in it. -/
theorem Keyed.covers_of_contains (hkeyed : t.Keyed) (h : t.contains key) : t.key.covers key := by
  obtain ⟨s, hs, rfl⟩ := contains_iff.mp h
  exact hkeyed.covers_of_mem_subtrees hs

/-- A change around a place in one child leaves the children before and after it as they are. -/
theorem Keyed.rebuild_beside {info : TestNode} {before after : List TestTree} {c d : TestTree}
    (hkeyed : (node info (before ++ c :: after)).Keyed) {place : NodeKey}
    (hplace : c.contains place) (hd : d ∈ before ∨ d ∈ after) (below above : NodeChange) :
    d.rebuild (around place below above) = d := by
  have hc : c ∈ before ++ c :: after := by simp
  have hdmem : d ∈ (node info (before ++ c :: after)).children := by
    rw [children_node, List.mem_append, List.mem_cons]
    exact hd.imp_right .inr
  have hne : d ≠ c := by
    rintro rfl
    exact hkeyed.not_contains_sibling hplace hd hplace
  exact hkeyed.rebuild_sibling hc hdmem hne
    ((hkeyed.of_mem_children hc).covers_of_contains hplace) below above

/-- A replacement in a keyed tree rebuilds it around the place. -/
theorem Replaced.eq_rebuild {change : TestTree → TestTree} {place : NodeKey}
    {below above : NodeChange} {log : List NodeKey}
    (h : Replaced place change above t t' log) (hkeyed : t.Keyed)
    (hchange : ∀ s ∈ t.subtrees, s.key = place → change s = s.rebuild below) :
    t' = t.rebuild (around place below above) := by
  induction h with
  | @here info children hkey =>
      rw [hchange _ (self_mem_subtrees _) hkey]
      refine (rebuild_congr fun s hs => around_below ?_ _).symm
      rw [← hkey]
      exact hkeyed.covers_of_mem_subtrees hs
  | @deeper info before after c c' log hkey hbefore hchild ih =>
      have hc : c ∈ before ++ c :: after := by simp
      have hroot : info.key.covers place :=
        hkeyed.covers_of_contains (contains_of_child hc hchild.contains)
      have hnot : ¬ place.covers info.key := fun hcovers =>
        hkey (NodeKey.covers_antisymm hroot hcovers)
      have hsame : ∀ ds : List TestTree, (∀ d ∈ ds, d ∈ before ∨ d ∈ after) →
          ds.map (rebuild (around place below above)) = ds := by
        intro ds hds
        refine (List.map_congr_left fun d hd => ?_).trans (List.map_id' _)
        exact hkeyed.rebuild_beside hchild.contains (hds d hd) below above
      rw [rebuild_node, List.map_append, List.map_cons, hsame before fun _ => .inl,
        hsame after fun _ => .inr, around_above hnot hroot, ← ih (hkeyed.of_mem_children hc)
          fun s hs => hchange s (mem_subtrees_node.mpr (.inr ⟨c, hc, hs⟩))]

/-- What lies between the keys of a tree and of a node in it is the key of a node. -/
theorem Keyed.contains_of_covers (hkeyed : t.Keyed) (hs : s ∈ t.subtrees)
    (habove : t.key.covers key) (hcovers : key.covers s.key) : t.contains key := by
  induction t with
  | node info children ih =>
      by_cases hkey : info.key = key
      · exact contains_iff.mpr ⟨_, self_mem_subtrees _, hkey⟩
      rcases mem_subtrees_node.mp hs with rfl | ⟨c, hc, hs⟩
      · exact absurd (NodeKey.covers_antisymm habove hcovers) hkey
      have hdepth : c.key.depth ≤ key.depth := by
        rw [hkeyed.depth_of_mem_children hc]
        exact NodeKey.depth_lt_of_covers habove hkey
      have hck : c.key.covers key := NodeKey.covers_of_depth_le
        ((hkeyed.of_mem_children hc).covers_of_mem_subtrees hs) hcovers hdepth
      exact contains_of_child hc (ih c hc (hkeyed.of_mem_children hc) hs hck)

/-- In the tree of a file, what covers the key of a node is the key of a node. -/
theorem Keyed.contains_above (hkeyed : t.Keyed) (hroot : t.key = .root) (hs : s ∈ t.subtrees)
    (hcovers : key.covers s.key) : t.contains key :=
  hkeyed.contains_of_covers hs (hroot ▸ NodeKey.root_covers key) hcovers

/-- A key that covers a child but not its parent is that of the child. -/
theorem Keyed.eq_of_covers_child (hkeyed : t.Keyed) {c : TestTree} (hc : c ∈ t.children)
    (hcovers : key.covers c.key) (hbelow : ¬ key.covers t.key) : key = c.key := by
  have habove : t.key.covers key :=
    (NodeKey.covers_or_covers hcovers (hkeyed.covers_of_mem_children hc)).resolve_left hbelow
  have hne : t.key ≠ key := fun heq => hbelow (heq ▸ NodeKey.covers_refl _)
  have hlt := NodeKey.depth_lt_of_covers habove hne
  have hle := NodeKey.depth_le_of_covers hcovers
  have hdepth := hkeyed.depth_of_mem_children hc
  exact NodeKey.eq_of_covers_of_depth_eq hcovers (NodeKey.covers_refl _) (by omega)

/-! ### The operations of a run -/

/-- A change of the node alone, where there is one for it. -/
def touching (change : TestNode → Option TestNode) : NodeChange := fun info _ =>
  (change info).getD info

/-- A new result for the node with a key. -/
def recording (key : NodeKey) (r : RunResult) : NodeChange :=
  around key (fun info _ => if info.key = key then { info with result := some r } else info) settled

/-- A run is closed at a node: a leaf is closed by itself, and what has children is settled. -/
def closing (run : RunId) : NodeChange := fun info children =>
  settled (info.close run children) children

theorem touch_eq_rebuild (change : TestNode → Option TestNode) (t : TestTree) :
    (t.touch change).1 = t.rebuild (touching change) := by
  induction t with
  | node info children ih =>
      rw [touch_fst, rebuild_node, List.map_congr_left ih]
      rfl

theorem finish_eq_rebuild (run : RunId) (t : TestTree) :
    (t.finish run).1 = t.rebuild (closing run) := by
  induction t with
  | node info children ih =>
      have hclose : info.close run (children.map (rebuild (closing run))) =
          info.close run children := by
        simp [TestNode.close, TestNode.isLeaf]
      rw [finish_fst, rebuild_node, finishNode, List.map_congr_left ih, closing, hclose]
      rfl

theorem Keyed.mapRoot_eq_rebuild (hkeyed : t.Keyed) (change : TestNode → TestNode) :
    mapRoot change t =
      t.rebuild fun info _ => if info.key = t.key then change info else info := by
  cases t with
  | node info children =>
      have hbelow : children.map (rebuild fun n _ => if n.key = info.key then change n else n) =
          children := by
        refine (List.map_congr_left fun c hc => rebuild_eq_self fun s hs => if_neg ?_).trans
          (List.map_id' _)
        intro hkey
        have hdepth := hkeyed.depth_lt_of_mem_child hc hs
        rw [key_node, ← hkey] at hdepth
        exact Nat.lt_irrefl _ hdepth
      rw [rebuild_node, mapRoot_node, key_node, hbelow, if_pos rfl]

section Operations

variable (hkeyed : t.Keyed)

include hkeyed

theorem touchAt_eq_rebuild (hroot : t.key = .root) (key : NodeKey)
    (change : TestNode → Option TestNode) :
    (t.touchAt key change).1 = t.rebuild (around key (touching change) kept) := by
  by_cases hkey : t.contains key
  · obtain ⟨s, log, -, -, hreplaced⟩ := replaced_touchAt hkey change
    exact hreplaced.eq_rebuild hkeyed fun s _ _ => touch_eq_rebuild change s
  · rw [touchAt_of_not_contains hkey]
    refine (rebuild_eq_self fun s hs => ?_).symm
    rw [around_kept]
    exact if_neg fun hcovers => hkey (hkeyed.contains_above hroot hs hcovers)

theorem applyResult_eq_rebuild (hkey : t.contains key) (r : RunResult) :
    (t.applyResult key r).1 = t.rebuild (recording key r) := by
  obtain ⟨log, -, hreplaced⟩ := replaced_applyResult hkey r
  refine hreplaced.eq_rebuild hkeyed fun s hs hskey => ?_
  rw [(hkeyed.of_mem_subtrees hs).mapRoot_eq_rebuild, hskey]

theorem finishRun_eq_rebuild (hkey : t.contains key) (run : RunId) :
    (t.finishRun key run).1 = t.rebuild (around key (closing run) settled) := by
  obtain ⟨s, log, -, -, hreplaced⟩ := replaced_finishRun hkey run
  exact hreplaced.eq_rebuild hkeyed fun s _ _ => finish_eq_rebuild run s

theorem modify_eq_rebuild (hkey : t.contains key) (change : TestNode → TestNode) :
    t.modify key change =
      t.rebuild (fun info _ => if info.key = key then change info else info) := by
  obtain ⟨log, hreplaced⟩ := replaced_modify hkey change
  rw [hreplaced.eq_rebuild hkeyed fun s hs hskey => by
    rw [(hkeyed.of_mem_subtrees hs).mapRoot_eq_rebuild, hskey]]
  refine rebuild_congr fun s _ => ?_
  rw [around_kept]
  split
  · rfl
  next hbelow =>
      refine (if_neg ?_).symm
      rintro rfl
      exact hbelow (NodeKey.covers_refl _)

end Operations

end TestTree

end SpecExplorer
