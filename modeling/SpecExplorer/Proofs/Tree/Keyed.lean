/-
# Keyed trees

In the tree of an outline every child extends the key of its parent by its own name and an ordinal
that no sibling of that name has. Hence a key stands for one subtree at most, looking up a key
finds exactly that subtree, and the keys that a key covers are those of its subtree. All lookups
of the explorer rest on this.
-/
import Mathlib.Data.List.Nodup
import SpecExplorer.Proofs.Tree.Subtree

namespace SpecExplorer

namespace NodeKey

theorem covers_iff {a b : NodeKey} : a.covers b ↔ a.segments <+: b.segments :=
  List.isPrefixOf_iff_prefix

@[simp] theorem covers_refl (a : NodeKey) : a.covers a :=
  covers_iff.mpr (List.prefix_refl _)

theorem covers_trans {a b c : NodeKey} (hab : a.covers b) (hbc : b.covers c) : a.covers c :=
  covers_iff.mpr ((covers_iff.mp hab).trans (covers_iff.mp hbc))

theorem covers_child (a : NodeKey) (name : String) (ordinal : Nat) :
    a.covers (a.child name ordinal) :=
  covers_iff.mpr (List.prefix_append _ _)

@[simp] theorem depth_child (a : NodeKey) (name : String) (ordinal : Nat) :
    (a.child name ordinal).depth = a.depth + 1 := by
  simp [depth, child]

theorem depth_le_of_covers {a b : NodeKey} (h : a.covers b) : a.depth ≤ b.depth :=
  (covers_iff.mp h).length_le

/-- Two keys of one depth that cover a common key are the same key. -/
theorem eq_of_covers_of_depth_eq {a b c : NodeKey} (ha : a.covers c) (hb : b.covers c)
    (hdepth : a.depth = b.depth) : a = b := by
  have hsegments : a.segments <+: b.segments :=
    List.prefix_of_prefix_length_le (covers_iff.mp ha) (covers_iff.mp hb) (Nat.le_of_eq hdepth)
  cases a
  cases b
  exact congrArg _ (hsegments.eq_of_length hdepth)

theorem covers_antisymm {a b : NodeKey} (hab : a.covers b) (hba : b.covers a) : a = b :=
  eq_of_covers_of_depth_eq hab (covers_refl b)
    (Nat.le_antisymm (depth_le_of_covers hab) (depth_le_of_covers hba))

theorem child_inj {a : NodeKey} {name name' : String} {ordinal ordinal' : Nat} :
    a.child name ordinal = a.child name' ordinal' ↔ name = name' ∧ ordinal = ordinal' := by
  simp [child]

end NodeKey

namespace TestTree

/-- Every child extends the key of its parent by its own name, and siblings have different
keys. -/
def Keyed (t : TestTree) : Prop :=
  ∀ s ∈ t.subtrees, s.childKeys.Nodup ∧
    ∀ c ∈ s.children, ∃ ordinal, c.key = s.key.child c.info.name ordinal

theorem keyed_node {info : TestNode} {children : List TestTree} :
    (node info children).Keyed ↔
      ((children.map key).Nodup ∧
        ∀ c ∈ children, ∃ ordinal, c.key = info.key.child c.info.name ordinal) ∧
      ∀ c ∈ children, c.Keyed :=
  forall_subtrees_node

namespace Keyed

variable {t r s c : TestTree}

theorem of_mem_subtrees (h : t.Keyed) (hs : s ∈ t.subtrees) : s.Keyed :=
  fun r hr => h r (mem_subtrees_trans hr hs)

theorem depth_of_mem_children (h : t.Keyed) (hc : c ∈ t.children) :
    c.key.depth = t.key.depth + 1 := by
  obtain ⟨ordinal, hkey⟩ := (h t (self_mem_subtrees t)).2 c hc
  rw [hkey, NodeKey.depth_child]

theorem covers_of_mem_children (h : t.Keyed) (hc : c ∈ t.children) : t.key.covers c.key := by
  obtain ⟨ordinal, hkey⟩ := (h t (self_mem_subtrees t)).2 c hc
  rw [hkey]
  exact t.key.covers_child _ ordinal

theorem of_mem_children (h : t.Keyed) (hc : c ∈ t.children) : c.Keyed :=
  h.of_mem_subtrees (mem_subtrees_of_mem_children hc)

/-- The key of a tree covers the keys of all its subtrees. -/
theorem covers_of_mem_subtrees (h : t.Keyed) (hs : s ∈ t.subtrees) : t.key.covers s.key := by
  induction t with
  | node info children ih =>
      rcases mem_subtrees_node.mp hs with rfl | ⟨c, hc, hs⟩
      · exact NodeKey.covers_refl _
      · exact NodeKey.covers_trans (h.covers_of_mem_children hc)
          (ih c hc (h.of_mem_children hc) hs)

/-- A subtree below a child lies deeper than the tree. -/
theorem depth_lt_of_mem_child (h : t.Keyed) (hc : c ∈ t.children) (hs : s ∈ c.subtrees) :
    t.key.depth < s.key.depth := by
  have hchild := h.depth_of_mem_children hc
  have hbelow := NodeKey.depth_le_of_covers ((h.of_mem_children hc).covers_of_mem_subtrees hs)
  omega

/-- Siblings whose keys cover a common key are the same. -/
theorem eq_of_children_cover (h : t.Keyed) {a b : TestTree} (ha : a ∈ t.children)
    (hb : b ∈ t.children) {key : NodeKey} (hak : a.key.covers key) (hbk : b.key.covers key) :
    a = b := by
  have hkeys : a.key = b.key := NodeKey.eq_of_covers_of_depth_eq hak hbk
    ((h.depth_of_mem_children ha).trans (h.depth_of_mem_children hb).symm)
  exact List.inj_on_of_nodup_map (h t (self_mem_subtrees t)).1 ha hb hkeys

/-- Covering keys belong to a subtree and its subtrees. -/
theorem mem_subtrees_of_covers (h : t.Keyed) (hs : s ∈ t.subtrees) (hr : r ∈ t.subtrees)
    (hcovers : s.key.covers r.key) : r ∈ s.subtrees := by
  induction t with
  | node info children ih =>
      rcases mem_subtrees_node.mp hs with rfl | ⟨c, hc, hs⟩
      · exact hr
      have hdepth : (node info children).key.depth < s.key.depth :=
        h.depth_lt_of_mem_child hc hs
      rcases mem_subtrees_node.mp hr with rfl | ⟨d, hd, hr⟩
      · exact absurd (NodeKey.depth_le_of_covers hcovers) (by omega)
      have hcr : c.key.covers r.key :=
        NodeKey.covers_trans ((h.of_mem_children hc).covers_of_mem_subtrees hs) hcovers
      have hdr : d.key.covers r.key := (h.of_mem_children hd).covers_of_mem_subtrees hr
      obtain rfl := h.eq_of_children_cover hc hd hcr hdr
      exact ih c hc (h.of_mem_children hc) hs hr

/-- A key stands for one subtree at most. -/
theorem eq_of_key_eq (h : t.Keyed) (hr : r ∈ t.subtrees) (hs : s ∈ t.subtrees)
    (hkey : r.key = s.key) : r = s := by
  have hrs : r ∈ s.subtrees :=
    h.mem_subtrees_of_covers hs hr (hkey ▸ NodeKey.covers_refl _)
  cases s with
  | node info children =>
      rcases mem_subtrees_node.mp hrs with heq | ⟨c, hc, hr⟩
      · exact heq
      · have hdepth := (h.of_mem_subtrees hs).depth_lt_of_mem_child hc hr
        exact absurd (congrArg NodeKey.depth hkey) (by omega)

/-- Looking up a key finds the subtree with that key. -/
theorem find?_eq_some_iff (h : t.Keyed) {key : NodeKey} :
    t.find? key = some s ↔ s ∈ t.subtrees ∧ s.key = key := by
  refine ⟨mem_subtrees_of_find?, ?_⟩
  rintro ⟨hs, hkey⟩
  have hfound : (t.find? key).isSome := find?_isSome_iff.mpr ⟨s, hs, hkey⟩
  obtain ⟨r, hr⟩ := Option.isSome_iff_exists.mp hfound
  obtain ⟨hmem, hrkey⟩ := mem_subtrees_of_find? hr
  rw [hr, h.eq_of_key_eq hmem hs (hrkey.trans hkey.symm)]

theorem find?_key (h : t.Keyed) (hs : s ∈ t.subtrees) : t.find? s.key = some s :=
  h.find?_eq_some_iff.mpr ⟨hs, rfl⟩

/-- Siblings that hold a common key are the same. -/
theorem eq_of_children_contain (h : t.Keyed) {a b : TestTree} (ha : a ∈ t.children)
    (hb : b ∈ t.children) {key : NodeKey} (hak : a.contains key) (hbk : b.contains key) :
    a = b := by
  obtain ⟨r, hr, hrkey⟩ := contains_iff.mp hak
  obtain ⟨s, hs, hskey⟩ := contains_iff.mp hbk
  exact h.eq_of_children_cover ha hb
    (hrkey ▸ (h.of_mem_children ha).covers_of_mem_subtrees hr)
    (hskey ▸ (h.of_mem_children hb).covers_of_mem_subtrees hs)

/-- A key that is in one child is in no other. -/
theorem not_contains_sibling {info : TestNode} {before after : List TestTree} {c : TestTree}
    (h : (node info (before ++ c :: after)).Keyed) {key : NodeKey} (hc : c.contains key)
    {d : TestTree} (hd : d ∈ before ∨ d ∈ after) : ¬ d.contains key := by
  intro hcontains
  have hdmem : d ∈ (node info (before ++ c :: after)).children := by
    rw [children_node, List.mem_append, List.mem_cons]
    exact hd.imp_right .inr
  obtain rfl := h.eq_of_children_contain hdmem (by simp) hcontains hc
  have hnodup : (before ++ d :: after).Nodup := (keyed_node.mp h).1.1.of_map
  rw [List.nodup_append, List.nodup_cons] at hnodup
  rcases hd with hd | hd
  · exact hnodup.2.2 d hd d List.mem_cons_self rfl
  · exact hnodup.2.1.1 hd

/-- No two nodes of a keyed tree have one key. -/
theorem nodup_keys (h : t.Keyed) : t.keys.Nodup := by
  induction t with
  | node info children ih =>
      have hroot : ∀ c ∈ children, ∀ n ∈ c.nodes, info.key.depth < n.key.depth := by
        intro c hc n hn
        obtain ⟨s, hs, rfl⟩ := mem_nodes.mp hn
        exact h.depth_lt_of_mem_child hc hs
      rw [keys, nodes_node, List.map_cons, List.nodup_cons, List.map_flatMap]
      constructor
      · simp only [List.mem_flatMap, List.mem_map, not_exists, not_and]
        intro c hc n hn heq
        exact absurd (heq ▸ hroot c hc n hn) (Nat.lt_irrefl _)
      · rw [List.nodup_flatMap]
        refine ⟨fun c hc => ih c hc (h.of_mem_children hc), ?_⟩
        refine (List.pairwise_map.mp (keyed_node.mp h).1.1).imp_of_mem fun {a b} ha hb hne => ?_
        intro key hka hkb
        obtain ⟨n, hn, rfl⟩ := List.mem_map.mp hka
        obtain ⟨m, hm, hkey⟩ := List.mem_map.mp hkb
        have hbn : b.contains n.key := hkey ▸ contains_of_mem_nodes hm
        exact hne (congrArg TestTree.key
          (h.eq_of_children_contain ha hb (contains_of_mem_nodes hn) hbn))

end Keyed

end TestTree

end SpecExplorer
