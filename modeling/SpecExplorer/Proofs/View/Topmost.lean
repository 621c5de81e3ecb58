/-
# The topmost changes

After a merge the client is told of whole subtrees, so the difference of two trees should name no
more of them than it takes. A node is named just if it differs from the node that had its key and
nothing above it differs, and a key that is gone just if the key above it is still there. A node
that had no predecessor is never named itself: either its parent has other children than before, or
the parent had no predecessor either, and the file always has one.
-/
import Mathlib.Data.List.Flatten
import SpecExplorer.Proofs.Tree.Rebuilt
import SpecExplorer.Proofs.View.Delta

namespace SpecExplorer

namespace NodeKey

theorem covers_of_parent? {key parent : NodeKey} (h : key.parent? = some parent) :
    parent.covers key := by
  unfold parent? at h
  split at h
  next => cases h
  next =>
      cases h
      exact covers_iff.mpr (List.dropLast_prefix _)

theorem exists_parent? {key : NodeKey} (h : key ≠ .root) : ∃ parent, key.parent? = some parent := by
  obtain ⟨segments⟩ := key
  cases segments with
  | nil => exact absurd rfl h
  | cons s rest => exact ⟨_, rfl⟩

end NodeKey

namespace TestTree

/-! ### Nodes that differ -/

/-- Two nodes agree in all that comes from the outline, and their children have the same keys in
the same order. -/
structure SaysTheSame (old t : TestTree) : Prop where
  kind : old.info.kind = t.info.kind
  name : old.info.name = t.info.name
  range : old.info.range = t.info.range
  focused : old.info.focused = t.info.focused
  pending : old.info.pending = t.info.pending
  labels : old.info.labels = t.info.labels
  children : old.childKeys = t.childKeys

/-- No node of the tree before has the key of a node and says the same. -/
def DiffersFrom (t previous : TestTree) : Prop :=
  ∀ old ∈ previous.subtrees, old.key = t.key → ¬ old.SaysTheSame t

/-- A node lies properly below another. -/
def IsBelow (s r : TestTree) : Prop := ∃ c ∈ r.children, s ∈ c.subtrees

theorem saysTheSame_iff {old t : TestTree} :
    old.SaysTheSame t ↔ old.info.sameShape t.info && old.childKeys == t.childKeys := by
  simp only [TestNode.sameShape, Bool.and_eq_true, beq_iff_eq]
  constructor
  · rintro ⟨hkind, hname, hrange, hfocused, hpending, hlabels, hchildren⟩
    exact ⟨⟨⟨⟨⟨⟨hkind, hname⟩, hrange⟩, hfocused⟩, hpending⟩, hlabels⟩, hchildren⟩
  · rintro ⟨⟨⟨⟨⟨⟨hkind, hname⟩, hrange⟩, hfocused⟩, hpending⟩, hlabels⟩, hchildren⟩
    exact ⟨hkind, hname, hrange, hfocused, hpending, hlabels, hchildren⟩

/-- A node is unchanged just if it does not differ from the tree before. -/
theorem isUnchanged_iff {previous t : TestTree} (hkeyed : previous.Keyed) :
    TreeDelta.isUnchanged previous t ↔ ¬ t.DiffersFrom previous := by
  have hsame : TreeDelta.isUnchanged previous t ↔
      ∃ old, previous.find? t.key = some old ∧ old.SaysTheSame t := by
    rw [TreeDelta.isUnchanged]
    cases hfound : previous.find? t.key with
    | none => simp
    | some old => simp [saysTheSame_iff]
  simp only [hsame, DiffersFrom, hkeyed.find?_eq_some_iff, not_forall, not_not, exists_prop,
    and_assoc]

/-- An unchanged node had a predecessor with children of the same keys. -/
theorem contains_of_child_of_isUnchanged {previous t c : TestTree} (hkeyed : previous.Keyed)
    (h : TreeDelta.isUnchanged previous t) (hc : c ∈ t.children) : previous.contains c.key := by
  rw [isUnchanged_iff hkeyed, DiffersFrom] at h
  simp only [not_forall, not_not] at h
  obtain ⟨old, hold, -, hsame⟩ := h
  have hmem : c.key ∈ old.childKeys := by
    rw [hsame.children]
    exact List.mem_map_of_mem hc
  obtain ⟨d, hd, hdkey⟩ := List.mem_map.mp hmem
  rw [← hdkey]
  exact contains_key (mem_subtrees_trans (mem_subtrees_of_mem_children hd) hold)

/-! ### Above and below -/

section Below

variable {info : TestNode} {children : List TestTree} {s c : TestTree}

/-- Nothing in a tree has the root of the tree below it. -/
theorem Keyed.not_isBelow {t r : TestTree} (hkeyed : t.Keyed) (hr : r ∈ t.subtrees) :
    ¬ t.IsBelow r := by
  rintro ⟨c, hc, hmem⟩
  have hbelow := (hkeyed.of_mem_subtrees hr).depth_lt_of_mem_child hc hmem
  have habove := NodeKey.depth_le_of_covers (hkeyed.covers_of_mem_subtrees hr)
  omega

/-- The key of a tree is in none of its children. -/
theorem Keyed.not_contains_key (hkeyed : (node info children).Keyed) (hc : c ∈ children) :
    ¬ c.contains info.key := by
  intro hcontains
  obtain ⟨r, hr, hrkey⟩ := contains_iff.mp hcontains
  have hdepth := hkeyed.depth_lt_of_mem_child hc hr
  rw [hrkey] at hdepth
  exact Nat.lt_irrefl _ hdepth

/-- Above a node in a child are the root and what is above it in the child. -/
theorem Keyed.forall_above_iff (hkeyed : (node info children).Keyed) (hc : c ∈ children)
    (hs : s ∈ c.subtrees) {p : TestTree → Prop} :
    (∀ r ∈ (node info children).subtrees, s.IsBelow r → p r) ↔
      p (node info children) ∧ ∀ r ∈ c.subtrees, s.IsBelow r → p r := by
  refine ⟨fun h => ⟨h _ (self_mem_subtrees _) ⟨c, hc, hs⟩, fun r hr => ?_⟩, ?_⟩
  · exact h r (mem_subtrees_node.mpr (.inr ⟨c, hc, hr⟩))
  · rintro ⟨hroot, hchild⟩ r hr ⟨e, he, hse⟩
    rcases mem_subtrees_node.mp hr with rfl | ⟨d, hd, hrd⟩
    · exact hroot
    · have hsd : s ∈ d.subtrees := mem_subtrees_trans hse
        (mem_subtrees_trans (mem_subtrees_of_mem_children he) hrd)
      obtain rfl := hkeyed.eq_of_children_contain hd hc (contains_key hsd) (contains_key hs)
      exact hchild r hrd ⟨e, he, hse⟩

end Below

end TestTree

namespace TreeDelta

open TestTree

variable {previous t s : TestTree}

/-! ### What changed -/

theorem changedIn_sublist (previous t : TestTree) : (changedIn previous t).Sublist t.keys := by
  induction t with
  | node info children ih =>
      have hkeys : (node info children).keys = info.key :: children.flatMap keys := by
        rw [keys, nodes_node, List.map_cons, List.map_flatMap]
        rfl
      rw [changedIn_node, hkeys]
      split
      next => exact (List.Sublist.flatMap_right children ih).cons _
      next => exact (List.nil_sublist _).cons_cons _

theorem mem_flatMap_changedIn {info : TestNode} {children : List TestTree}
    (hkeyed : (node info children).Keyed) {c : TestTree} (hc : c ∈ children)
    (hs : s ∈ c.subtrees) :
    s.key ∈ children.flatMap (changedIn previous) ↔ s.key ∈ changedIn previous c := by
  rw [List.mem_flatMap]
  constructor
  · rintro ⟨d, hd, hmem⟩
    obtain rfl := hkeyed.eq_of_children_contain hd hc (contains_of_mem_changedIn hmem)
      (contains_key hs)
    exact hmem
  · intro hmem
    exact ⟨c, hc, hmem⟩

/-- A node is listed just if it changed and nothing above it did. -/
theorem mem_changedIn_iff (hkeyed : t.Keyed) (hs : s ∈ t.subtrees) :
    s.key ∈ changedIn previous t ↔ ¬ isUnchanged previous s ∧
      ∀ r ∈ t.subtrees, s.IsBelow r → isUnchanged previous r := by
  induction t with
  | node info children ih =>
      rw [changedIn_node]
      by_cases hunchanged : isUnchanged previous (node info children)
      · rw [if_pos hunchanged]
        rcases mem_subtrees_node.mp hs with rfl | ⟨c, hc, hsc⟩
        · refine iff_of_false (fun hmem => ?_) fun h => h.1 hunchanged
          obtain ⟨c, hc, hmem⟩ := List.mem_flatMap.mp hmem
          exact hkeyed.not_contains_key hc (contains_of_mem_changedIn hmem)
        · rw [mem_flatMap_changedIn hkeyed hc hsc, ih c hc (hkeyed.of_mem_children hc) hsc,
            hkeyed.forall_above_iff hc hsc]
          simp only [hunchanged, true_and]
      · rw [if_neg hunchanged, List.mem_singleton]
        rcases mem_subtrees_node.mp hs with rfl | ⟨c, hc, hsc⟩
        · exact iff_of_true rfl ⟨hunchanged, fun r hr hbelow =>
            absurd hbelow (hkeyed.not_isBelow hr)⟩
        · refine iff_of_false (fun hkey => ?_) fun h => hunchanged ?_
          · exact hkeyed.not_contains_key hc (hkey ▸ contains_key hsc)
          · exact h.2 _ (self_mem_subtrees _) ⟨c, hc, hsc⟩

/-- A listed node had a predecessor, since the file had one. -/
theorem exists_before_of_mem_changedIn (hprevious : previous.Keyed)
    (hroot : previous.contains t.key) {key : NodeKey} (h : key ∈ changedIn previous t) :
    previous.contains key := by
  induction t with
  | node info children ih =>
      rw [changedIn_node] at h
      split at h
      next hunchanged =>
          obtain ⟨c, hc, hmem⟩ := List.mem_flatMap.mp h
          exact ih c hc (contains_of_child_of_isUnchanged hprevious hunchanged hc) hmem
      next =>
          rw [List.mem_singleton.mp h]
          exact hroot

/-! ### What is gone -/

theorem removedFrom_sublist (previous merged : TestTree) :
    (removedFrom previous merged).Sublist previous.keys :=
  List.filter_sublist.trans List.filter_sublist

/-- A key that is gone is listed just if the key above it is still there. -/
theorem mem_removedFrom_iff (hprevious : previous.Keyed) (hroot : previous.key = .root)
    {merged : TestTree} (hmerged : merged.contains .root) {key : NodeKey} :
    key ∈ removedFrom previous merged ↔ previous.contains key ∧ ¬ merged.contains key ∧
      ∃ parent, key.parent? = some parent ∧ merged.contains parent := by
  have hkeys : ∀ k, k ∈ previous.keys ↔ previous.contains k := by
    intro k
    rw [contains_iff, keys, nodes_eq_map_subtrees, List.map_map, List.mem_map]
    rfl
  simp only [removedFrom, List.mem_filter, hkeys, Bool.not_eq_true', and_assoc]
  refine and_congr_right fun hkey => ?_
  rw [Bool.eq_false_iff]
  refine and_congr_right fun hgone => ?_
  obtain ⟨parent, hparent⟩ := NodeKey.exists_parent? fun hkeyroot : key = .root =>
    hgone (hkeyroot ▸ hmerged)
  have habove : previous.contains parent := by
    obtain ⟨s, hs, rfl⟩ := contains_iff.mp hkey
    exact hprevious.contains_above hroot hs (NodeKey.covers_of_parent? hparent)
  simp [hparent, hkeys, habove]

end TreeDelta

namespace TestTree

/-! ### The least change -/

/-- A difference of two trees names the topmost nodes that differ and the topmost keys that are
gone, each once and in the order of its tree. -/
structure NamesTopmost (previous merged : TestTree) (d : TreeDelta) : Prop where
  /-- A node is named just if it differs and nothing above it does. -/
  changed_iff : ∀ s ∈ merged.subtrees, s.key ∈ d.changed ↔
    s.DiffersFrom previous ∧ ∀ r ∈ merged.subtrees, s.IsBelow r → ¬ r.DiffersFrom previous
  changed_order : d.changed.Sublist merged.keys
  changed_once : d.changed.Nodup
  /-- Every node that is named had a predecessor. -/
  changed_before : ∀ key ∈ d.changed, previous.contains key
  /-- A key that is gone is named just if the key above it is still there. -/
  removed_iff : ∀ key, key ∈ d.removed ↔ previous.contains key ∧ ¬ merged.contains key ∧
    ∃ parent, key.parent? = some parent ∧ merged.contains parent
  removed_order : d.removed.Sublist previous.keys
  removed_once : d.removed.Nodup

/-- Whatever tree of a file an outline is merged into, the difference that a merge tells names the
topmost nodes that differ and the topmost keys that are gone. -/
theorem merge_names_topmost_changes {previous : TestTree} (hkeyed : previous.Keyed)
    (hroot : previous.key = .root) (o : Outline) (name : String) :
    NamesTopmost previous (merge (some previous) o name).1 (merge (some previous) o name).2 := by
  have hmerged : (ofOutline (some previous) o name).Keyed := ofOutline_keyed _ o name
  have hfile : (ofOutline (some previous) o name).contains .root :=
    contains_iff.mpr ⟨_, self_mem_subtrees _, ofOutline_key _ o name⟩
  have hbefore : previous.contains (ofOutline (some previous) o name).key :=
    contains_iff.mpr ⟨_, self_mem_subtrees _, hroot.trans (ofOutline_key _ o name).symm⟩
  have hchanged := TreeDelta.changedIn_sublist previous (ofOutline (some previous) o name)
  have hremoved := TreeDelta.removedFrom_sublist previous (ofOutline (some previous) o name)
  exact {
    changed_iff := by
      intro s hs
      refine (TreeDelta.mem_changedIn_iff hmerged hs).trans ?_
      simp only [isUnchanged_iff hkeyed, not_not]
      exact Iff.rfl
    changed_order := hchanged
    changed_once := hmerged.nodup_keys.sublist hchanged
    changed_before := fun key hkey =>
      TreeDelta.exists_before_of_mem_changedIn hkeyed hbefore hkey
    removed_iff := fun key => TreeDelta.mem_removedFrom_iff hkeyed hroot hfile
    removed_order := hremoved
    removed_once := hkeyed.nodup_keys.sublist hremoved }

/-- Of two specs of one name the second is renamed, and two containers go, one with a spec in it. -/
theorem merge_names_topmost_changes_cart :
    (ofOutline none .cart "cart_test.go").Keyed ∧
      (ofOutline none .cart "cart_test.go").key = .root ∧
      NamesTopmost (ofOutline none .cart "cart_test.go")
        (merge (some (ofOutline none .cart "cart_test.go")) (.cartOf ["adds", "removes"])
          "cart_test.go").1
        ⟨[.ofNames ["cart"]], [⟨[⟨"cart", 0⟩, ⟨"adds", 1⟩]⟩, .ofNames ["cart", "later"],
          .ofNames ["cart", "checkout"]]⟩ := by
  have hkeyed := ofOutline_keyed none .cart "cart_test.go"
  have hroot := ofOutline_key none .cart "cart_test.go"
  have hdelta : (merge (some (ofOutline none .cart "cart_test.go")) (.cartOf ["adds", "removes"])
      "cart_test.go").2 = ⟨[.ofNames ["cart"]], [⟨[⟨"cart", 0⟩, ⟨"adds", 1⟩]⟩,
        .ofNames ["cart", "later"], .ofNames ["cart", "checkout"]]⟩ := by
    decide +kernel
  rw [← hdelta]
  exact ⟨hkeyed, hroot, merge_names_topmost_changes hkeyed hroot _ _⟩

end TestTree

end SpecExplorer
