/-
# The change from one outline to the next

The difference of two trees names only the topmost nodes that changed and the topmost keys that
are gone. This module shows that it says enough: whoever has the item of the tree before and
follows that change has the item of the tree after. An unchanged node has the children that it
had, so the argument goes down the new tree until it meets a changed node, and there the whole
subtree is replaced.
-/
import SpecExplorer.Proofs.Tree.Merged
import SpecExplorer.Proofs.View.Mirror

namespace SpecExplorer

open TestTree TreeItem

namespace TreeDelta

/-! ### What changed -/

theorem changedAmong_eq (previous : TestTree) (ts : List TestTree) :
    changedAmong previous ts = ts.flatMap (changedIn previous) := by
  induction ts with
  | nil => rfl
  | cons t rest ih => rw [changedAmong, ih, List.flatMap_cons]

theorem changedIn_node (previous : TestTree) (info : TestNode) (children : List TestTree) :
    changedIn previous (.node info children) =
      if isUnchanged previous (.node info children) then children.flatMap (changedIn previous)
      else [info.key] := by
  rw [changedIn, changedAmong_eq]

theorem contains_of_mem_changedIn {previous t : TestTree} {key : NodeKey}
    (h : key ∈ changedIn previous t) : t.contains key := by
  induction t with
  | node info children ih =>
      rw [changedIn_node] at h
      split at h
      · obtain ⟨c, hc, hkey⟩ := List.mem_flatMap.mp h
        exact contains_of_child hc (ih c hc hkey)
      · rw [List.mem_singleton.mp h]
        exact contains_key (self_mem_subtrees _)

theorem not_contains_of_mem_removedFrom {previous merged : TestTree} {key : NodeKey}
    (h : key ∈ removedFrom previous merged) : ¬ merged.contains key := by
  have hgone := (List.mem_filter.mp (List.mem_filter.mp h).1).2
  simpa using hgone

end TreeDelta

namespace TestTree

/-! ### What is carried over -/

/-- Every node has taken over what happened to the node that had its key before. -/
def Carries (old? : NodeKey → Option TestNode) (t : TestTree) : Prop :=
  ∀ s ∈ t.subtrees, ∀ n, old? s.key = some n →
    s.info.result = n.result ∧ s.info.run = n.run ∧ s.info.expanded = n.expanded

theorem carries_node {old? : NodeKey → Option TestNode} {info : TestNode}
    {children : List TestTree} :
    (node info children).Carries old? ↔
      (∀ n, old? info.key = some n →
        info.result = n.result ∧ info.run = n.run ∧ info.expanded = n.expanded) ∧
      ∀ c ∈ children, c.Carries old? :=
  forall_subtrees_node

theorem ofOutlineNode_carries (old? : NodeKey → Option TestNode) (key : NodeKey)
    (o : OutlineNode) : (ofOutlineNode old? key o).Carries old? := by
  induction o generalizing key with
  | node info children ih =>
      refine carries_node.mpr ⟨fun n hn => ?_, fun c hc => ?_⟩
      · rw [TestNode.carry_key] at hn
        have hold : old? key = some n := hn
        rw [hold]
        exact ⟨rfl, rfl, rfl⟩
      · obtain ⟨m, hm, ordinal, -, rfl⟩ := exists_of_mem_ofOutlineNodes hc
        exact ih m hm _

theorem ofOutline_carries {previous : TestTree} (hroot : previous.key = .root) (o : Outline)
    (name : String) : (ofOutline (some previous) o name).Carries previous.node? := by
  refine carries_node.mpr ⟨fun n hn => ?_, fun c hc => ?_⟩
  · rw [TestNode.carry_key] at hn
    have hnode : previous.node? .root = some previous.info := by
      cases previous with
      | node info children =>
          have hinfo : info.key = .root := hroot
          rw [node?, find?_node, if_pos hinfo]
          rfl
    obtain rfl : previous.info = n := Option.some.inj (hnode.symm.trans hn)
    exact ⟨rfl, rfl, rfl⟩
  · obtain ⟨m, -, ordinal, -, rfl⟩ := exists_of_mem_ofOutlineNodes hc
    exact ofOutlineNode_carries _ _ m

/-- An unchanged node is the node that it was, and has the children that it had. -/
theorem eq_of_isUnchanged {previous t s : TestTree} (hcarries : t.Carries previous.node?)
    (hs : previous.find? t.key = some s) (h : TreeDelta.isUnchanged previous t) :
    s.info = t.info ∧ s.childKeys = t.childKeys := by
  rw [TreeDelta.isUnchanged, hs] at h
  simp only [TestNode.sameShape, Bool.and_eq_true, beq_iff_eq] at h
  obtain ⟨⟨⟨⟨⟨⟨hkind, hname⟩, hrange⟩, hfocused⟩, hpending⟩, hlabels⟩, hchildren⟩ := h
  have hnode : previous.node? t.key = some s.info := congrArg (Option.map info) hs
  obtain ⟨hresult, hrun, hexpanded⟩ := hcarries t (self_mem_subtrees t) _ hnode
  have hkey : s.info.key = t.info.key := (mem_subtrees_of_find? hs).2
  refine ⟨?_, hchildren⟩
  cases hsinfo : s.info
  cases htinfo : t.info
  simp_all

end TestTree

namespace TreeItem

/-! ### Items one after the other -/

theorem put_of_key_eq {item new : TreeItem} (h : item.key = new.key) : item.put new = new := by
  obtain ⟨info, children⟩ := item
  rw [put_node]
  exact if_pos h

theorem foldl_put_node {items : List TreeItem} {info : ItemInfo} {children : List TreeItem}
    (h : ∀ item ∈ items, item.key ≠ info.key) :
    items.foldl put (.node info children) =
      .node info (children.map fun item => items.foldl put item) := by
  induction items generalizing children with
  | nil => simp
  | cons item rest ih =>
      have hne : info.key ≠ item.key := fun heq => h item List.mem_cons_self heq.symm
      rw [List.foldl_cons, put_node, if_neg hne,
        ih fun item hitem => h item (List.mem_cons_of_mem _ hitem), List.map_map]
      rfl

/-- Among items of which no other lies within it, an item takes its place for good. -/
theorem foldl_put_eq {items : List TreeItem} {item new : TreeItem} (hnew : new ∈ items)
    (hkey : item.key = new.key) (hother : ∀ x ∈ items, x = new ∨ new.put x = new) :
    items.foldl put item = new := by
  induction items generalizing item with
  | nil => cases hnew
  | cons x rest ih =>
      have hrest : ∀ y ∈ rest, y = new ∨ new.put y = new := fun y hy =>
        hother y (List.mem_cons_of_mem _ hy)
      rw [List.foldl_cons]
      by_cases hx : new = x
      · subst hx
        rw [put_of_key_eq hkey]
        refine foldl_eq_self ?_
        intro y hy
        rcases hrest y hy with rfl | hy
        · exact put_of_key_eq rfl
        · exact hy
      · exact ih ((List.mem_cons.mp hnew).resolve_left hx) ((key_put item x).trans hkey) hrest

end TreeItem

/-! ### Following the change -/

section Following

variable {previous merged : TestTree} {removed : List NodeKey}

/-- The items of the topmost nodes that changed. -/
def changedItems (previous merged : TestTree) : List TreeItem :=
  ((TreeDelta.changedIn previous merged).filterMap merged.find?).map ofTree

/-- What a client makes of the item of a subtree that was there before. -/
def followed (previous merged : TestTree) (removed : List NodeKey) (s : TestTree) :
    Option TreeItem :=
  ((ofTree s).without? removed).map fun item => (changedItems previous merged).foldl put item

theorem mem_changedItems {item : TreeItem} :
    item ∈ changedItems previous merged ↔
      ∃ key ∈ TreeDelta.changedIn previous merged, ∃ s, merged.find? key = some s ∧
        ofTree s = item := by
  simp only [changedItems, List.mem_map, List.mem_filterMap]
  constructor
  · rintro ⟨s, ⟨key, hkey, hs⟩, hitem⟩
    exact ⟨key, hkey, s, hs, hitem⟩
  · rintro ⟨key, hkey, s, hs, hitem⟩
    exact ⟨s, ⟨key, hkey, hs⟩, hitem⟩

/-- The item of a changed node replaces whatever was there. -/
theorem followed_of_changed (hmerged : merged.Keyed) {s t : TestTree} (ht : t ∈ merged.subtrees)
    (hkey : s.key = t.key) (hkept : s.key ∉ removed)
    (hchanged : ∀ key, t.contains key → (key ∈ TreeDelta.changedIn previous merged ↔ key = t.key)) :
    followed previous merged removed s = some (ofTree t) := by
  have hmem : ofTree t ∈ changedItems previous merged := by
    refine mem_changedItems.mpr ⟨t.key, ?_, t, hmerged.find?_key ht, rfl⟩
    exact (hchanged t.key (contains_key (self_mem_subtrees t))).mpr rfl
  have hother : ∀ x ∈ changedItems previous merged, x = ofTree t ∨ (ofTree t).put x = ofTree t := by
    intro x hx
    obtain ⟨key, hmemkey, r, hr, rfl⟩ := mem_changedItems.mp hx
    obtain ⟨hrmem, hrkey⟩ := mem_subtrees_of_find? hr
    by_cases hcontains : t.contains key
    · have heq : key = t.key := (hchanged key hcontains).mp hmemkey
      obtain rfl := hmerged.eq_of_key_eq hrmem ht (hrkey.trans heq)
      exact .inl rfl
    · refine .inr (put_ofTree_of_not_contains ?_)
      rwa [key_ofTree, hrkey]
  obtain ⟨info, children⟩ := s
  rw [followed, ofTree_node, without?_node, key_ofNode, if_neg (by simpa using hkept)]
  exact congrArg some (foldl_put_eq hmem (hkey.trans (key_ofTree t).symm) hother)

/-- Below an unchanged node the change is followed child by child. -/
theorem followed_of_unchanged {info : TestNode} {children : List TestTree}
    (hkept : info.key ∉ removed) (hnot : info.key ∉ TreeDelta.changedIn previous merged) :
    followed previous merged removed (.node info children) =
      some (.node (.ofNode info) (children.filterMap (followed previous merged removed))) := by
  have hne : ∀ item ∈ changedItems previous merged, item.key ≠ (ItemInfo.ofNode info).key := by
    intro item hitem hkey
    obtain ⟨key, hmem, r, hr, rfl⟩ := mem_changedItems.mp hitem
    rw [key_ofTree, (mem_subtrees_of_find? hr).2] at hkey
    rw [hkey] at hmem
    exact hnot hmem
  rw [followed, ofTree_node, without?_node, key_ofNode, if_neg (by simpa using hkept),
    Option.map_some, foldl_put_node hne, List.filterMap_map, List.map_filterMap]
  rfl

/-- Where siblings before and after have the same keys, and each of them is followed to the item
of its successor, so are all. -/
theorem filterMap_followed {olds news : List TestTree}
    (hkeys : olds.map TestTree.key = news.map TestTree.key)
    (hold : ∀ c ∈ olds, previous.find? c.key = some c)
    (hnew : ∀ c ∈ news, ∀ s, previous.find? c.key = some s →
      followed previous merged removed s = some (ofTree c)) :
    olds.filterMap (followed previous merged removed) = news.map ofTree := by
  have hfound : ∀ c ∈ news, ∃ s, previous.find? c.key = some s := by
    intro c hc
    obtain ⟨s, hs, hskey⟩ := List.mem_map.mp (hkeys ▸ List.mem_map_of_mem hc)
    exact ⟨s, hskey ▸ hold s hs⟩
  let f : NodeKey → Option TreeItem := fun key =>
    (previous.find? key).bind (followed previous merged removed)
  calc olds.filterMap (followed previous merged removed)
      = olds.filterMap (f ∘ TestTree.key) := List.filterMap_congr fun c hc => by
        simp only [f, Function.comp_apply, hold c hc, Option.bind_some]
    _ = (olds.map TestTree.key).filterMap f := List.filterMap_map.symm
    _ = (news.map TestTree.key).filterMap f := by rw [hkeys]
    _ = news.filterMap (f ∘ TestTree.key) := List.filterMap_map
    _ = news.filterMap (some ∘ ofTree) := List.filterMap_congr fun c hc => by
        obtain ⟨s, hs⟩ := hfound c hc
        simp only [f, Function.comp_apply, hs, Option.bind_some, hnew c hc s hs]
    _ = news.map ofTree := by rw [List.filterMap_eq_map]

/-- The topmost changes within a subtree of the new tree are those found by looking at the subtree
alone. -/
def OwnChanges (previous merged t : TestTree) : Prop :=
  ∀ key, t.contains key →
    (key ∈ TreeDelta.changedIn previous merged ↔ key ∈ TreeDelta.changedIn previous t)

section Unchanged

variable {info : TestNode} {children : List TestTree}

theorem OwnChanges.mem_iff_of_unchanged (h : OwnChanges previous merged (.node info children))
    (hunchanged : TreeDelta.isUnchanged previous (.node info children)) {key : NodeKey}
    (hkey : (node info children).contains key) :
    key ∈ TreeDelta.changedIn previous merged ↔
      ∃ c ∈ children, key ∈ TreeDelta.changedIn previous c := by
  rw [h key hkey, TreeDelta.changedIn_node, if_pos hunchanged, List.mem_flatMap]

/-- The key of an unchanged node is not among the changes. -/
theorem OwnChanges.not_mem_of_unchanged (h : OwnChanges previous merged (.node info children))
    (hkeyed : (node info children).Keyed)
    (hunchanged : TreeDelta.isUnchanged previous (.node info children)) :
    info.key ∉ TreeDelta.changedIn previous merged := by
  intro hmem
  have hroot : (node info children).contains info.key := contains_key (self_mem_subtrees _)
  obtain ⟨c, hc, hmem⟩ := (h.mem_iff_of_unchanged hunchanged hroot).mp hmem
  obtain ⟨r, hr, hrkey⟩ := contains_iff.mp (TreeDelta.contains_of_mem_changedIn hmem)
  have hdepth := hkeyed.depth_lt_of_mem_child hc hr
  rw [hrkey] at hdepth
  exact Nat.lt_irrefl _ hdepth

/-- Below an unchanged node every child has its own changes. -/
theorem OwnChanges.of_mem_children (h : OwnChanges previous merged (.node info children))
    (hkeyed : (node info children).Keyed)
    (hunchanged : TreeDelta.isUnchanged previous (.node info children)) {c : TestTree}
    (hc : c ∈ children) : OwnChanges previous merged c := by
  intro key hkey
  rw [h.mem_iff_of_unchanged hunchanged (contains_of_child hc hkey)]
  constructor
  · rintro ⟨d, hd, hmem⟩
    obtain rfl :=
      hkeyed.eq_of_children_contain hd hc (TreeDelta.contains_of_mem_changedIn hmem) hkey
    exact hmem
  · intro hmem
    exact ⟨c, hc, hmem⟩

end Unchanged

/-- A subtree that was there before is followed to what it is now. -/
theorem followed_eq (hprevious : previous.Keyed) (hmerged : merged.Keyed)
    (hcarries : merged.Carries previous.node?)
    (hremoved : ∀ key ∈ removed, ¬ merged.contains key) {t : TestTree} (ht : t ∈ merged.subtrees)
    (hown : OwnChanges previous merged t) {s : TestTree} (hs : previous.find? t.key = some s) :
    followed previous merged removed s = some (ofTree t) := by
  induction t generalizing s with
  | node info children ih =>
      obtain ⟨hsmem, hskey⟩ := mem_subtrees_of_find? hs
      have hkept : s.key ∉ removed := by
        intro hmem
        refine hremoved s.key hmem ?_
        rw [hskey]
        exact contains_key ht
      by_cases hunchanged : TreeDelta.isUnchanged previous (.node info children)
      · have hkeyed : (node info children).Keyed := hmerged.of_mem_subtrees ht
        have hnot := hown.not_mem_of_unchanged hkeyed hunchanged
        obtain ⟨hinfo, hkeys⟩ := eq_of_isUnchanged
          (fun r hr => hcarries r (mem_subtrees_trans hr ht)) hs hunchanged
        cases s with
        | node sinfo schildren =>
            obtain rfl : sinfo = info := hinfo
            have hkept' : sinfo.key ∉ removed := hkept
            have hkeys' : schildren.map TestTree.key = children.map TestTree.key := hkeys
            rw [followed_of_unchanged hkept' hnot, ofTree_node,
              filterMap_followed hkeys' (fun c hc => ?_) fun c hc r hr => ?_]
            · have hcmem : c ∈ previous.subtrees := mem_subtrees_trans
                (mem_subtrees_of_mem_children (t := node sinfo schildren) hc) hsmem
              exact hprevious.find?_key hcmem
            · have hcmem : c ∈ merged.subtrees := mem_subtrees_trans
                (mem_subtrees_of_mem_children (t := node sinfo children) hc) ht
              exact ih c hc hcmem (hown.of_mem_children hkeyed hunchanged hc) hr
      · refine followed_of_changed hmerged ht hskey hkept ?_
        intro key hkey
        rw [hown key hkey, TreeDelta.changedIn_node, if_neg hunchanged, List.mem_singleton]
        rfl

end Following

/-! ### Merging an outline -/

namespace TreeItem

/-- A change that says nothing changes nothing. -/
theorem change?_of_isEmpty {c : TreeChange} (h : c.isEmpty) (t : TestTree) :
    (ofTree t).change? c = some (ofTree t) := by
  simp only [TreeChange.isEmpty, Bool.and_eq_true, List.isEmpty_iff] at h
  obtain ⟨⟨hitems, hremoved⟩, hstatuses⟩ := h
  rw [change?, hitems, hremoved, hstatuses, without?_ofTree fun _ _ => List.not_mem_nil]
  rfl

/-- The change that an outline makes brings the item of the tree before up to date. -/
theorem change?_ofDelta (uri : Uri) {previous : TestTree} (hkeyed : previous.Keyed)
    (hroot : previous.key = .root) (o : Outline) (name : String) :
    (ofTree previous).change? (.ofDelta uri (ofOutline (some previous) o name)
        (.between (some previous) (ofOutline (some previous) o name))) =
      some (ofTree (ofOutline (some previous) o name)) := by
  have hfound : previous.find? (ofOutline (some previous) o name).key = some previous := by
    rw [ofOutline_key, ← hroot]
    exact hkeyed.find?_key (self_mem_subtrees previous)
  exact followed_eq hkeyed (ofOutline_keyed _ o name) (ofOutline_carries hroot o name)
    (fun _ => TreeDelta.not_contains_of_mem_removedFrom) (self_mem_subtrees _)
    (fun _ _ => Iff.rfl) hfound

end TreeItem

/-- Where there was no tree before, the item of the whole tree is new. -/
theorem Mirror.follow_none_ofDelta (uri : Uri) (o : Outline) (name : String) :
    Mirror.follow none (.ofDelta uri (ofOutline none o name)
        (.between none (ofOutline none o name))) = some (ofTree (ofOutline none o name)) := by
  have hfound : (ofOutline none o name).find? .root = some (ofOutline none o name) := by
    rw [← ofOutline_key none o name]
    exact (ofOutline_keyed none o name).find?_key (self_mem_subtrees _)
  have hroot : (ofTree (ofOutline none o name)).key.isRoot := by
    rw [key_ofTree, ofOutline_key]
    rfl
  have hitems : [NodeKey.root].filterMap (ofOutline none o name).find? =
      [ofOutline none o name] := by
    simp [hfound]
  show (([NodeKey.root].filterMap (ofOutline none o name).find?).map ofTree).find?
    (·.key.isRoot) = _
  rw [hitems, List.map_singleton, List.find?_cons, hroot]

end SpecExplorer
