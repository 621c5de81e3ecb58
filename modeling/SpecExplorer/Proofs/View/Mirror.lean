/-
# A mirror of the tree

A client that keeps the items of a document follows the changes that it is told of, one after the
other: keys that are gone are deleted, an item takes the place of the subtree at its key, and a
status is written over that of the node with its key. The client starts with nothing and takes the
first item of a whole document as it is. This module shows what such a mirror makes of the changes
of a run and of a toggled node.
-/
import SpecExplorer.Proofs.Run.Listed
import SpecExplorer.View.Change

namespace SpecExplorer

/-! ### Following a change -/

/-- Writes a status over that of a node, where it is for it. -/
def ItemInfo.withStatus (i : ItemInfo) (s : NodeStatus) : ItemInfo :=
  if i.key = s.key then { i with status := s.status, description := s.description } else i

namespace TreeItem

def info : TreeItem → ItemInfo
  | .node info _ => info

def key (item : TreeItem) : NodeKey := item.info.key

mutual

/-- What is left of an item without the subtrees at some keys. -/
def without? (gone : List NodeKey) : TreeItem → Option TreeItem
  | .node info children =>
    if gone.contains info.key then none else some (.node info (withoutAmong gone children))

def withoutAmong (gone : List NodeKey) : List TreeItem → List TreeItem
  | [] => []
  | item :: rest => (without? gone item).toList ++ withoutAmong gone rest

end

mutual

/-- Puts an item in the place of the subtree at its key. -/
def put : TreeItem → TreeItem → TreeItem
  | .node info children, new =>
    if info.key = new.key then new else .node info (putAmong children new)

def putAmong : List TreeItem → TreeItem → List TreeItem
  | [], _ => []
  | item :: rest, new => put item new :: putAmong rest new

end

mutual

/-- Writes a status over that of the node with its key. -/
def showStatus : TreeItem → NodeStatus → TreeItem
  | .node info children, s => .node (info.withStatus s) (showAmong children s)

def showAmong : List TreeItem → NodeStatus → List TreeItem
  | [], _ => []
  | item :: rest, s => showStatus item s :: showAmong rest s

end

/-- The item after a change. -/
def change? (item : TreeItem) (c : TreeChange) : Option TreeItem :=
  (item.without? c.removed).map fun item => c.statuses.foldl showStatus (c.items.foldl put item)

end TreeItem

/-- What a client shows of a document, `none` before the first item of the whole document. -/
abbrev Mirror := Option TreeItem

namespace Mirror

/-- Follows one change. -/
def follow : Mirror → TreeChange → Mirror
  | none, c => c.items.find? (·.key.isRoot)
  | some item, c => item.change? c

/-- Follows changes one after the other. -/
def followAll (m : Mirror) (changes : List TreeChange) : Mirror := changes.foldl follow m

end Mirror

namespace TreeItem

/-! ### One equation for each recursion -/

theorem ofForest_eq (ts : List TestTree) : ofForest ts = ts.map ofTree := by
  induction ts with
  | nil => rfl
  | cons t rest ih => rw [ofForest, ih, List.map_cons]

@[simp] theorem ofTree_node (info : TestNode) (children : List TestTree) :
    ofTree (.node info children) = .node (.ofNode info) (children.map ofTree) := by
  rw [ofTree, ofForest_eq]

@[simp] theorem key_ofTree (t : TestTree) : (ofTree t).key = t.key := by
  cases t
  rw [ofTree_node]
  rfl

@[simp] theorem key_ofNode (n : TestNode) : (ItemInfo.ofNode n).key = n.key := rfl

theorem withoutAmong_eq (gone : List NodeKey) (items : List TreeItem) :
    withoutAmong gone items = items.filterMap (without? gone) := by
  induction items with
  | nil => rfl
  | cons item rest ih =>
      rw [withoutAmong, ih]
      cases h : without? gone item <;> simp [h]

theorem without?_node (gone : List NodeKey) (info : ItemInfo) (children : List TreeItem) :
    without? gone (.node info children) =
      if gone.contains info.key then none
      else some (.node info (children.filterMap (without? gone))) := by
  rw [without?, withoutAmong_eq]

theorem putAmong_eq (items : List TreeItem) (new : TreeItem) :
    putAmong items new = items.map (put · new) := by
  induction items with
  | nil => rfl
  | cons item rest ih => rw [putAmong, ih, List.map_cons]

theorem put_node (info : ItemInfo) (children : List TreeItem) (new : TreeItem) :
    put (.node info children) new =
      if info.key = new.key then new else .node info (children.map (put · new)) := by
  rw [put, putAmong_eq]

theorem showAmong_eq (items : List TreeItem) (s : NodeStatus) :
    showAmong items s = items.map (showStatus · s) := by
  induction items with
  | nil => rfl
  | cons item rest ih => rw [showAmong, ih, List.map_cons]

theorem showStatus_node (info : ItemInfo) (children : List TreeItem) (s : NodeStatus) :
    showStatus (.node info children) s =
      .node (info.withStatus s) (children.map (showStatus · s)) := by
  rw [showStatus, showAmong_eq]

/-! ### Deleting -/

/-- Nothing is deleted where no key is gone. -/
theorem without?_ofTree {gone : List NodeKey} {t : TestTree}
    (h : ∀ s ∈ t.subtrees, s.key ∉ gone) : (ofTree t).without? gone = some (ofTree t) := by
  induction t with
  | node info children ih =>
      have hroot : gone.contains (ItemInfo.ofNode info).key = false := by
        simpa using h _ (TestTree.self_mem_subtrees _)
      have hchildren : (children.map ofTree).filterMap (without? gone) = children.map ofTree := by
        rw [List.filterMap_map, ← List.filterMap_eq_map]
        refine List.filterMap_congr fun c hc => ih c hc fun s hs => h s ?_
        exact TestTree.mem_subtrees_node.mpr (.inr ⟨c, hc, hs⟩)
      rw [ofTree_node, without?_node, hroot, hchildren]
      rfl

/-! ### Statuses -/

theorem foldl_showStatus_node (ss : List NodeStatus) (info : ItemInfo)
    (children : List TreeItem) :
    ss.foldl showStatus (.node info children) =
      .node (ss.foldl ItemInfo.withStatus info)
        (children.map fun item => ss.foldl showStatus item) := by
  induction ss generalizing info children with
  | nil => simp
  | cons s rest ih =>
      rw [List.foldl_cons, showStatus_node, ih, List.map_map]
      rfl

theorem foldl_eq_self {α β : Type} {f : α → β → α} {a : α} {bs : List β}
    (h : ∀ b ∈ bs, f a b = a) : bs.foldl f a = a := by
  induction bs with
  | nil => rfl
  | cons b rest ih =>
      rw [List.foldl_cons, h b List.mem_cons_self]
      exact ih fun c hc => h c (List.mem_cons_of_mem _ hc)

/-- Of statuses that agree about a node, one is written over it. -/
theorem foldl_withStatus_eq {i : ItemInfo} {ss : List NodeStatus} {s : NodeStatus}
    (hmem : s ∈ ss) (hkey : i.key = s.key) (hall : ∀ r ∈ ss, i.key = r.key → r = s) :
    ss.foldl ItemInfo.withStatus i =
      { i with status := s.status, description := s.description } := by
  induction ss with
  | nil => cases hmem
  | cons r rest ih =>
      have hrest : ∀ q ∈ rest, i.key = q.key → q = s := fun q hq =>
        hall q (List.mem_cons_of_mem _ hq)
      rw [List.foldl_cons]
      by_cases hr : i.key = r.key
      · obtain rfl := hall r List.mem_cons_self hr
        rw [ItemInfo.withStatus, if_pos hr]
        refine foldl_eq_self ?_
        intro q hq
        unfold ItemInfo.withStatus
        split
        next hq' =>
            rw [hrest q hq hq']
        next => rfl
      · rw [ItemInfo.withStatus, if_neg hr]
        rcases List.mem_cons.mp hmem with rfl | hmem
        · exact absurd hkey hr
        · exact ih hmem hrest

/-- Trees whose nodes differ by what some statuses say differ by those statuses. -/
theorem ofTree_eq_foldl_showStatus {R : TestNode → TestNode → Prop} {ss : List NodeStatus}
    {t t' : TestTree} (h : TestTree.Pointwise R t t')
    (hR : ∀ n n', R n n' → n' ∈ t'.nodes →
      ItemInfo.ofNode n' = ss.foldl ItemInfo.withStatus (.ofNode n)) :
    ofTree t' = ss.foldl showStatus (ofTree t) := by
  induction h with
  | @node n n' cs cs' hnode hlength hchildren ih =>
      have hroot := hR n n' hnode (by simp)
      have hbelow : cs'.map ofTree =
          (cs.map ofTree).map fun item => ss.foldl showStatus item := by
        rw [List.map_map]
        refine TestTree.map_eq_map_of_zip hlength fun p hp => ih p hp fun m m' hm hm' => ?_
        refine hR m m' hm ?_
        rw [TestTree.nodes_node]
        exact List.mem_cons_of_mem _
          (List.mem_flatMap.mpr ⟨p.2, (List.of_mem_zip hp).2, hm'⟩)
      rw [ofTree_node, ofTree_node, foldl_showStatus_node, hroot, hbelow]

theorem ofNode_eq_withStatus {n n' : TestNode} (hbare : n'.bare = n.bare)
    (hexpanded : n'.expanded = n.expanded) :
    ItemInfo.ofNode n' =
      { ItemInfo.ofNode n with status := n'.status, description := n'.description } := by
  have hkey := TestNode.key_eq_of_bare_eq hbare
  have hkind := TestNode.kind_eq_of_bare_eq hbare
  have hname : n'.name = n.name := by
    simpa using congrArg TestNode.name hbare
  have hrange : n'.range = n.range := by
    simpa using congrArg TestNode.range hbare
  rw [ItemInfo.ofNode, ItemInfo.ofNode, hkey, hkind, hname, hrange, hexpanded]

/-- A node whose result stays is shown as before. -/
theorem ofNode_eq_of_result_eq {n n' : TestNode} (hbare : n'.bare = n.bare)
    (hexpanded : n'.expanded = n.expanded) (hresult : n'.result = n.result) :
    ItemInfo.ofNode n' = ItemInfo.ofNode n := by
  have hstatus : n'.status = n.status := by
    rw [TestNode.status, TestNode.status, hresult]
  have hfocused : n'.focused = n.focused := by
    simpa using congrArg TestNode.focused hbare
  have hpending : n'.pending = n.pending := by
    simpa using congrArg TestNode.pending hbare
  have hlabels : n'.labels = n.labels := by
    simpa using congrArg TestNode.labels hbare
  have hdescription : n'.description = n.description := by
    unfold TestNode.description TestNode.descriptionParts
    rw [hresult, hfocused, hpending, hlabels]
  rw [ofNode_eq_withStatus hbare hexpanded, hstatus, hdescription]
  rfl

theorem mem_statuses {uri : Uri} {t : TestTree} {changed : List NodeKey} {s : NodeStatus} :
    s ∈ (TreeChange.ofStatuses uri t changed).statuses ↔
      ∃ key ∈ changed, ∃ n, t.node? key = some n ∧ NodeStatus.ofNode n = s := by
  simp only [TreeChange.ofStatuses, List.mem_map, List.mem_filterMap, List.mem_eraseDups]
  constructor
  · rintro ⟨n, ⟨key, hkey, hn⟩, hs⟩
    exact ⟨key, hkey, n, hn, hs⟩
  · rintro ⟨key, hkey, n, hn, hs⟩
    exact ⟨n, ⟨key, hkey, hn⟩, hs⟩

theorem key_of_node? {t : TestTree} {key : NodeKey} {n : TestNode} (h : t.node? key = some n) :
    n.key = key := by
  obtain ⟨s, hs, rfl⟩ := Option.map_eq_some_iff.mp h
  exact (TestTree.mem_subtrees_of_find? hs).2

/-- The change of a run that lists its changes brings an item up to date. -/
theorem change?_ofStatuses (uri : Uri) {changed : List NodeKey} {t t' : TestTree}
    (hkeyed : t'.Keyed) (h : TestTree.ListsChanges changed t t') :
    (ofTree t).change? (.ofStatuses uri t' changed) = some (ofTree t') := by
  have hsame : (ofTree t).without? [] = some (ofTree t) :=
    without?_ofTree fun _ _ => List.not_mem_nil
  rw [change?, TreeChange.ofStatuses, hsame]
  refine congrArg some (Eq.symm (ofTree_eq_foldl_showStatus h fun n n' hn hn' => ?_))
  have hkey : n'.key = n.key := TestNode.key_eq_of_bare_eq hn.bare
  have hnode : t'.node? n.key = some n' := by
    obtain ⟨s, hs, rfl⟩ := TestTree.mem_nodes.mp hn'
    rw [← hkey]
    exact congrArg (Option.map TestTree.info) (hkeyed.find?_key hs)
  by_cases hlisted : n.key ∈ changed
  · rw [ofNode_eq_withStatus hn.bare hn.expanded]
    refine (foldl_withStatus_eq (s := .ofNode n') ?_ hkey.symm fun r hr hrkey => ?_).symm
    · exact mem_statuses.mpr ⟨n.key, hlisted, n', hnode, rfl⟩
    · obtain ⟨key, -, m, hm, rfl⟩ := mem_statuses.mp hr
      have hmkey : m.key = n.key := hrkey.symm
      rw [← key_of_node? hm, hmkey, hnode] at hm
      rw [Option.some.inj hm]
  · rw [ofNode_eq_of_result_eq hn.bare hn.expanded (hn.result hlisted)]
    refine (foldl_eq_self fun r hr => ?_).symm
    obtain ⟨key, hmem, m, hm, rfl⟩ := mem_statuses.mp hr
    refine if_neg fun hne => hlisted ?_
    have hmkey : n.key = m.key := hne
    rw [hmkey, key_of_node? hm]
    exact hmem

/-! ### One item in the place of another -/

@[simp] theorem key_put (item new : TreeItem) : (item.put new).key = item.key := by
  obtain ⟨info, children⟩ := item
  rw [put_node]
  split
  next hkey => exact hkey.symm
  next => rfl

/-- An item for a key that is not in a tree changes nothing. -/
theorem put_ofTree_of_not_contains {t : TestTree} {new : TreeItem}
    (h : ¬ t.contains new.key) : (ofTree t).put new = ofTree t := by
  induction t with
  | node info children ih =>
      have hroot : (ItemInfo.ofNode info).key ≠ new.key := fun hkey =>
        h (TestTree.contains_iff.mpr ⟨_, TestTree.self_mem_subtrees _, hkey⟩)
      rw [ofTree_node, put_node, if_neg hroot, List.map_map]
      refine congrArg _ (List.map_congr_left fun c hc => ih c hc fun hcontains => ?_)
      exact h (TestTree.contains_of_child hc hcontains)

open TestTree in
/-- The item of a changed subtree in its place makes the item of the changed tree. -/
theorem put_ofTree_of_replaced {key : NodeKey} {f : TestNode → TestNode} {t t' : TestTree}
    {log : List NodeKey} (h : Replaced key (mapRoot f) kept t t' log)
    (hf : ∀ n, (f n).key = n.key) (hkeyed : t.Keyed) {s : TestTree} (hs : s ∈ t.subtrees)
    (hskey : s.key = key) : (ofTree t).put (ofTree (mapRoot f s)) = ofTree t' := by
  have hnew : (ofTree (mapRoot f s)).key = key := by
    rw [key_ofTree, ← hskey]
    cases s
    exact hf _
  induction h with
  | here hkey =>
      obtain rfl := hkeyed.eq_of_key_eq (self_mem_subtrees _) hs (hkey.trans hskey.symm)
      rw [ofTree_node, put_node, key_ofNode, if_pos (hkey.trans hnew.symm)]
  | @deeper info before after c c' log hkey hbefore hchild ih =>
      have hc : c ∈ (TestTree.node info (before ++ c :: after)).children := by simp
      obtain ⟨r, hr, hrkey⟩ := contains_iff.mp hchild.contains
      obtain rfl := hkeyed.eq_of_key_eq (mem_subtrees_node.mpr (.inr ⟨c, hc, hr⟩)) hs
        (hrkey.trans hskey.symm)
      have hother : ∀ ds : List TestTree, (∀ d ∈ ds, d ∈ before ∨ d ∈ after) →
          (ds.map ofTree).map (put · (ofTree (mapRoot f r))) = ds.map ofTree := by
        intro ds hds
        rw [List.map_map]
        refine List.map_congr_left fun d hd => put_ofTree_of_not_contains ?_
        rw [hnew]
        exact hkeyed.not_contains_sibling hchild.contains (hds d hd)
      have hchanged := ih (hkeyed.of_mem_children hc) hr
      rw [ofTree_node, ofTree_node, put_node, key_ofNode, hnew, if_neg hkey]
      simp only [List.map_append, List.map_cons, hchanged, hother before fun d hd => .inl hd,
        hother after fun d hd => .inr hd]
      rfl

end TreeItem

end SpecExplorer
