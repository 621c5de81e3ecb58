/-
# One pass closes a run

Closing a run goes over the nodes at and below its key from the leaves up, and then over the nodes
above. Every node comes once, after all its children, and what becomes of it is read off itself and
them. Hence one pass settles whatever can be settled, in whatever state the tree was and whichever
runs its nodes belong to: a second pass makes nothing more of any node. The nodes that the first
one lists are just those whose result it changed, in the order of the source.
-/
import SpecExplorer.Proofs.Run.Calm

namespace SpecExplorer

/-- Closing a leaf again makes nothing more of it. -/
theorem TestNode.close_close (n : TestNode) (run : RunId) (children : List TestTree) :
    (n.close run children).close run children = n.close run children := by
  cases hr : n.result with
  | none => simp [close, hr]
  | some r =>
      by_cases hclosed : n.isClaimedBy run && n.isLeaf children && !r.status.isTerminal
      · have hclose : n.close run children =
            { n with result := some { r with status := .skipped } } := by
          simp [close, hr, hclosed]
        rw [hclose]
        simp [close, RunStatus.isTerminal]
      · have hclose : n.close run children = n := by
          simp [close, hr, hclosed]
        rw [hclose, hclose]

namespace TestTree

variable {f g below above : NodeChange} {t t' s : TestTree} {key : NodeKey}

/-! ### Changes that are made twice -/

/-- A change that makes nothing more of a node, when it comes to it again, makes nothing more of a
whole tree. -/
theorem rebuild_rebuild_self
    (hf : ∀ info children, f (f info children) children = f info children) (t : TestTree) :
    (t.rebuild f).rebuild f = t.rebuild f := by
  refine rebuild_eq_self (forall_subtrees_rebuild.mpr fun s _ => ?_)
  rw [info_rebuild, children_rebuild, hf]

theorem closing_closing (run : RunId) (info : TestNode) (children : List TestTree) :
    closing run (closing run info children) children = closing run info children := by
  unfold closing
  rcases settled_cases (info.close run children) children with ⟨-, heq⟩ | ⟨a, ha, -⟩
  · rw [heq, TestNode.close_close, heq]
  · -- What the children show together stands in for any result.
    have hany : ∀ n : TestNode, settled (n.close run children) children =
        { n with result := some a } := by
      intro n
      rw [settled, ha, TestNode.settle, TestNode.close]
      split
      · split <;> rfl
      · rfl
    rw [hany, hany]

theorem around_around (hbare : ∀ info children, (below info children).bare = info.bare)
    (hbare' : ∀ info children, (above info children).bare = info.bare)
    (hbelow : ∀ info children, below (below info children) children = below info children)
    (habove : ∀ info children, above (above info children) children = above info children)
    (info : TestNode) (children : List TestTree) :
    around key below above (around key below above info children) children =
      around key below above info children := by
  have hkey : (around key below above info children).key = info.key :=
    TestNode.key_eq_of_bare_eq (bare_around hbare hbare' info children)
  by_cases hcovers : key.covers info.key
  · rw [around_below (by rwa [hkey]), around_below hcovers, hbelow]
  by_cases hcovers' : info.key.covers key
  · rw [around_above (by rwa [hkey]) (by rwa [hkey]), around_above hcovers hcovers', habove]
  · rw [around_apart (by rwa [hkey]) (by rwa [hkey])]

/-- What closing a run under a key makes of a node. -/
def closingAt (key : NodeKey) (run : RunId) : NodeChange := around key (closing run) settled

theorem bare_closingAt (key : NodeKey) (run : RunId) (info : TestNode)
    (children : List TestTree) : (closingAt key run info children).bare = info.bare :=
  ((calm_closing run).around calm_settled key).bare info children

theorem closingAt_closingAt (key : NodeKey) (run : RunId) (info : TestNode)
    (children : List TestTree) :
    closingAt key run (closingAt key run info children) children =
      closingAt key run info children :=
  around_around (calm_closing run).bare bare_settled (closing_closing run)
    (fun _ _ => settled_settled id) info children

/-- A node at, below or above the key shows what its children show together, if they do. -/
theorem result_closingAt {run : RunId} {info : TestNode} {children : List TestTree}
    (hnear : key.covers info.key ∨ info.key.covers key) {r : RunResult}
    (hr : combined children = some r) : (closingAt key run info children).result = some r := by
  by_cases hcovers : key.covers info.key
  · rw [closingAt, around_below hcovers, closing, settled, hr]
    rfl
  · rw [closingAt, around_above hcovers (hnear.resolve_left hcovers), settled, hr]
    rfl

/-! ### The list of changes -/

/-- The keys of the nodes whose result a change changes, in pre-order. -/
def changes (f : NodeChange) (t : TestTree) : List NodeKey :=
  t.subtrees.flatMap fun s => s.info.changedKey (s.rebuild f).info

theorem changes_node (f : NodeChange) (info : TestNode) (children : List TestTree) :
    (node info children).changes f =
      info.changedKey ((node info children).rebuild f).info ++ children.flatMap (changes f) := by
  rw [changes, subtrees_node, List.flatMap_cons, List.flatMap_assoc]
  rfl

theorem changes_congr (h : ∀ s ∈ t.subtrees, s.rebuild f = s.rebuild g) :
    t.changes f = t.changes g :=
  List.flatMap_congr fun s hs => by rw [h s hs]

theorem changes_eq_nil (h : t.rebuild f = t) : t.changes f = [] := by
  have hmap : t.subtrees.map (rebuild f) = t.subtrees.map id := by
    rw [← subtrees_rebuild, h, List.map_id]
  refine List.flatMap_eq_nil_iff.mpr fun s hs => ?_
  rw [List.map_inj_left.mp hmap s hs]
  exact if_pos rfl

/-- Closing a run over a tree lists its changes. -/
theorem finish_snd_eq_changes (run : RunId) (t : TestTree) :
    (t.finish run).2 = t.changes (closing run) := by
  induction t with
  | node info children ih =>
      have hinfo : finishNode run info children =
          ((node info children).rebuild (closing run)).info := by
        rw [← finish_eq_rebuild, finish_fst]
        rfl
      rw [finish_snd, changes_node, hinfo, List.flatMap_congr ih]

/-- The changes of a replacement are those of the subtree, after those of the nodes above it. -/
theorem Replaced.changes_eq {change : TestTree → TestTree} {log : List NodeKey}
    (h : Replaced key change above t t' log) (hkeyed : t.Keyed)
    (hchange : ∀ s ∈ t.subtrees, s.key = key → change s = s.rebuild below) :
    ∃ s ∈ t.subtrees, s.key = key ∧
      t.changes (around key below above) = log.reverse ++ s.changes below := by
  induction h with
  | @here info children hkey =>
      refine ⟨_, self_mem_subtrees _, hkey, changes_congr fun s hs => ?_⟩
      refine rebuild_congr fun r hr => around_below ?_ _
      rw [← hkey]
      exact hkeyed.covers_of_mem_subtrees (mem_subtrees_trans hr hs)
  | @deeper info before after c c' log hkey hbefore hchild ih =>
      have hc : c ∈ before ++ c :: after := by simp
      obtain ⟨s, hs, hskey, hchanges⟩ := ih (hkeyed.of_mem_children hc)
        fun s hs => hchange s (mem_subtrees_node.mpr (.inr ⟨c, hc, hs⟩))
      have hinfo : ((node info (before ++ c :: after)).rebuild (around key below above)).info =
          above info (before ++ c' :: after) := by
        rw [← (Replaced.deeper hkey hbefore hchild).eq_rebuild hkeyed hchange]
        rfl
      have hbeside : ∀ ds : List TestTree, (∀ d ∈ ds, d ∈ before ∨ d ∈ after) →
          ds.flatMap (changes (around key below above)) = [] := fun ds hds =>
        List.flatMap_eq_nil_iff.mpr fun d hd =>
          changes_eq_nil (hkeyed.rebuild_beside hchild.contains (hds d hd) below above)
      have hreverse : ∀ n : TestNode, (info.changedKey n).reverse = info.changedKey n := by
        intro n
        unfold TestNode.changedKey
        split <;> rfl
      refine ⟨s, mem_subtrees_node.mpr (.inr ⟨c, hc, hs⟩), hskey, ?_⟩
      rw [changes_node, hinfo, List.flatMap_append, List.flatMap_cons, hbeside before fun _ => .inl,
        hbeside after fun _ => .inr, List.nil_append, List.append_nil, hchanges,
        List.reverse_append, hreverse, List.append_assoc]

/-- Closing a run under a key lists its changes. -/
theorem finishRun_snd_eq_changes (hkeyed : t.Keyed) (hkey : t.contains key) (run : RunId) :
    (t.finishRun key run).2 = t.changes (closingAt key run) := by
  obtain ⟨s, log, hs, hlisted, hreplaced⟩ := replaced_finishRun hkey run
  obtain ⟨hmem, hskey⟩ := mem_subtrees_of_find? hs
  obtain ⟨r, hr, hrkey, hchanges⟩ :=
    hreplaced.changes_eq hkeyed fun s _ _ => finish_eq_rebuild run s
  obtain rfl := hkeyed.eq_of_key_eq hr hmem (hrkey.trans hskey.symm)
  rw [hlisted, closingAt, hchanges, finish_snd_eq_changes]

/-- The keys of the nodes of a tree that have another result in a second tree, in pre-order. -/
def differing (t t' : TestTree) : List NodeKey :=
  t.keys.filter fun key => (t.node? key).map (·.result) ≠ (t'.node? key).map (·.result)

/-- The changes are found by looking up every key before and after. -/
theorem changes_eq_differing (hf : ∀ info children, (f info children).bare = info.bare)
    (hkeyed : t.Keyed) : t.changes f = t.differing (t.rebuild f) := by
  have hlookup : ∀ s ∈ t.subtrees,
      ((t.node? s.key).map (·.result) ≠ ((t.rebuild f).node? s.key).map (·.result) ↔
        s.info.result ≠ (s.rebuild f).info.result) := by
    intro s hs
    have hfound := hkeyed.find?_key hs
    rw [node?, node?, hfound, find?_rebuild hf hkeyed hfound]
    simp
  have hkeys : t.keys = t.subtrees.map key := by
    rw [keys, nodes_eq_map_subtrees, List.map_map]
    rfl
  rw [differing, hkeys, changes]
  generalize t.subtrees = ss at hlookup
  induction ss with
  | nil => rfl
  | cons s rest ih =>
      have hs := hlookup s List.mem_cons_self
      rw [List.flatMap_cons, ih fun r hr => hlookup r (List.mem_cons_of_mem _ hr), List.map_cons,
        List.filter_cons, TestNode.changedKey]
      by_cases hsame : s.info.result = (s.rebuild f).info.result
      · rw [if_pos hsame, if_neg (by simpa [hsame] using hs)]
        rfl
      · rw [if_neg hsame, if_pos (by simpa [hsame] using hs)]
        rfl

/-! ### Closing a run -/

/-- Keys of a keyed tree in the order of the tree have ascending places in it. -/
theorem Keyed.pairwise_idxOf_of_sublist (hkeyed : t.Keyed) {keys : List NodeKey}
    (h : keys.Sublist t.keys) : (keys.map t.keys.idxOf).Pairwise (· < ·) := by
  refine List.Pairwise.sublist (h.map _) (List.pairwise_iff_getElem.mpr fun i j hi hj hij => ?_)
  rw [List.getElem_map, List.getElem_map, hkeyed.nodup_keys.idxOf_getElem,
    hkeyed.nodup_keys.idxOf_getElem]
  exact hij

/-- Closing a run lists the nodes whose result it changes. -/
theorem finishRun_snd_eq_differing (hkeyed : t.Keyed) (hkey : t.contains key) (run : RunId) :
    (t.finishRun key run).2 = t.differing (t.rebuild (closingAt key run)) := by
  rw [finishRun_snd_eq_changes hkeyed hkey, changes_eq_differing (bare_closingAt key run) hkeyed]

/-- There is nothing left to do for a second close. -/
theorem finishRun_rebuild_closingAt (hkeyed : t.Keyed) (hkey : t.contains key) (run : RunId) :
    (t.rebuild (closingAt key run)).finishRun key run = (t.rebuild (closingAt key run), []) := by
  have hframe := rebuild_frame (bare_closingAt key run) t
  have hkeyed' := hkeyed.of_frame_eq hframe
  have hkey' : (t.rebuild (closingAt key run)).contains key := by
    rwa [contains_eq_of_frame_eq hframe]
  have hagain := rebuild_rebuild_self (closingAt_closingAt key run) t
  refine Prod.ext ((finishRun_eq_rebuild hkeyed' hkey' run).trans hagain) ?_
  rw [finishRun_snd_eq_changes hkeyed' hkey' run, changes_eq_nil hagain]

end TestTree

end SpecExplorer
