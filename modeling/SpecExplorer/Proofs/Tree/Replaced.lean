/-
# Replacing a subtree

Every operation on a tree works at one key: it changes the subtree there and, on the way back to
the root, either keeps the nodes above or settles them from their new children. `Replaced` says
this once as a relation, and each operation is shown to be an instance of it. What an operation
keeps is then proved by induction on the relation and not on the operation.
-/
import SpecExplorer.Proofs.Tree.Frame

namespace SpecExplorer.TestTree

/-- `t'` is `t` with the subtree under `key` changed. Each node above it became what `above` makes
of it and its new children, and `log` lists those of them whose result changed, nearest first. -/
inductive Replaced (key : NodeKey) (change : TestTree → TestTree)
    (above : TestNode → List TestTree → TestNode) :
    TestTree → TestTree → List NodeKey → Prop
  | here {info : TestNode} {children : List TestTree} (hkey : info.key = key) :
      Replaced key change above (.node info children) (change (.node info children)) []
  | deeper {info : TestNode} {before after : List TestTree} {c c' : TestTree}
      {log : List NodeKey} (hkey : info.key ≠ key)
      (hbefore : ∀ b ∈ before, ¬ b.contains key) (hchild : Replaced key change above c c' log) :
      Replaced key change above (.node info (before ++ c :: after))
        (.node (above info (before ++ c' :: after)) (before ++ c' :: after))
        (log ++ info.changedKey (above info (before ++ c' :: after)))

/-- Nodes above a change that stay as they are. -/
def kept (info : TestNode) (_children : List TestTree) : TestNode := info

/-- Nodes above a change that are settled from their children. -/
def settled (info : TestNode) (children : List TestTree) : TestNode :=
  info.settle (combined children)

/-- Changes the root of a tree. -/
def mapRoot (f : TestNode → TestNode) : TestTree → TestTree
  | .node info children => .node (f info) children

/-- What holds of siblings holds of them with another in the place of one, if it holds of that. -/
theorem forall_mem_of_replaced {before after : List TestTree} {c c' : TestTree}
    {p : TestTree → Prop} (h : ∀ d ∈ before ++ c :: after, p d) (hc : p c') :
    ∀ d ∈ before ++ c' :: after, p d := by
  intro d hd
  rcases List.mem_append.mp hd with hd | hd
  · exact h d (List.mem_append_left _ hd)
  rcases List.mem_cons.mp hd with rfl | hd
  · exact hc
  · exact h d (List.mem_append_right _ (List.mem_cons_of_mem _ hd))

theorem Replaced.congr {key : NodeKey} {change change' : TestTree → TestTree}
    {above : TestNode → List TestTree → TestNode} {t t' : TestTree} {log : List NodeKey}
    (h : Replaced key change above t t' log) (hchange : ∀ s, change s = change' s) :
    Replaced key change' above t t' log := by
  obtain rfl : change = change' := funext hchange
  exact h

/-! ### The two ways to replace a subtree -/

theorem updateAmong?_eq_some {α : Type} {key : NodeKey} {change : TestTree → TestTree × α}
    {ts ts' : List TestTree} {a : α} (h : updateAmong? key change ts = some (ts', a)) :
    ∃ before c c' after, ts = before ++ c :: after ∧ ts' = before ++ c' :: after ∧
      (∀ b ∈ before, update? key change b = none) ∧ update? key change c = some (c', a) := by
  induction ts generalizing ts' with
  | nil => cases h
  | cons t rest ih =>
      rw [updateAmong?] at h
      cases hhead : update? key change t with
      | some found =>
          obtain ⟨c', b⟩ := found
          rw [hhead] at h
          cases h
          exact ⟨[], t, c', rest, rfl, rfl, by simp, hhead⟩
      | none =>
          rw [hhead] at h
          obtain ⟨⟨rest', b⟩, hrest, heq⟩ := Option.map_eq_some_iff.mp h
          cases heq
          obtain ⟨before, c, c', after, rfl, rfl, hbefore, hc⟩ := ih hrest
          exact ⟨t :: before, c, c', after, rfl, rfl, by simpa [hhead] using hbefore, hc⟩

theorem updateAmong?_isSome_iff {α : Type} {key : NodeKey} {change : TestTree → TestTree × α}
    {ts : List TestTree} :
    (updateAmong? key change ts).isSome ↔ ∃ t ∈ ts, (update? key change t).isSome := by
  induction ts with
  | nil => simp [updateAmong?]
  | cons t rest ih =>
      rw [updateAmong?]
      cases hhead : update? key change t with
      | some found => simp [hhead]
      | none => simp [hhead, ih]

theorem update?_isSome_iff {α : Type} {key : NodeKey} (change : TestTree → TestTree × α)
    {t : TestTree} : (t.update? key change).isSome ↔ t.contains key := by
  rw [contains_iff]
  induction t with
  | node info children ih =>
      rw [update?]
      split
      next hkey => simpa using .inl hkey
      next hkey =>
          rw [Option.isSome_map, updateAmong?_isSome_iff]
          simp only [mem_subtrees_node, exists_eq_or_imp, key_node, hkey, false_or]
          constructor
          · rintro ⟨c, hc, hsome⟩
            obtain ⟨s, hs, hskey⟩ := (ih c hc).mp hsome
            exact ⟨s, ⟨c, hc, hs⟩, hskey⟩
          · rintro ⟨s, ⟨c, hc, hs⟩, hskey⟩
            exact ⟨c, hc, (ih c hc).mpr ⟨s, hs, hskey⟩⟩

theorem not_contains_of_update?_eq_none {α : Type} {key : NodeKey}
    {change : TestTree → TestTree × α} {t : TestTree} (h : t.update? key change = none) :
    ¬ t.contains key := by
  rw [← update?_isSome_iff change, h]
  simp

/-- Updating at a key replaces the subtree there and keeps the nodes above. It hands on what the
change says about the subtree that the key finds. -/
theorem replaced_of_update? {α : Type} {key : NodeKey} {change : TestTree → TestTree × α}
    {t t' : TestTree} {a : α} (h : t.update? key change = some (t', a)) :
    (∃ log, Replaced key (fun s => (change s).1) kept t t' log) ∧
      ∃ s, t.find? key = some s ∧ a = (change s).2 := by
  induction t generalizing t' with
  | node info children ih =>
      rw [update?] at h
      split at h
      next hkey =>
          have heq := Option.some.inj h
          have hfst : (change (.node info children)).1 = t' := congrArg Prod.fst heq
          have hsnd : (change (.node info children)).2 = a := congrArg Prod.snd heq
          rw [find?_node, if_pos hkey]
          exact ⟨⟨[], hfst ▸ .here hkey⟩, _, rfl, hsnd.symm⟩
      next hkey =>
          obtain ⟨⟨children', b⟩, hsome, heq⟩ := Option.map_eq_some_iff.mp h
          cases heq
          obtain ⟨before, c, c', after, rfl, rfl, hbefore, hc⟩ := updateAmong?_eq_some hsome
          obtain ⟨⟨log, hlog⟩, s, hs, ha⟩ := ih c (by simp) hc
          have hnot : ∀ b ∈ before, ¬ b.contains key := fun b hb =>
            not_contains_of_update?_eq_none (hbefore b hb)
          refine ⟨⟨_, .deeper hkey hnot hlog⟩, s, ?_, ha⟩
          have hnone : before.findSome? (find? key) = none := by
            rw [List.findSome?_eq_none_iff]
            intro b hb
            simpa [contains] using hnot b hb
          rw [find?_node, if_neg hkey, List.findSome?_append, hnone, List.findSome?_cons, hs]
          rfl

theorem bubbleAmong?_eq_some {key : NodeKey} {change : TestTree → TestTree} {ts : List TestTree}
    {b : Bubbled (List TestTree)} (h : bubbleAmong? key change ts = some b) :
    ∃ before c after b', ts = before ++ c :: after ∧
      b = ⟨before ++ b'.tree :: after, b'.ancestors⟩ ∧
      (∀ d ∈ before, bubble? key change d = none) ∧ bubble? key change c = some b' := by
  induction ts generalizing b with
  | nil => cases h
  | cons t rest ih =>
      rw [bubbleAmong?] at h
      cases hhead : bubble? key change t with
      | some found =>
          rw [hhead] at h
          cases h
          exact ⟨[], t, rest, found, rfl, rfl, by simp, hhead⟩
      | none =>
          rw [hhead] at h
          obtain ⟨b₁, hrest, rfl⟩ := Option.map_eq_some_iff.mp h
          obtain ⟨before, c, after, b', rfl, rfl, hbefore, hc⟩ := ih hrest
          exact ⟨t :: before, c, after, b', rfl, rfl, by simpa [hhead] using hbefore, hc⟩

theorem bubbleAmong?_isSome_iff {key : NodeKey} {change : TestTree → TestTree}
    {ts : List TestTree} :
    (bubbleAmong? key change ts).isSome ↔ ∃ t ∈ ts, (bubble? key change t).isSome := by
  induction ts with
  | nil => simp [bubbleAmong?]
  | cons t rest ih =>
      rw [bubbleAmong?]
      cases hhead : bubble? key change t with
      | some found => simp [hhead]
      | none => simp [hhead, ih]

theorem bubble?_isSome_iff {key : NodeKey} (change : TestTree → TestTree) {t : TestTree} :
    (t.bubble? key change).isSome ↔ t.contains key := by
  rw [contains_iff]
  induction t with
  | node info children ih =>
      rw [bubble?]
      split
      next hkey => simpa using .inl hkey
      next hkey =>
          rw [Option.isSome_map, bubbleAmong?_isSome_iff]
          simp only [mem_subtrees_node, exists_eq_or_imp, key_node, hkey, false_or]
          constructor
          · rintro ⟨c, hc, hsome⟩
            obtain ⟨s, hs, hskey⟩ := (ih c hc).mp hsome
            exact ⟨s, ⟨c, hc, hs⟩, hskey⟩
          · rintro ⟨s, ⟨c, hc, hs⟩, hskey⟩
            exact ⟨c, hc, (ih c hc).mpr ⟨s, hs, hskey⟩⟩

theorem not_contains_of_bubble?_eq_none {key : NodeKey} {change : TestTree → TestTree}
    {t : TestTree} (h : t.bubble? key change = none) : ¬ t.contains key := by
  rw [← bubble?_isSome_iff change, h]
  simp

/-- Bubbling from a key replaces the subtree there and settles the nodes above. -/
theorem replaced_of_bubble? {key : NodeKey} {change : TestTree → TestTree} {t : TestTree}
    {b : Bubbled TestTree} (h : t.bubble? key change = some b) :
    Replaced key change settled t b.tree b.ancestors := by
  induction t generalizing b with
  | node info children ih =>
      rw [bubble?] at h
      split at h
      next hkey =>
          cases h
          exact .here hkey
      next hkey =>
          obtain ⟨b₁, hsome, rfl⟩ := Option.map_eq_some_iff.mp h
          obtain ⟨before, c, after, b', rfl, rfl, hbefore, hc⟩ := bubbleAmong?_eq_some hsome
          exact .deeper hkey (fun d hd => not_contains_of_bubble?_eq_none (hbefore d hd))
            (ih c (by simp) hc)

/-! ### The operations of a run -/

section Operations

variable {t : TestTree} {key : NodeKey}

theorem replaced_touchAt (hkey : t.contains key) (change : TestNode → Option TestNode) :
    ∃ s log, t.find? key = some s ∧ (t.touchAt key change).2 = (s.touch change).2 ∧
      Replaced key (fun s => (s.touch change).1) kept t (t.touchAt key change).1 log := by
  obtain ⟨⟨t', changed⟩, h⟩ := Option.isSome_iff_exists.mp
    ((update?_isSome_iff (touch change)).mpr hkey)
  obtain ⟨⟨log, hlog⟩, s, hs, hchanged⟩ := replaced_of_update? h
  rw [touchAt, h]
  exact ⟨s, log, hs, hchanged, hlog⟩

theorem touchAt_of_not_contains (hkey : ¬ t.contains key) (change : TestNode → Option TestNode) :
    t.touchAt key change = (t, []) := by
  rw [← update?_isSome_iff (touch change), Bool.not_eq_true, Option.isSome_eq_false_iff,
    Option.isNone_iff_eq_none] at hkey
  rw [touchAt, hkey]
  rfl

theorem replaced_modify (hkey : t.contains key) (f : TestNode → TestNode) :
    ∃ log, Replaced key (mapRoot f) kept t (t.modify key f) log := by
  unfold modify
  split
  next t' u h =>
      obtain ⟨⟨log, hlog⟩, -⟩ := replaced_of_update? h
      exact ⟨log, hlog.congr fun s => by cases s; rfl⟩
  next h => exact absurd hkey (not_contains_of_update?_eq_none h)

/-- Recording a result sets it at its node and settles the nodes above; the node itself is listed
first among those that changed. -/
theorem replaced_applyResult (hkey : t.contains key) (r : RunResult) :
    ∃ log, (t.applyResult key r).2 = key :: log ∧
      Replaced key (mapRoot fun n => { n with result := some r }) settled t
        (t.applyResult key r).1 log := by
  unfold applyResult
  split
  next b h =>
      exact ⟨b.ancestors, rfl, (replaced_of_bubble? h).congr fun s => by cases s; rfl⟩
  next h => exact absurd hkey (not_contains_of_bubble?_eq_none h)

/-- Closing a run finishes the subtree at its key and settles the nodes above. -/
theorem replaced_finishRun (hkey : t.contains key) (run : RunId) :
    ∃ s log, t.find? key = some s ∧
      (t.finishRun key run).2 = log.reverse ++ (s.finish run).2 ∧
      Replaced key (fun s => (s.finish run).1) settled t (t.finishRun key run).1 log := by
  obtain ⟨b, h⟩ := Option.isSome_iff_exists.mp
    ((bubble?_isSome_iff fun s => (s.finish run).1).mpr hkey)
  obtain ⟨s, hs⟩ := Option.isSome_iff_exists.mp hkey
  rw [finishRun, hs, h]
  exact ⟨s, b.ancestors, rfl, rfl, replaced_of_bubble? h⟩

end Operations

/-! ### What every replacement keeps -/

namespace Replaced

variable {key : NodeKey} {change : TestTree → TestTree}
  {above : TestNode → List TestTree → TestNode} {t t' : TestTree} {log : List NodeKey}

/-- The frame stays where the change keeps it. -/
theorem frame_eq (h : Replaced key change above t t' log)
    (hchange : ∀ s, (change s).frame = s.frame)
    (habove : ∀ info children, (above info children).bare = info.bare) : t'.frame = t.frame := by
  induction h with
  | here hkey => exact hchange _
  | deeper hkey hbefore hchild ih => simp [habove, ih]

theorem contains (h : Replaced key change above t t' log) : t.contains key := by
  induction h with
  | here hkey => exact contains_iff.mpr ⟨_, self_mem_subtrees _, hkey⟩
  | deeper hkey hbefore hchild ih => exact contains_of_child (by simp) ih

/-- The changed subtree is a subtree of the new tree. -/
theorem exists_changed (h : Replaced key change above t t' log) :
    ∃ s ∈ t.subtrees, s.key = key ∧ change s ∈ t'.subtrees := by
  induction h with
  | here hkey => exact ⟨_, self_mem_subtrees _, hkey, self_mem_subtrees _⟩
  | deeper hkey hbefore hchild ih =>
      obtain ⟨s, hs, hskey, hs'⟩ := ih
      exact ⟨s, mem_subtrees_node.mpr (.inr ⟨_, by simp, hs⟩), hskey,
        mem_subtrees_node.mpr (.inr ⟨_, by simp, hs'⟩)⟩

/-- Within a subtree that holds the key, a replacement in the tree is one in the subtree. -/
theorem within (h : Replaced key change above t t' log) (hkeyed : t.Keyed) {s : TestTree}
    (hs : s ∈ t.subtrees) (hskey : s.contains key) :
    ∃ s' log', s' ∈ t'.subtrees ∧ Replaced key change above s s' log' := by
  induction h with
  | @here info children hkey =>
      obtain ⟨r, hr, hrkey⟩ := contains_iff.mp hskey
      have hsr : s.key.covers r.key := (hkeyed.of_mem_subtrees hs).covers_of_mem_subtrees hr
      have hts : (node info children).key.covers s.key := hkeyed.covers_of_mem_subtrees hs
      obtain rfl : s = .node info children := hkeyed.eq_of_key_eq hs (self_mem_subtrees _)
        (NodeKey.covers_antisymm (by rwa [key_node, hkey, ← hrkey]) hts)
      exact ⟨_, _, self_mem_subtrees _, .here hkey⟩
  | @deeper info before after c c' log hkey hbefore hchild ih =>
      rcases mem_subtrees_node.mp hs with rfl | ⟨d, hd, hsd⟩
      · exact ⟨_, _, self_mem_subtrees _, .deeper hkey hbefore hchild⟩
      have hc : c ∈ (node info (before ++ c :: after)).children := by simp
      obtain rfl :=
        hkeyed.eq_of_children_contain hd hc (contains_trans hskey hsd) hchild.contains
      obtain ⟨s', log', hs', hreplaced⟩ := ih (hkeyed.of_mem_children hc) hsd
      exact ⟨s', log', mem_subtrees_node.mpr (.inr ⟨c', by simp, hs'⟩), hreplaced⟩

/-- A key that held a subtree holds the changed subtree, where the frame is kept. -/
theorem find?_changed (h : Replaced key change above t t' log) (hkeyed : t.Keyed)
    (hchange : ∀ s, (change s).frame = s.frame)
    (habove : ∀ info children, (above info children).bare = info.bare) {s : TestTree}
    (hs : t.find? key = some s) : t'.find? key = some (change s) := by
  obtain ⟨r, hr, hrkey, hr'⟩ := h.exists_changed
  obtain ⟨hmem, hskey⟩ := mem_subtrees_of_find? hs
  obtain rfl := hkeyed.eq_of_key_eq hr hmem (hrkey.trans hskey.symm)
  have hkeyed' : t'.Keyed := hkeyed.of_frame_eq (h.frame_eq hchange habove)
  exact hkeyed'.find?_eq_some_iff.mpr ⟨hr', (key_eq_of_frame_eq (hchange r)).trans hrkey⟩

/-- A key whose subtree holds the key of a replacement holds the subtree with the same
replacement. -/
theorem find?_within (h : Replaced key change above t t' log) (hkeyed : t.Keyed)
    (hchange : ∀ s, (change s).frame = s.frame)
    (habove : ∀ info children, (above info children).bare = info.bare) {scope : NodeKey}
    {s : TestTree} (hs : t.find? scope = some s) (hskey : s.contains key) :
    ∃ s' log', t'.find? scope = some s' ∧ Replaced key change above s s' log' := by
  obtain ⟨hmem, hscope⟩ := mem_subtrees_of_find? hs
  obtain ⟨s', log', hs', hreplaced⟩ := h.within hkeyed hmem hskey
  have hkeyed' : t'.Keyed := hkeyed.of_frame_eq (h.frame_eq hchange habove)
  have hkey : s'.key = s.key := key_eq_of_frame_eq (hreplaced.frame_eq hchange habove)
  exact ⟨s', log', hkeyed'.find?_eq_some_iff.mpr ⟨hs', hkey.trans hscope⟩, hreplaced⟩

end Replaced

@[simp] theorem bare_kept (info : TestNode) (children : List TestTree) :
    (kept info children).bare = info.bare := rfl

@[simp] theorem bare_settled (info : TestNode) (children : List TestTree) :
    (settled info children).bare = info.bare :=
  TestNode.bare_settle info _

@[simp] theorem mapRoot_node (f : TestNode → TestNode) (info : TestNode)
    (children : List TestTree) : mapRoot f (.node info children) = .node (f info) children := rfl

theorem mapRoot_frame {f : TestNode → TestNode} (hf : ∀ n, (f n).bare = n.bare) (t : TestTree) :
    (mapRoot f t).frame = t.frame := by
  cases t
  simp [hf]

/-! ### The operations of a run keep the frame -/

theorem touchAt_frame {change : TestNode → Option TestNode}
    (hbare : ∀ n n', change n = some n' → n'.bare = n.bare) (t : TestTree) (key : NodeKey) :
    (t.touchAt key change).1.frame = t.frame := by
  by_cases hkey : t.contains key
  · obtain ⟨s, log, -, -, hreplaced⟩ := replaced_touchAt hkey change
    exact hreplaced.frame_eq (touch_frame hbare) bare_kept
  · rw [touchAt_of_not_contains hkey]

theorem prepareToRun_frame (t : TestTree) (key : NodeKey) (run : RunId) :
    (t.prepareToRun key run).1.frame = t.frame :=
  touchAt_frame (fun _ _ => TestNode.bare_of_prepare) t key

theorem markRunning_frame (t : TestTree) (key : NodeKey) (run : RunId) :
    (t.markRunning key run).1.frame = t.frame :=
  touchAt_frame (fun _ _ => TestNode.bare_of_start?) t key

theorem revertPending_frame (t : TestTree) (key : NodeKey) (run : RunId) :
    (t.revertPending key run).1.frame = t.frame :=
  touchAt_frame (fun _ _ => TestNode.bare_of_revert?) t key

theorem modify_of_not_contains {t : TestTree} {key : NodeKey} (hkey : ¬ t.contains key)
    (f : TestNode → TestNode) : t.modify key f = t := by
  unfold modify
  split
  next h => exact absurd ((update?_isSome_iff _).mp (Option.isSome_of_eq_some h)) hkey
  next => rfl

theorem modify_frame {f : TestNode → TestNode} (hf : ∀ n, (f n).bare = n.bare) (t : TestTree)
    (key : NodeKey) : (t.modify key f).frame = t.frame := by
  by_cases hkey : t.contains key
  · obtain ⟨log, hreplaced⟩ := replaced_modify hkey f
    exact hreplaced.frame_eq (mapRoot_frame hf) bare_kept
  · rw [modify_of_not_contains hkey]

/-- A toggled node is in the tree, and it alone changes. -/
theorem eq_of_toggle {t t' : TestTree} {key : NodeKey} {expanded : Bool}
    (h : t.toggle key = (t', some expanded)) :
    t.contains key ∧ t' = t.modify key fun n => { n with expanded := !n.expanded } := by
  unfold toggle at h
  split at h
  next => cases h
  next n hn =>
      split at h
      next => cases h
      next =>
          obtain ⟨s, hs, -⟩ := Option.map_eq_some_iff.mp hn
          refine ⟨?_, (congrArg Prod.fst h).symm⟩
          rw [contains, hs]
          rfl

theorem toggle_frame (t : TestTree) (key : NodeKey) : (t.toggle key).1.frame = t.frame := by
  unfold toggle
  split
  next => rfl
  next =>
      split
      next => rfl
      next =>
          refine modify_frame (fun _ => ?_) t key
          rfl

theorem applyResult_of_not_contains {t : TestTree} {key : NodeKey} (hkey : ¬ t.contains key)
    (r : RunResult) : t.applyResult key r = (t, []) := by
  unfold applyResult
  split
  next h => exact absurd ((bubble?_isSome_iff _).mp (Option.isSome_of_eq_some h)) hkey
  next => rfl

theorem applyResult_frame (t : TestTree) (key : NodeKey) (r : RunResult) :
    (t.applyResult key r).1.frame = t.frame := by
  by_cases hkey : t.contains key
  · obtain ⟨log, -, hreplaced⟩ := replaced_applyResult hkey r
    exact hreplaced.frame_eq (mapRoot_frame fun _ => rfl) bare_settled
  · rw [applyResult_of_not_contains hkey]

theorem finishRun_of_not_contains {t : TestTree} {key : NodeKey} (hkey : ¬ t.contains key)
    (run : RunId) : t.finishRun key run = (t, []) := by
  have hnone : t.find? key = none := by
    simpa [contains] using hkey
  rw [finishRun, hnone]

theorem finishRun_frame (t : TestTree) (key : NodeKey) (run : RunId) :
    (t.finishRun key run).1.frame = t.frame := by
  by_cases hkey : t.contains key
  · obtain ⟨s, log, -, -, hreplaced⟩ := replaced_finishRun hkey run
    exact hreplaced.frame_eq (finish_frame run) bare_settled
  · rw [finishRun_of_not_contains hkey]

end SpecExplorer.TestTree
