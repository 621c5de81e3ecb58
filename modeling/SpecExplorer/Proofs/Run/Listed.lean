/-
# What a run changes, node by node

An operation of a run keeps the shape of a tree and changes nodes where they stand. It lists the
nodes it changed, and this module shows that the list is complete: a node that is not listed has
the result that it had. What comes from the outline, and whether a node is expanded, stays in any
case.
-/
import SpecExplorer.Proofs.Run.Combined
import SpecExplorer.Proofs.Run.Scope

namespace SpecExplorer.TestTree

/-- Two trees have one shape, and their nodes are related place by place. -/
inductive Pointwise (R : TestNode → TestNode → Prop) : TestTree → TestTree → Prop
  | node {n n' : TestNode} {cs cs' : List TestTree} (hnode : R n n')
      (hlength : cs'.length = cs.length) (hchildren : ∀ p ∈ cs.zip cs', Pointwise R p.1 p.2) :
      Pointwise R (.node n cs) (.node n' cs')

section Lists

theorem eq_of_mem_zip_self {α : Type} {l : List α} {p : α × α} (h : p ∈ l.zip l) : p.2 = p.1 := by
  induction l with
  | nil => cases h
  | cons a rest ih =>
      rcases List.mem_cons.mp h with rfl | h
      · rfl
      · exact ih h

theorem of_mem_zip_map {α β : Type} {l : List α} {f : α → β} {p : α × β}
    (h : p ∈ l.zip (l.map f)) : p.1 ∈ l ∧ p.2 = f p.1 := by
  induction l with
  | nil => cases h
  | cons a rest ih =>
      rcases List.mem_cons.mp h with rfl | h
      · exact ⟨List.mem_cons_self, rfl⟩
      · exact ⟨List.mem_cons_of_mem _ (ih h).1, (ih h).2⟩

theorem map_eq_map_of_zip {α β γ : Type} {l : List α} {l' : List β} {f : α → γ} {g : β → γ}
    (hlength : l'.length = l.length) (h : ∀ p ∈ l.zip l', g p.2 = f p.1) :
    l'.map g = l.map f := by
  induction l generalizing l' with
  | nil => rw [List.length_eq_zero_iff.mp hlength, List.map_nil, List.map_nil]
  | cons a rest ih =>
      cases l' with
      | nil => cases hlength
      | cons b rest' =>
          rw [List.map_cons, List.map_cons, h (a, b) List.mem_cons_self,
            ih (Nat.succ.inj hlength) fun p hp => h p (List.mem_cons_of_mem _ hp)]

theorem exists_between_of_mem_zip {α β γ : Type} {l : List α} {l' : List β} {l'' : List γ}
    (hlength : l'.length = l.length) {p : α × γ} (hp : p ∈ l.zip l'') :
    ∃ b, (p.1, b) ∈ l.zip l' ∧ (b, p.2) ∈ l'.zip l'' := by
  induction l generalizing l' l'' with
  | nil => cases hp
  | cons a rest ih =>
      cases l' with
      | nil => cases hlength
      | cons b rest' =>
          cases l'' with
          | nil => cases hp
          | cons c rest'' =>
              rcases List.mem_cons.mp hp with rfl | hp
              · exact ⟨b, List.mem_cons_self, List.mem_cons_self⟩
              · obtain ⟨d, hd, hd'⟩ := ih (Nat.succ.inj hlength) hp
                exact ⟨d, List.mem_cons_of_mem _ hd, List.mem_cons_of_mem _ hd'⟩

end Lists

namespace Pointwise

variable {R S Q : TestNode → TestNode → Prop} {t t' t'' : TestTree}

theorem mono (hRS : ∀ n n', R n n' → S n n') (h : Pointwise R t t') : Pointwise S t t' := by
  induction h with
  | node hnode hlength hchildren ih => exact .node (hRS _ _ hnode) hlength ih

theorem refl (hR : ∀ n, R n n) (t : TestTree) : Pointwise R t t := by
  induction t with
  | node info children ih =>
      refine .node (hR info) rfl ?_
      intro p hp
      rw [eq_of_mem_zip_self hp]
      exact ih p.1 (List.of_mem_zip hp).1

theorem trans (hRS : ∀ n n' n'', R n n' → S n' n'' → Q n n'') (h : Pointwise R t t')
    (h' : Pointwise S t' t'') : Pointwise Q t t'' := by
  induction h generalizing t'' with
  | @node n n' cs cs' hnode hlength hchildren ih =>
      cases h' with
      | @node _ n'' _ cs'' hnode' hlength' hchildren' =>
          refine .node (hRS _ _ _ hnode hnode') (hlength'.trans hlength) ?_
          intro p hp
          obtain ⟨b, hb, hb'⟩ := exists_between_of_mem_zip hlength hp
          exact ih _ hb (hchildren' _ hb')

end Pointwise

/-! ### Changes that are listed -/

/-- A node keeps what comes from the outline, whether it is expanded, and, unless it is listed, its
result. -/
structure Touched (changed : List NodeKey) (n n' : TestNode) : Prop where
  bare : n'.bare = n.bare
  expanded : n'.expanded = n.expanded
  result : n.key ∉ changed → n'.result = n.result

theorem Touched.refl (changed : List NodeKey) (n : TestNode) : Touched changed n n :=
  ⟨rfl, rfl, fun _ => rfl⟩

theorem Touched.trans {before after changed : List NodeKey} {n n' n'' : TestNode}
    (hbefore : before ⊆ changed) (hafter : after ⊆ changed) (h : Touched before n n')
    (h' : Touched after n' n'') : Touched changed n n'' where
  bare := h'.bare.trans h.bare
  expanded := h'.expanded.trans h.expanded
  result hkey := by
    rw [h'.result, h.result fun hmem => hkey (hbefore hmem)]
    rw [TestNode.key_eq_of_bare_eq h.bare]
    exact fun hmem => hkey (hafter hmem)

/-- All changes between two trees are listed. -/
def ListsChanges (changed : List NodeKey) (t t' : TestTree) : Prop :=
  Pointwise (Touched changed) t t'

namespace ListsChanges

variable {before after changed : List NodeKey} {t t' t'' : TestTree}

theorem refl (changed : List NodeKey) (t : TestTree) : ListsChanges changed t t :=
  Pointwise.refl (Touched.refl changed) t

theorem trans (hbefore : before ⊆ changed) (hafter : after ⊆ changed)
    (h : ListsChanges before t t') (h' : ListsChanges after t' t'') :
    ListsChanges changed t t'' :=
  Pointwise.trans (fun _ _ _ hn hn' => hn.trans hbefore hafter hn') h h'

theorem mono (hsubset : before ⊆ changed) (h : ListsChanges before t t') :
    ListsChanges changed t t' :=
  Pointwise.mono (fun _ _ hn => ⟨hn.bare, hn.expanded, fun hkey =>
    hn.result fun hmem => hkey (hsubset hmem)⟩) h

end ListsChanges

/-- A node whose result changed is listed by its key. -/
theorem touched_changedKey {n n' : TestNode} (hbare : n'.bare = n.bare)
    (hexpanded : n'.expanded = n.expanded) {changed : List NodeKey}
    (hlist : n.changedKey n' ⊆ changed) : Touched changed n n' where
  bare := hbare
  expanded := hexpanded
  result hkey := by
    by_contra hne
    refine hkey (hlist ?_)
    rw [TestNode.changedKey, if_neg fun heq => hne heq.symm]
    exact List.mem_singleton_self _

/-! ### The changes of a subtree -/

theorem listsChanges_touch {change : TestNode → Option TestNode}
    (hbare : ∀ n n', change n = some n' → n'.bare = n.bare)
    (hexpanded : ∀ n n', change n = some n' → n'.expanded = n.expanded) (t : TestTree) :
    ListsChanges (t.touch change).2 t (t.touch change).1 := by
  induction t with
  | node info children ih =>
      rw [touch_fst, touch_snd]
      refine .node ?_ (List.length_map _) fun p hp => ?_
      · cases hchange : change info with
        | none => exact Touched.refl _ info
        | some n =>
            refine ⟨hbare info n hchange, hexpanded info n hchange, fun hkey => ?_⟩
            simp at hkey
      · obtain ⟨hmem, heq⟩ := of_mem_zip_map hp
        rw [heq]
        exact (ih p.1 hmem).mono fun key hkey =>
          List.mem_append_right _ (List.mem_flatMap.mpr ⟨p.1, hmem, hkey⟩)

theorem expanded_finishNode (run : RunId) (info : TestNode) (children : List TestTree) :
    (finishNode run info children).expanded = info.expanded := by
  rw [finishNode, TestNode.expanded_settle, TestNode.expanded_close]

theorem listsChanges_finish (run : RunId) (t : TestTree) :
    ListsChanges (t.finish run).2 t (t.finish run).1 := by
  induction t with
  | node info children ih =>
      rw [finish_fst, finish_snd]
      refine .node ?_ (List.length_map _) fun p hp => ?_
      · refine touched_changedKey ?_ (expanded_finishNode run info children)
          (List.subset_append_left _ _)
        rw [finishNode, TestNode.bare_settle, TestNode.bare_close]
      · obtain ⟨hmem, heq⟩ := of_mem_zip_map hp
        rw [heq]
        exact (ih p.1 hmem).mono fun key hkey =>
          List.mem_append_right _ (List.mem_flatMap.mpr ⟨p.1, hmem, hkey⟩)

/-- A change of the root is listed by its key. -/
theorem listsChanges_mapRoot (f : TestNode → TestNode) (hbare : ∀ n, (f n).bare = n.bare)
    (hexpanded : ∀ n, (f n).expanded = n.expanded) (t : TestTree) :
    ListsChanges [t.key] t (mapRoot f t) := by
  cases t with
  | node info children =>
      refine .node ⟨hbare info, hexpanded info, fun hkey => ?_⟩ rfl fun p hp => ?_
      · exact absurd (List.mem_singleton_self _) hkey
      · rw [eq_of_mem_zip_self hp]
        exact ListsChanges.refl _ p.1

/-! ### The changes of a tree -/

/-- What is listed for the changed subtree, and the nodes above whose result changed, make a
complete list for the tree. -/
theorem Replaced.listsChanges {key : NodeKey} {change : TestTree → TestTree}
    {above : TestNode → List TestTree → TestNode} {t t' : TestTree} {log : List NodeKey}
    (h : Replaced key change above t t' log) (own : List NodeKey)
    (hchange : ∀ s ∈ t.subtrees, s.key = key → ListsChanges own s (change s))
    (hbare : ∀ info children, (above info children).bare = info.bare)
    (hexpanded : ∀ info children, (above info children).expanded = info.expanded) :
    ListsChanges (own ++ log) t t' := by
  induction h with
  | here hkey =>
      rw [List.append_nil]
      exact hchange _ (self_mem_subtrees _) hkey
  | @deeper info before after c c' log hkey hbefore hchild ih =>
      have hc : ListsChanges (own ++ log) c c' := ih fun s hs hskey =>
        hchange s (mem_subtrees_node.mpr (.inr ⟨c, by simp, hs⟩)) hskey
      have hsubset : own ++ log ⊆
          own ++ (log ++ info.changedKey (above info (before ++ c' :: after))) := by
        rw [← List.append_assoc]
        exact List.subset_append_left _ _
      refine .node (touched_changedKey (hbare _ _) (hexpanded _ _) ?_) (by simp) fun p hp => ?_
      · rw [← List.append_assoc]
        exact List.subset_append_right _ _
      · rw [List.zip_append rfl, List.zip_cons_cons, List.mem_append, List.mem_cons] at hp
        rcases hp with hp | rfl | hp
        · rw [eq_of_mem_zip_self hp]
          exact ListsChanges.refl _ p.1
        · exact hc.mono hsubset
        · rw [eq_of_mem_zip_self hp]
          exact ListsChanges.refl _ p.1


/-- Nodes above a change that stay as they are have no changes to list. -/
theorem Replaced.log_eq_nil {key : NodeKey} {change : TestTree → TestTree} {t t' : TestTree}
    {log : List NodeKey} (h : Replaced key change kept t t' log) : log = [] := by
  induction h with
  | here hkey => rfl
  | deeper hkey hbefore hchild ih => simp [ih, kept, TestNode.changedKey]

theorem listsChanges_modify (t : TestTree) (key : NodeKey) {f : TestNode → TestNode}
    (hbare : ∀ n, (f n).bare = n.bare) (hexpanded : ∀ n, (f n).expanded = n.expanded) :
    ListsChanges [key] t (t.modify key f) := by
  by_cases hkey : t.contains key
  · obtain ⟨log, hreplaced⟩ := replaced_modify hkey f
    obtain rfl := hreplaced.log_eq_nil
    refine hreplaced.listsChanges [key] (fun r _ hrkey => ?_) bare_kept fun _ _ => rfl
    rw [← hrkey]
    exact listsChanges_mapRoot f hbare hexpanded r
  · rw [modify_of_not_contains hkey]
    exact ListsChanges.refl _ t

theorem listsChanges_applyResult (t : TestTree) (key : NodeKey) (r : RunResult) :
    ListsChanges (t.applyResult key r).2 t (t.applyResult key r).1 := by
  by_cases hkey : t.contains key
  · obtain ⟨log, hlisted, hreplaced⟩ := replaced_applyResult hkey r
    rw [hlisted]
    refine hreplaced.listsChanges [key] (fun s _ hskey => ?_) bare_settled
      fun info _ => TestNode.expanded_settle info _
    rw [← hskey]
    exact listsChanges_mapRoot (fun n => { n with result := some r }) (fun _ => rfl)
      (fun _ => rfl) s
  · rw [applyResult_of_not_contains hkey]
    exact ListsChanges.refl _ t

section Operations

variable {t : TestTree} (hkeyed : t.Keyed)

include hkeyed

theorem listsChanges_touchAt (key : NodeKey) {change : TestNode → Option TestNode}
    (hbare : ∀ n n', change n = some n' → n'.bare = n.bare)
    (hexpanded : ∀ n n', change n = some n' → n'.expanded = n.expanded) :
    ListsChanges (t.touchAt key change).2 t (t.touchAt key change).1 := by
  by_cases hkey : t.contains key
  · obtain ⟨s, log, hs, hlisted, hreplaced⟩ := replaced_touchAt hkey change
    obtain rfl := hreplaced.log_eq_nil
    rw [hlisted, ← List.append_nil (s.touch change).2]
    refine hreplaced.listsChanges (s.touch change).2 (fun r hr hrkey => ?_) bare_kept fun _ _ => rfl
    obtain ⟨hmem, hskey⟩ := mem_subtrees_of_find? hs
    obtain rfl := hkeyed.eq_of_key_eq hr hmem (hrkey.trans hskey.symm)
    exact listsChanges_touch hbare hexpanded r
  · rw [touchAt_of_not_contains hkey]
    exact ListsChanges.refl _ t

theorem listsChanges_finishRun (key : NodeKey) (run : RunId) :
    ListsChanges (t.finishRun key run).2 t (t.finishRun key run).1 := by
  by_cases hkey : t.contains key
  · obtain ⟨s, log, hs, hlisted, hreplaced⟩ := replaced_finishRun hkey run
    have hall : ListsChanges ((s.finish run).2 ++ log) t (t.finishRun key run).1 := by
      refine hreplaced.listsChanges (s.finish run).2 (fun r hr hrkey => ?_) bare_settled
        fun info _ => TestNode.expanded_settle info _
      obtain ⟨hmem, hskey⟩ := mem_subtrees_of_find? hs
      obtain rfl := hkeyed.eq_of_key_eq hr hmem (hrkey.trans hskey.symm)
      exact listsChanges_finish run r
    rw [hlisted]
    refine hall.mono ?_
    intro k hk
    rw [List.mem_append, List.mem_reverse]
    exact (List.mem_append.mp hk).symm
  · rw [finishRun_of_not_contains hkey]
    exact ListsChanges.refl _ t

end Operations

end SpecExplorer.TestTree

namespace SpecExplorer.RunSession

open TestTree

/-! ### The changes of a session -/

variable {t : TestTree}

theorem listsChanges_start (hkeyed : t.Keyed) (scope : NodeKey) (run : RunId) :
    ListsChanges (start t scope run).2.2 t (start t scope run).2.1 := by
  refine listsChanges_touchAt hkeyed scope (fun _ _ => TestNode.bare_of_prepare) ?_
  intro n n' h
  cases h
  rfl

theorem listsChanges_applySpec (s : RunSession) (t : TestTree) (r : SpecRecord)
    (status : RunStatus) :
    ListsChanges (s.applySpec t r status).2.2 t (s.applySpec t r status).2.1 := by
  simp only [applySpec]
  repeat' split
  all_goals first
    | exact ListsChanges.refl _ t
    | exact listsChanges_applyResult t _ _

/-- Showing the log adds the scope to the list. -/
theorem listsChanges_showLog (s : RunSession) {t' : TestTree}
    {changed : List NodeKey} (h : ListsChanges changed t t') :
    ListsChanges (s.showLog t' changed).2 t (s.showLog t' changed).1 := by
  unfold showLog
  split
  next log n hlog hn =>
      split
      next =>
          refine h.trans ?_ ?_ (listsChanges_modify t' s.scope (fun _ => rfl) fun _ => rfl)
          · split
            · exact List.Subset.refl _
            · exact List.subset_append_left _ _
          · intro key hkey
            obtain rfl := List.mem_singleton.mp hkey
            split
            next hlisted => exact List.contains_iff_mem.mp hlisted
            next => simp
      next => exact h
  next => exact h

theorem listsChanges_finish (s : RunSession) (hkeyed : t.Keyed) :
    ListsChanges (s.finish t).2.2 t (s.finish t).2.1 := by
  unfold finish
  split
  · exact ListsChanges.refl _ t
  · exact s.listsChanges_showLog (listsChanges_finishRun hkeyed s.scope s.run)

theorem listsChanges_abort (s : RunSession) (hkeyed : t.Keyed) :
    ListsChanges (s.abort t).2.2 t (s.abort t).2.1 := by
  refine listsChanges_touchAt hkeyed s.scope (fun _ _ => TestNode.bare_of_revert?)
    fun n n' h => ?_
  unfold TestNode.revert? at h
  split at h
  · cases h
    rfl
  · cases h

/-- Whatever an event changes is listed. -/
theorem listsChanges_apply (s : RunSession) (hkeyed : t.Keyed) (e : RunEvent) :
    ListsChanges (s.apply t e).2.2 t (s.apply t e).2.1 := by
  unfold apply
  split
  · refine listsChanges_touchAt hkeyed s.scope (fun _ _ => TestNode.bare_of_start?)
      fun n n' h => ?_
    have hstart := TestNode.start?_getD_cases s.run n
    rw [h, Option.getD_some] at hstart
    rcases hstart with rfl | ⟨r, -, -, rfl⟩
    · rfl
    · rfl
  · split
    · exact s.listsChanges_applySpec t _ _
    · exact ListsChanges.refl _ t
  · exact ListsChanges.refl _ t
  · exact ListsChanges.refl _ t
  · exact ListsChanges.refl _ t
  · exact s.listsChanges_finish hkeyed

end SpecExplorer.RunSession
