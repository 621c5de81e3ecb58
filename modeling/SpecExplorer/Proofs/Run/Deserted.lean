/-
# What overlapping sessions leave under way

Each leaf under way belongs to a session that is not finished, and each node above is tended to
through such a leaf. There is one gap: a session that is given up settles nothing above its scope,
so what is under way there may be left with nothing below it that will end. Such a node is
deserted, and stays so until a session begins over it anew. This module shows that once all
sessions have ended, nothing but deserted nodes is under way, however the sessions overlapped.
-/
import SpecExplorer.Proofs.Run.Overlap
import SpecExplorer.Proofs.Run.Tended

namespace SpecExplorer

open TestTree RunSession

namespace TestTree

/-- A changed node is listed. -/
theorem key_mem_touch_snd {change : TestNode → Option TestNode} {t : TestTree} {n : TestNode}
    (hn : n ∈ t.nodes) (h : (change n).isSome) : n.key ∈ (t.touch change).2 := by
  induction t with
  | node info children ih =>
      rw [touch_snd, List.mem_append]
      rw [nodes_node, List.mem_cons, List.mem_flatMap] at hn
      rcases hn with rfl | ⟨c, hc, hn⟩
      · exact .inl (by simp [h])
      · exact .inr (List.mem_flatMap.mpr ⟨c, hc, ih c hc hn⟩)

end TestTree

/-- A session that is given up lists the nodes that it takes back. -/
theorem RunSession.mem_abort {s : RunSession} {t y : TestTree} (hkeyed : t.Keyed)
    (hroot : t.key = .root) (hy : y ∈ t.subtrees) (hcovers : s.scope.covers y.key)
    (hclaimed : y.info.isClaimedBy s.run) (hopen : y.info.isUnfinished) :
    y.key ∈ (s.abort t).2.2 := by
  have hscope := hkeyed.contains_above hroot hy hcovers
  obtain ⟨x, log, hx, hlisted, -⟩ := replaced_touchAt hscope (·.revert? s.run)
  obtain ⟨hmem, hkey⟩ := mem_subtrees_of_find? hx
  have hyx := hkeyed.mem_subtrees_of_covers hmem hy (hkey ▸ hcovers)
  have hrevert : (y.info.revert? s.run).isSome := by
    simp [TestNode.revert?, hclaimed, hopen]
  rw [abort, revertPending, hlisted]
  exact key_mem_touch_snd (info_mem_nodes hyx) hrevert

namespace Overlap

/-! ### Deserted keys -/

/-- Strictly below a key a session was given up that had something under way, and no session has
begun over the key since. -/
def Deserted (o : Overlap) (past : List Step) (key : NodeKey) : Prop :=
  ∃ before i s after, past = before ++ .act i .abort :: after ∧
    (o.steps before).sessions[i]? = some s ∧ (s.abort (o.steps before).tree).2.2 ≠ [] ∧
    key.covers s.scope ∧ key ≠ s.scope ∧ ∀ scope, .begin scope ∈ after → ¬ scope.covers key

namespace Deserted

variable {o : Overlap} {past : List Step} {key : NodeKey}

/-- What is above a deserted key is deserted. -/
theorem above (h : Deserted o past key) {other : NodeKey} (hcovers : other.covers key) :
    Deserted o past other := by
  obtain ⟨before, i, s, after, hpast, hsession, htook, hkey, hne, hafter⟩ := h
  refine ⟨before, i, s, after, hpast, hsession, htook, NodeKey.covers_trans hcovers hkey, ?_, ?_⟩
  · rintro rfl
    exact hne (NodeKey.covers_antisymm hkey hcovers)
  · exact fun scope hscope hother =>
      hafter scope hscope (NodeKey.covers_trans hother hcovers)

theorem append (h : Deserted o past key) {st : Step}
    (hbegin : ∀ scope, st = .begin scope → ¬ scope.covers key) :
    Deserted o (past ++ [st]) key := by
  obtain ⟨before, i, s, after, rfl, hsession, htook, hkey, hne, hafter⟩ := h
  refine ⟨before, i, s, after ++ [st], by simp, hsession, htook, hkey, hne, fun scope hscope => ?_⟩
  rcases List.mem_append.mp hscope with hscope | hscope
  · exact hafter scope hscope
  · exact hbegin scope (List.mem_singleton.mp hscope).symm

theorem of_abort {i : Nat} {s : RunSession} (hsession : (o.steps past).sessions[i]? = some s)
    (htook : (s.abort (o.steps past).tree).2.2 ≠ []) (hkey : key.covers s.scope)
    (hne : key ≠ s.scope) : Deserted o (past ++ [.act i .abort]) key :=
  ⟨past, i, s, [], rfl, hsession, htook, hkey, hne, nofun⟩

end Deserted

/-! ### What holds while sessions overlap -/

/-- Within the scope of a session, what is above a node of the session belongs to it too. -/
def Nested (o : Overlap) : Prop :=
  ∀ s ∈ o.sessions, ∀ x ∈ o.tree.subtrees, s.scope.covers x.key →
    ∀ y ∈ x.subtrees, y.info.isClaimedBy s.run → x.info.isClaimedBy s.run

/-- A leaf that is under way belongs to a session that is not finished and lies in its scope. -/
def LeavesOwned (o : Overlap) : Prop :=
  ∀ x ∈ o.tree.subtrees, x.info.isUnfinished → x.info.isLeaf x.children →
    ∃ s ∈ o.sessions, s.finished = false ∧ x.info.isClaimedBy s.run ∧ s.scope.covers x.key

variable {o o' : Overlap} {st : Step}

theorem Nested.of_stepped (h : o.Nested) (hordered : o.Ordered) (hstep : Stepped o st o') :
    o'.Nested := by
  cases hstep with
  | absent hnone => exact h
  | @acted i m s f hsession hact =>
      intro q hq
      obtain ⟨p, hp, hrun, hscope⟩ := exists_of_mem_set hsession hq
      refine forall_subtrees_rebuild.mpr fun x hx hcovers y hy hclaimed => ?_
      rw [subtrees_rebuild, List.mem_map] at hy
      obtain ⟨z, hz, rfl⟩ := hy
      rw [key_rebuild hact.calm.bare, ← hscope] at hcovers
      rw [hact.calm.isClaimedBy, ← hrun] at hclaimed ⊢
      exact h p hp x hx hcovers z hz hclaimed
  | begun scope =>
      intro q hq
      refine forall_subtrees_rebuild.mpr fun x hx hcovers y hy hclaimed => ?_
      rw [subtrees_rebuild, List.mem_map] at hy
      obtain ⟨z, hz, rfl⟩ := hy
      rw [key_rebuild (bare_preparing scope o.nextRun)] at hcovers
      rw [isClaimedBy_preparing] at hclaimed ⊢
      rcases List.mem_append.mp hq with hq | hq
      · -- An older session keeps what the new one has not taken over.
        have hz' : ¬ scope.covers z.key := by
          intro hzcovers
          rw [if_pos hzcovers] at hclaimed
          exact Nat.lt_irrefl _ (hclaimed ▸ hordered.numbered q hq)
        have hx' : ¬ scope.covers x.key := fun hxcovers => hz' (NodeKey.covers_trans hxcovers
          ((hordered.keyed.of_mem_subtrees hx).covers_of_mem_subtrees hz))
        rw [if_neg hz'] at hclaimed
        rw [if_neg hx']
        exact h q hq x hx hcovers z hz hclaimed
      · obtain rfl := List.mem_singleton.mp hq
        rw [if_pos (show scope.covers x.key from hcovers)]
        rfl

theorem LeavesOwned.of_stepped (h : o.LeavesOwned) (hordered : o.Ordered)
    (hstep : Stepped o st o') : o'.LeavesOwned := by
  cases hstep with
  | absent hnone => exact h
  | begun scope =>
      refine forall_subtrees_rebuild.mpr fun x hx hopen hleaf => ?_
      rw [isLeaf_rebuild (bare_preparing scope o.nextRun)] at hleaf
      simp only [key_rebuild (bare_preparing scope o.nextRun), isClaimedBy_preparing]
      by_cases hcovers : scope.covers x.key
      · refine ⟨_, List.mem_append_right _ (List.mem_singleton_self _), rfl, ?_, hcovers⟩
        rw [if_pos hcovers]
        rfl
      · have hxopen := (isUnfinished_preparing.mp hopen).resolve_left hcovers
        obtain ⟨s, hs, hrunning, hclaimed, hscope⟩ := h x hx hxopen hleaf
        exact ⟨s, List.mem_append_left _ hs, hrunning, by rwa [if_neg hcovers], hscope⟩
  | @acted i m s f hsession hact =>
      refine forall_subtrees_rebuild.mpr fun x hx hopen hleaf => ?_
      rw [isLeaf_rebuild hact.calm.bare] at hleaf
      have hxopen : x.info.isUnfinished := by
        rw [info_rebuild] at hopen
        exact hact.calm.unfinished _ _ hopen
      obtain ⟨p, hp, hrunning, hclaimed, hcovers⟩ := h x hx hxopen hleaf
      simp only [key_rebuild hact.calm.bare, hact.calm.isClaimedBy]
      obtain ⟨j, hj⟩ := List.mem_iff_getElem?.mp hp
      by_cases hij : i = j
      · -- The session of the leaf is the one that moved, so it has not ended.
        subst hij
        obtain rfl : s = p := Option.some.inj (hsession.symm.trans hj)
        have hends : m.ends = false := by
          by_contra hends
          exact hact.not_isUnfinished_leaf hordered.keyed hordered.root (by simpa using hends)
            hrunning hx hcovers hclaimed hleaf hopen
        have hi := (List.getElem?_eq_some_iff.mp hsession).1
        refine ⟨(s.move o.tree m).1, List.mem_iff_getElem?.mpr ⟨i, ?_⟩, ?_, ?_, ?_⟩
        · exact List.getElem?_set_self hi
        · rw [move_finished, hrunning, hends]
          rfl
        · rw [move_run]
          exact hclaimed
        · rwa [move_scope]
      · refine ⟨p, List.mem_iff_getElem?.mpr ⟨j, ?_⟩, hrunning, hclaimed, hcovers⟩
        rw [List.getElem?_set_ne hij]
        exact hj

/-- What holds after some steps: the sessions own the leaves under way, and every node under way
is tended to or deserted. -/
structure Tends (o : Overlap) (past : List Step) : Prop where
  ordered : (o.steps past).Ordered
  nested : (o.steps past).Nested
  leaves : (o.steps past).LeavesOwned
  tended : (o.steps past).tree.Tended (Deserted o past)

namespace Tends

theorem fresh {t : TestTree} (hkeyed : t.Keyed) (hroot : t.key = .root) (hquiet : t.Quiet)
    (first : RunId) : Tends (Overlap.fresh t first) [] where
  ordered := .fresh hkeyed hroot first
  nested := nofun
  leaves x hx hopen := absurd hopen (quiet_iff.mp hquiet x hx)
  tended := hquiet.tended

/-- A step tends to what it leaves under way, or deserts it. -/
theorem tended_step {past : List Step} (h : Tends o past) (st : Step) :
    ((o.steps past).step st).tree.Tended (Deserted o (past ++ [st])) := by
  have hkeyed := h.ordered.keyed
  have hroot := h.ordered.root
  have hact : ∀ i m key, Deserted o past key → Deserted o (past ++ [.act i m]) key :=
    fun i m key hkey => hkey.append nofun
  have hstep := stepped h.ordered st
  generalize hnow : (o.steps past).step st = o' at hstep ⊢
  cases hstep with
  | begun scope =>
      refine tended_preparing hkeyed (fun key hkey hcovers => hkey.append ?_) h.tended
      rintro _ ⟨⟩
      exact hcovers
  | @absent i m hnone => exact h.tended.mono (hact i m)
  | @acted i m s f hsession hmove =>
      by_cases habort : m = .abort
      · subst habort
        cases hmove with
        | stay habort _ => exact absurd rfl habort
        | closed hcloses _ _ => cases hcloses
        | withdrawn =>
            refine tended_reverting (h.nested s (List.mem_of_getElem? hsession)) (hact i .abort)
              (fun x hx y hy hxscope hyscope hclaimed hopen => ?_) h.tended
            have hyt := mem_subtrees_trans hy hx
            have htook : (s.abort (o.steps past).tree).2.2 ≠ [] :=
              List.ne_nil_of_mem (mem_abort hkeyed hroot hyt hyscope hclaimed hopen)
            have hxy := (hkeyed.of_mem_subtrees hx).covers_of_mem_subtrees hy
            refine .of_abort hsession htook
              ((NodeKey.covers_or_covers hyscope hxy).resolve_left hxscope) ?_
            intro hkey
            exact hxscope (hkey ▸ NodeKey.covers_refl _)
      · exact (hmove.tended hkeyed habort h.tended).mono (hact i m)

theorem step {past : List Step} (h : Tends o past) (st : Step) : Tends o (past ++ [st]) := by
  have hsteps : o.steps (past ++ [st]) = (o.steps past).step st := steps_append o past [st]
  have hstep := stepped h.ordered st
  refine ⟨?_, ?_, ?_, ?_⟩ <;> rw [hsteps]
  · exact h.ordered.of_stepped hstep
  · exact h.nested.of_stepped h.ordered hstep
  · exact h.leaves.of_stepped h.ordered hstep
  · exact h.tended_step st

theorem steps {past : List Step} (h : Tends o past) (rest : List Step) :
    Tends o (past ++ rest) := by
  induction rest generalizing past with
  | nil => rwa [List.append_nil]
  | cons st rest ih => simpa using ih (h.step st)

end Tends

/-- However sessions overlap on a quiet tree, and however each of them ends, what is still pending
or running once all have ended is deserted: a session was given up strictly below it while it had
something under way, and none has begun over it since. -/
theorem unfinished_only_where_deserted {t : TestTree} (hkeyed : t.Keyed) (hroot : t.key = .root)
    (hquiet : t.Quiet) (first : RunId) (all : List Step)
    (hended : ∀ s ∈ ((fresh t first).steps all).sessions, s.finished) :
    ∀ n ∈ ((fresh t first).steps all).tree.nodes, n.isUnfinished →
      Deserted (fresh t first) all n.key := by
  have htends := (Tends.fresh hkeyed hroot hquiet first).steps all
  rw [List.nil_append] at htends
  intro n hn hopen
  obtain ⟨x, hx, rfl⟩ := mem_nodes.mp hn
  obtain ⟨y, hy, hyopen, hleaf | hdeserted⟩ := htends.tended x hx hopen
  · obtain ⟨s, hs, hrunning, -⟩ := htends.leaves y (mem_subtrees_trans hy hx) hyopen hleaf
    have hfinished := hended s hs
    rw [hrunning] at hfinished
    cases hfinished
  · exact hdeserted.above
      ((htends.ordered.keyed.of_mem_subtrees hx).covers_of_mem_subtrees hy)

/-- A run of a spec takes it over from a run of the whole file, and is given up when that run has
exited. -/
def lateAbort : List Step :=
  [.begin .root, .begin (.ofNames ["cart", "adds"]), .act 0 (.event .started),
    .act 0 (.event (.exited true (some 0))), .act 1 .abort]

/-- All sessions have ended, and the container of the spec is still running. -/
theorem cart_left_running_by_abort :
    (TestTree.merge none (.cartOf ["adds", "removes"]) "cart_test.go").1.Quiet ∧
      (∀ s ∈ ((fresh (TestTree.merge none (.cartOf ["adds", "removes"]) "cart_test.go").1 1).steps
        lateAbort).sessions, s.finished) ∧
      ¬ ((fresh (TestTree.merge none (.cartOf ["adds", "removes"]) "cart_test.go").1 1).steps
        lateAbort).tree.Quiet := by
  decide +kernel

theorem unfinished_only_where_deserted_cart :
    (∀ s ∈ ((fresh (TestTree.merge none (.cartOf ["adds", "removes"]) "cart_test.go").1 1).steps
        lateAbort).sessions, s.finished) ∧
      (∃ n ∈ ((fresh (TestTree.merge none (.cartOf ["adds", "removes"]) "cart_test.go").1 1).steps
        lateAbort).tree.nodes, n.key = .ofNames ["cart"] ∧ n.isUnfinished) ∧
      Deserted (fresh (TestTree.merge none (.cartOf ["adds", "removes"]) "cart_test.go").1 1)
        lateAbort (.ofNames ["cart"]) := by
  have hended : ∀ s ∈ ((fresh (TestTree.merge none (.cartOf ["adds", "removes"])
      "cart_test.go").1 1).steps lateAbort).sessions, s.finished := by
    decide +kernel
  have hopen : ∃ n ∈ ((fresh (TestTree.merge none (.cartOf ["adds", "removes"])
      "cart_test.go").1 1).steps lateAbort).tree.nodes,
        n.key = .ofNames ["cart"] ∧ n.isUnfinished := by
    decide +kernel
  obtain ⟨n, hn, hkey, hunfinished⟩ := hopen
  refine ⟨hended, ⟨n, hn, hkey, hunfinished⟩, ?_⟩
  rw [← hkey]
  exact unfinished_only_where_deserted (ofOutline_keyed none _ _) (ofOutline_key none _ _)
    (by decide +kernel) 1 lateAbort hended n hn hunfinished

end Overlap

end SpecExplorer
