/-
# Containers agree with their leaves

While one session runs alone over its scope, every container in the scope shows what its leaves
show: it is finished exactly when all of them are, and its status and time are those of the leaves
taken together. The invariant speaks of one level only, a node and its children; the law about
leaves follows from it by induction on the tree. Nothing is claimed about nodes above the scope,
which may have children that the run does not reach.
-/
import SpecExplorer.Proofs.Run.Combined
import SpecExplorer.Proofs.Run.Scope

namespace SpecExplorer

open TestTree

namespace TestTree

/-- A node shows the same as its leaves taken together. -/
structure AgreesWithLeaves (t : TestTree) : Prop where
  finished_iff : t.info.isFinished ↔ ∀ n ∈ t.leaves, n.isFinished
  status_eq : t.info.isFinished → t.info.status = some (verdict t.leaves)
  nanos_eq : t.info.isFinished → t.info.nanos? = sum? (t.leaves.filterMap (·.nanos?))

/-! ### One level -/

/-- A node of a run has a result, which is final exactly when the children have a combined one,
and then shows the status and the time of that. -/
structure Coherent (run : RunId) (t : TestTree) : Prop where
  claimed : t.info.isClaimedBy run
  hasResult : t.info.result.isSome
  finished_iff : t.children ≠ [] → (t.info.isFinished ↔ t.aggregate.isSome)
  agrees : ∀ a, t.aggregate = some a →
    t.info.status = some a.status ∧ t.info.nanos? = a.nanos

/-- Every node of a tree is coherent. -/
def AllCoherent (run : RunId) (t : TestTree) : Prop := ∀ s ∈ t.subtrees, s.Coherent run

/-- Every node of a tree is finished. -/
def AllFinished (t : TestTree) : Prop := ∀ n ∈ t.nodes, n.isFinished

variable {run : RunId}

theorem allCoherent_node {info : TestNode} {children : List TestTree} :
    (node info children).AllCoherent run ↔
      (node info children).Coherent run ∧ ∀ c ∈ children, c.AllCoherent run :=
  forall_subtrees_node

theorem allFinished_node {info : TestNode} {children : List TestTree} :
    (node info children).AllFinished ↔ info.isFinished ∧ ∀ c ∈ children, c.AllFinished := by
  simp only [AllFinished, nodes_node, List.forall_mem_cons, List.mem_flatMap]
  refine and_congr_right fun _ => ⟨fun h c hc n hn => h n ⟨c, hc, hn⟩, ?_⟩
  rintro h n ⟨c, hc, hn⟩
  exact h c hc n hn

theorem AllCoherent.root {t : TestTree} (h : t.AllCoherent run) : t.Coherent run :=
  h t (self_mem_subtrees t)

theorem AllFinished.root {t : TestTree} (h : t.AllFinished) : t.info.isFinished :=
  h t.info (info_mem_nodes (self_mem_subtrees t))

/-- A node without children is its own leaf. -/
theorem Coherent.agreesWithLeaves_of_leaf {info : TestNode}
    (h : (node info []).Coherent run) : (node info []).AgreesWithLeaves := by
  obtain ⟨r, hr⟩ := Option.isSome_iff_exists.mp h.hasResult
  rw [info_node] at hr
  refine ⟨by simp [leaves_node_nil], fun hfinished => ?_, fun _ => ?_⟩
  · rw [info_node] at hfinished ⊢
    rw [leaves_node_nil, TestNode.status_of_result hr]
    rw [TestNode.isFinished_of_result hr] at hfinished
    cases hstatus : r.status <;>
      simp_all [verdict, TestNode.status_of_result hr, RunStatus.isTerminal]
  · rw [info_node, leaves_node_nil]
    cases hnanos : info.nanos? <;> simp [hnanos, sum?]

/-- In a coherent tree every node agrees with its leaves. -/
theorem AllCoherent.agreesWithLeaves {t : TestTree} (h : t.AllCoherent run)
    (hleaf : t.SpecsAreLeaves) : t.AgreesWithLeaves := by
  induction t with
  | node info children ih =>
      obtain ⟨hroot, hchildren⟩ := allCoherent_node.mp h
      by_cases hne : children = []
      · subst hne
        exact hroot.agreesWithLeaves_of_leaf
      have hsub : ∀ c ∈ children, c.AgreesWithLeaves := fun c hc =>
        ih c hc (hchildren c hc) (hleaf.of_mem_children hc)
      have hresult : ∀ c ∈ children, c.info.result.isSome := fun c hc =>
        (hchildren c hc).root.hasResult
      have hfinished : info.isFinished ↔ ∀ c ∈ children, c.info.isFinished :=
        (hroot.finished_iff hne).trans (combined_isSome_iff hne hresult)
      have hcombined : info.isFinished → ∃ a, combined children = some a := fun h =>
        Option.isSome_iff_exists.mp ((hroot.finished_iff hne).mp h)
      have hleaves := leaves_node hne hleaf
      refine ⟨?_, fun h => ?_, fun h => ?_⟩
      · rw [info_node, hfinished, hleaves]
        simp only [List.mem_flatMap]
        constructor
        · rintro hall n ⟨c, hc, hn⟩
          exact (hsub c hc).finished_iff.mp (hall c hc) n hn
        · exact fun hall c hc => (hsub c hc).finished_iff.mpr fun n hn => hall n ⟨c, hc, hn⟩
      · obtain ⟨a, ha⟩ := hcombined h
        rw [(hroot.agrees a ha).1, RunResult.combine_eq_some ha, hleaves]
        exact congrArg some (overall_eq_verdict fun c hc =>
          (hsub c hc).status_eq (hfinished.mp h c hc))
      · obtain ⟨a, ha⟩ := hcombined h
        rw [(hroot.agrees a ha).2, RunResult.combine_eq_some ha, hleaves]
        exact sum?_eq_sum?_leaves fun c hc => (hsub c hc).nanos_eq (hfinished.mp h c hc)

/-! ### What a run does at one scope -/

/-- Preparing a run makes a tree coherent for it, whatever the tree showed before. -/
theorem allCoherent_prepare (run : RunId) (t : TestTree) :
    (t.touch fun n => some (n.prepare run)).1.AllCoherent run := by
  induction t with
  | node info children ih =>
      rw [touch_fst, allCoherent_node, Option.getD_some, List.forall_mem_map]
      refine ⟨?_, ih⟩
      have hpending : (info.prepare run).result = some (.ofStatus .pending) := rfl
      have hnone : combined (children.map fun c =>
          (c.touch fun n => some (n.prepare run)).1) = none := by
        cases children with
        | nil => rfl
        | cons c rest =>
            refine combined_eq_none_of_unfinished List.mem_cons_self
              (r := .ofStatus .pending) ?_ (by simp [RunResult.ofStatus, RunStatus.isTerminal])
            rw [info_touch]
            rfl
      refine ⟨by simp [TestNode.isClaimedBy, TestNode.prepare], by simp [hpending], fun _ => ?_,
        fun a ha => ?_⟩
      · rw [info_node, TestNode.isFinished_of_result hpending, aggregate, children_node, hnone]
        simp [RunResult.ofStatus, RunStatus.isTerminal]
      · rw [aggregate, children_node, hnone] at ha
        cases ha

/-- Starting a run does not change what siblings combine to. -/
theorem combined_start {children : List TestTree}
    (hresult : ∀ c ∈ children, c.info.result.isSome) :
    combined (children.map fun c => (c.touch (·.start? run)).1) = combined children := by
  by_cases hall : ∀ c ∈ children, c.info.isFinished
  · unfold combined
    rw [List.filterMap_map]
    refine congrArg _ (List.filterMap_congr fun c hc => ?_)
    rw [Function.comp_apply, info_touch, TestNode.start_eq_of_isFinished run (hall c hc)]
  · obtain ⟨c, hc, hopen⟩ : ∃ c ∈ children, ¬ c.info.isFinished := by
      simpa only [not_forall, exists_prop] using hall
    obtain ⟨r, hr⟩ := Option.isSome_iff_exists.mp (hresult c hc)
    have hbefore : combined children = none := combined_eq_none_of_unfinished hc hr
      (by rwa [TestNode.isFinished_of_result hr] at hopen)
    obtain ⟨q, hq⟩ : ∃ q, ((c.info.start? run).getD c.info).result = some q := by
      rcases TestNode.start?_getD_cases run c.info with heq | ⟨q, hq, -, heq⟩
      · exact ⟨r, by rw [heq, hr]⟩
      · exact ⟨_, by rw [heq]⟩
    rw [hbefore]
    refine combined_eq_none_of_unfinished (List.mem_map_of_mem hc) (r := q) ?_ ?_
    · rw [info_touch, hq]
    · rwa [← TestNode.isFinished_of_result hq, TestNode.isFinished_start]

theorem allCoherent_start {t : TestTree} (h : t.AllCoherent run) :
    (t.touch (·.start? run)).1.AllCoherent run := by
  induction t with
  | node info children ih =>
      obtain ⟨hroot, hchildren⟩ := allCoherent_node.mp h
      have hcombined : combined (children.map fun c => (c.touch (·.start? run)).1) =
          combined children := combined_start fun c hc => (hchildren c hc).root.hasResult
      rw [touch_fst, allCoherent_node, List.forall_mem_map]
      refine ⟨⟨?_, ?_, fun hne => ?_, fun a ha => ?_⟩, fun c hc => ih c hc (hchildren c hc)⟩
      · have hclaimed := hroot.claimed
        rcases TestNode.start?_getD_cases run info with heq | ⟨r, -, -, heq⟩ <;>
          · rw [info_node, heq]
            exact hclaimed
      · have hresult := hroot.hasResult
        rcases TestNode.start?_getD_cases run info with heq | ⟨r, -, -, heq⟩
        · rw [info_node, heq]
          exact hresult
        · rw [info_node, heq]
          rfl
      · have hiff := hroot.finished_iff (by simpa using hne)
        rw [info_node, TestNode.isFinished_start, aggregate, children_node, hcombined]
        exact hiff
      · rw [aggregate, children_node, hcombined] at ha
        have hne : children ≠ [] := by
          rintro rfl
          cases ha
        have hfinished : info.isFinished := (hroot.finished_iff hne).mpr (by
          rw [aggregate, children_node, ha]
          rfl)
        rw [info_node, TestNode.start_eq_of_isFinished run hfinished]
        exact hroot.agrees a ha

theorem allFinished_start {t : TestTree} (h : t.AllFinished) :
    (t.touch (·.start? run)).1.AllFinished := by
  induction t with
  | node info children ih =>
      obtain ⟨hroot, hchildren⟩ := allFinished_node.mp h
      rw [touch_fst, allFinished_node, TestNode.isFinished_start, List.forall_mem_map]
      exact ⟨hroot, fun c hc => ih c hc (hchildren c hc)⟩

/-- A node that is settled from its children is coherent, if it was not finished before they
were. -/
theorem coherent_settled {info : TestNode} {children : List TestTree}
    (hclaimed : info.isClaimedBy run) (hresult : info.result.isSome)
    (hlate : children ≠ [] → info.isFinished → (combined children).isSome) :
    (node (settled info children) children).Coherent run := by
  unfold settled
  cases hcombined : combined children with
  | none =>
      refine ⟨hclaimed, hresult, fun hne => ?_, fun a ha => ?_⟩
      · rw [info_node, TestNode.settle, aggregate, children_node, hcombined]
        constructor
        · intro hfinished
          rw [← hcombined]
          exact hlate hne hfinished
        · intro h
          cases h
      · rw [aggregate, children_node, hcombined] at ha
        cases ha
  | some a =>
      have hfinished := isTerminal_of_combined hcombined
      have ha : (info.settle (some a)).result = some a := rfl
      refine ⟨hclaimed, rfl, fun _ => ?_, fun b hb => ?_⟩
      · rw [info_node, TestNode.isFinished_of_result ha, aggregate, children_node, hcombined]
        exact iff_of_true hfinished rfl
      · rw [aggregate, children_node, hcombined] at hb
        obtain rfl := Option.some.inj hb
        exact ⟨TestNode.status_of_result ha, TestNode.nanos?_of_result ha⟩

theorem isFinished_settled {info : TestNode} {children : List TestTree}
    (h : info.isFinished) : (settled info children).isFinished := by
  unfold settled
  cases hcombined : combined children with
  | none => exact h
  | some a =>
      have ha : (info.settle (some a)).result = some a := rfl
      rw [TestNode.isFinished_of_result ha]
      exact isTerminal_of_combined hcombined

/-- Recording a final result at a leaf keeps a tree coherent, and what was finished stays
finished. -/
theorem allCoherent_recorded {key : NodeKey} {r : RunResult} {t t' : TestTree}
    {log : List NodeKey} (hreplaced : Replaced key (mapRoot fun n => { n with result := some r })
      settled t t' log) (hr : r.status.isTerminal)
    (hleaf : ∀ s ∈ t.subtrees, s.key = key → s.children = []) (h : t.AllCoherent run) :
    t'.AllCoherent run ∧ (t.info.isFinished → t'.info.isFinished) := by
  induction hreplaced with
  | @here info children hkey =>
      obtain rfl : children = [] := hleaf _ (self_mem_subtrees _) hkey
      have hresult : ({ info with result := some r } : TestNode).result = some r := rfl
      rw [mapRoot_node, allCoherent_node]
      refine ⟨⟨⟨h.root.claimed, rfl, fun hne => absurd rfl hne, fun a ha => ?_⟩, by simp⟩,
        fun _ => (TestNode.isFinished_of_result hresult).trans hr⟩
      cases ha
  | @deeper info before after c c' log hkey hbefore hchild ih =>
      obtain ⟨hroot, hchildren⟩ := allCoherent_node.mp h
      obtain ⟨hc', hmono⟩ := ih
        (fun s hs => hleaf s (mem_subtrees_node.mpr (.inr ⟨c, by simp, hs⟩)))
        (hchildren c (by simp))
      have hchildren' := forall_mem_of_replaced hchildren hc'
      refine ⟨allCoherent_node.mpr ⟨coherent_settled hroot.claimed hroot.hasResult ?_, hchildren'⟩,
        fun hfinished => isFinished_settled hfinished⟩
      intro hne hfinished
      have hall : ∀ d ∈ before ++ c :: after, d.info.isFinished :=
        (combined_isSome_iff (by simp) fun d hd => (hchildren d hd).root.hasResult).mp
          ((hroot.finished_iff (by simp)).mp hfinished)
      refine (combined_isSome_iff hne fun d hd => (hchildren' d hd).root.hasResult).mpr ?_
      exact forall_mem_of_replaced hall (hmono (hall c (by simp)))

/-- A final result recorded at a leaf leaves a finished tree finished. -/
theorem allFinished_recorded {key : NodeKey} {r : RunResult} {t t' : TestTree}
    {log : List NodeKey} (hreplaced : Replaced key (mapRoot fun n => { n with result := some r })
      settled t t' log) (hr : r.status.isTerminal) (h : t.AllFinished) : t'.AllFinished := by
  induction hreplaced with
  | @here info children hkey =>
      have hresult : ({ info with result := some r } : TestNode).result = some r := rfl
      rw [mapRoot_node, allFinished_node, TestNode.isFinished_of_result hresult]
      exact ⟨hr, (allFinished_node.mp h).2⟩
  | @deeper info before after c c' log hkey hbefore hchild ih =>
      obtain ⟨hroot, hchildren⟩ := allFinished_node.mp h
      refine allFinished_node.mpr ⟨isFinished_settled hroot, ?_⟩
      exact forall_mem_of_replaced hchildren (ih (hchildren c (by simp)))

/-- Closing a claimed leaf finishes it. -/
theorem isFinished_close {n : TestNode} {children : List TestTree} (hclaimed : n.isClaimedBy run)
    (hresult : n.result.isSome) (hleaf : n.isLeaf children) :
    (n.close run children).isFinished := by
  obtain ⟨r, hr⟩ := Option.isSome_iff_exists.mp hresult
  unfold TestNode.close
  rw [hr]
  dsimp only
  split
  · exact TestNode.isFinished_of_result (r := { r with status := .skipped }) rfl
  next hclosed =>
      rw [TestNode.isFinished_of_result hr]
      simpa [hclaimed, hleaf] using hclosed

theorem result_close_isSome {n : TestNode} (run : RunId) (children : List TestTree)
    (hresult : n.result.isSome) : (n.close run children).result.isSome := by
  unfold TestNode.close
  split
  · split
    · rfl
    · exact hresult
  · exact hresult

/-- Closing a run over a coherent tree finishes every node and keeps the tree coherent. -/
theorem finish_allCoherent {t : TestTree} (h : t.AllCoherent run) :
    (t.finish run).1.AllCoherent run ∧ (t.finish run).1.AllFinished := by
  induction t with
  | node info children ih =>
      obtain ⟨hroot, hchildren⟩ := allCoherent_node.mp h
      have hsub : ∀ c ∈ children.map fun c => (c.finish run).1,
          c.AllCoherent run ∧ c.AllFinished :=
        List.forall_mem_map.mpr fun c hc => ih c hc (hchildren c hc)
      have hclaimed : (info.close run children).isClaimedBy run := by
        rw [TestNode.isClaimedBy, TestNode.run_close]
        exact hroot.claimed
      have hresult := result_close_isSome run children hroot.hasResult
      have hcombined : children ≠ [] →
          (combined (children.map fun c => (c.finish run).1)).isSome := fun hne =>
        (combined_isSome_iff (by simpa using hne) fun c hc =>
          (hsub c hc).1.root.hasResult).mpr fun c hc => (hsub c hc).2.root
      rw [finish_fst]
      refine ⟨allCoherent_node.mpr ⟨coherent_settled hclaimed hresult ?_, fun c hc =>
        (hsub c hc).1⟩, allFinished_node.mpr ⟨?_, fun c hc => (hsub c hc).2⟩⟩
      · exact fun hne _ => hcombined (by simpa using hne)
      · by_cases hne : children = []
        · subst hne
          exact isFinished_settled
            (isFinished_close hroot.claimed hroot.hasResult (by simp [TestNode.isLeaf]))
        · obtain ⟨a, ha⟩ := Option.isSome_iff_exists.mp (hcombined hne)
          have hsettled : (finishNode run info children).result = some a := by
            rw [finishNode, ha]
            rfl
          rw [TestNode.isFinished_of_result hsettled]
          exact isTerminal_of_combined ha

end TestTree

namespace RunSession

theorem isFinished_withLog (s : RunSession) (n : TestNode) :
    (s.withLog n).isFinished = n.isFinished := by
  rcases s.withLog_cases n with heq | ⟨r, log, hr, -, -, heq⟩
  · rw [heq]
  · rw [heq, TestNode.isFinished_of_result hr]
    rfl

theorem allCoherent_withLog (s : RunSession) {run : RunId} {t : TestTree}
    (h : t.AllCoherent run) : (mapRoot s.withLog t).AllCoherent run := by
  cases t with
  | node info children =>
      obtain ⟨hroot, hchildren⟩ := allCoherent_node.mp h
      refine allCoherent_node.mpr ⟨?_, hchildren⟩
      rcases s.withLog_cases info with heq | ⟨r, log, hr, -, -, heq⟩
      · rw [heq]
        exact hroot
      · have hresult : (s.withLog info).result = some { r with output := some log } := by
          rw [heq]
        refine ⟨?_, by simp [hresult], fun hne => ?_, fun a ha => ?_⟩
        · rw [info_node, heq]
          exact hroot.claimed
        · rw [info_node, s.isFinished_withLog]
          exact hroot.finished_iff hne
        · have hagrees := hroot.agrees a ha
          rw [info_node, TestNode.status_of_result hr, TestNode.nanos?_of_result hr] at hagrees
          rw [info_node, TestNode.status_of_result hresult, TestNode.nanos?_of_result hresult]
          exact hagrees

theorem allFinished_withLog (s : RunSession) {t : TestTree} (h : t.AllFinished) :
    (mapRoot s.withLog t).AllFinished := by
  cases t with
  | node info children =>
      obtain ⟨hroot, hchildren⟩ := allFinished_node.mp h
      exact allFinished_node.mpr ⟨by rwa [s.isFinished_withLog], hchildren⟩

/-! ### Events one after the other -/

/-- A session is alone over its scope: the subtree there is coherent for its run, and finished once
the run has been closed. -/
structure Alone (s : RunSession) (t sub : TestTree) : Prop where
  keyed : t.Keyed
  leaves : t.SpecsAreLeaves
  found : t.find? s.scope = some sub
  coherent : sub.AllCoherent s.run
  closed : s.finished → sub.AllFinished

namespace Alone

variable {s : RunSession} {t sub : TestTree}

theorem start (hkeyed : t.Keyed) (hleaves : t.SpecsAreLeaves) {scope : NodeKey}
    (hsub : t.find? scope = some sub) (run : RunId) :
    Alone (RunSession.start t scope run).1 (RunSession.start t scope run).2.1
      (sub.touch fun n => some (n.prepare run)).1 where
  keyed := hkeyed.of_frame_eq (start_frame t scope run)
  leaves := hleaves.of_frame_eq (start_frame t scope run)
  found := find?_start hkeyed hsub run
  coherent := allCoherent_prepare run sub
  closed h := by cases h

/-- One event keeps a session alone over its scope. -/
theorem apply (h : Alone s t sub) (e : RunEvent) :
    ∃ sub', Alone (s.apply t e).1 (s.apply t e).2.1 sub' := by
  obtain ⟨sub', hsub', hstep⟩ := exists_scopeStep h.keyed h.found e
  have hmem := (mem_subtrees_of_find? h.found).1
  have hkept : sub'.AllCoherent s.run ∧ ((s.apply t e).1.finished → sub'.AllFinished) := by
    rw [apply_finished, Bool.or_eq_true]
    cases hstep with
    | started =>
        refine ⟨allCoherent_start h.coherent, fun hfinished => allFinished_start (h.closed ?_)⟩
        simpa [isExit] using hfinished
    | @recorded r status n _ log hstatus htarget hclaimed hreplaced =>
        have hterminal : (r.result status).status.isTerminal := isTerminal_of_status? hstatus
        obtain ⟨hn, hspec⟩ := mem_subtree_of_target? htarget
        obtain ⟨x, hx, rfl⟩ := mem_nodes.mp hn
        have hleaf : ∀ y ∈ sub.subtrees, y.key = x.info.key → y.children = [] := by
          intro y hy hkey
          obtain rfl := (h.keyed.of_mem_subtrees hmem).eq_of_key_eq hy hx hkey
          exact h.leaves.of_mem_subtrees hmem y hy hspec
        refine ⟨(allCoherent_recorded hreplaced hterminal hleaf h.coherent).1,
          fun hfinished => allFinished_recorded hreplaced hterminal (h.closed ?_)⟩
        simpa [isExit] using hfinished
    | exited hopen =>
        obtain ⟨hcoherent, hfinished⟩ := finish_allCoherent h.coherent
        exact ⟨s.allCoherent_withLog hcoherent, fun _ => s.allFinished_withLog hfinished⟩
    | closed hclosed => exact ⟨h.coherent, fun _ => h.closed hclosed⟩
    | ignored | suite | malformed | output =>
        exact ⟨h.coherent, fun hfinished => h.closed (by simpa [isExit] using hfinished)⟩
  refine ⟨sub', h.keyed.of_frame_eq (apply_frame s t e), h.leaves.of_frame_eq (apply_frame s t e),
    ?_, ?_, hkept.2⟩
  · rw [apply_scope]
    exact hsub'
  · rw [apply_run]
    exact hkept.1

/-- A whole run keeps a session alone over its scope, and an exit among its events closes it. -/
theorem applyAll (h : Alone s t sub) (events : List RunEvent) :
    ∃ sub', Alone (s.applyAll t events).1 (s.applyAll t events).2 sub' ∧
      (s.applyAll t events).1.scope = s.scope ∧
      (s.applyAll t events).1.finished = (s.finished || events.any isExit) := by
  induction events generalizing s t sub with
  | nil => exact ⟨sub, h, rfl, by simp [RunSession.applyAll]⟩
  | cons e rest ih =>
      obtain ⟨sub₁, h₁⟩ := h.apply e
      obtain ⟨sub', h', hscope, hfinished⟩ := ih h₁
      refine ⟨sub', h', hscope.trans (apply_scope s t e), hfinished.trans ?_⟩
      rw [apply_finished, List.any_cons, Bool.or_assoc]

end Alone

/-- After the start of a run and after each of its events, every container in its scope is
finished exactly when all leaves below it are, and then shows their status and the sum of their
times. Once the run has exited, every node in the scope is finished. -/
theorem containers_agree_with_leaves (previous : Option TestTree) {o : Outline}
    (hleaves : o.SpecsAreLeaves) (name : String) {scope : NodeKey}
    (hscope : (TestTree.merge previous o name).1.contains scope) (run : RunId)
    (events : List RunEvent) :
    ∃ sub, (play (TestTree.merge previous o name).1 scope run events).2.find? scope = some sub ∧
      (∀ s ∈ sub.subtrees, s.children ≠ [] → s.AgreesWithLeaves) ∧
      ((∃ success code, .exited success code ∈ events) → ∀ n ∈ sub.nodes, n.isFinished) := by
  obtain ⟨sub₀, hsub₀⟩ := Option.isSome_iff_exists.mp hscope
  have hstart := Alone.start (ofOutline_keyed previous o name)
    (ofOutline_specsAreLeaves previous hleaves name) hsub₀ run
  obtain ⟨sub, halone, hscope', hfinished⟩ := hstart.applyAll events
  have hfound : (play (TestTree.merge previous o name).1 scope run events).2.find? scope =
      some sub := by
    have hfound := halone.found
    rw [hscope'] at hfound
    exact hfound
  have hleaf : sub.SpecsAreLeaves :=
    halone.leaves.of_mem_subtrees (mem_subtrees_of_find? halone.found).1
  refine ⟨sub, hfound, fun s hs _ => ?_, ?_⟩
  · have hcoherent : s.AllCoherent _ := fun u hu => halone.coherent u (mem_subtrees_trans hu hs)
    exact hcoherent.agreesWithLeaves (hleaf.of_mem_subtrees hs)
  · rintro ⟨success, code, hexit⟩
    refine halone.closed (hfinished.trans ?_)
    rw [Bool.or_eq_true, List.any_eq_true]
    exact .inr ⟨_, hexit, rfl⟩

/-- A run of the cart that crashes after the first of its specs. -/
def cartCrash : List RunEvent :=
  [.started, .record (.spec ⟨["cart"], "adds", "failed", none, none, some 5, none⟩),
    .exited false (some 1)]

theorem containers_agree_with_leaves_cart :
    Outline.cart.SpecsAreLeaves ∧
      (TestTree.merge none .cart "cart_test.go").1.contains (.ofNames ["cart"]) ∧
      ∃ sub, (play (TestTree.merge none .cart "cart_test.go").1 (.ofNames ["cart"]) 7
          cartCrash).2.find? (.ofNames ["cart"]) = some sub ∧
        (∀ s ∈ sub.subtrees, s.children ≠ [] → s.AgreesWithLeaves) ∧
        ∀ n ∈ sub.nodes, n.isFinished := by
  have hscope : (TestTree.merge none .cart "cart_test.go").1.contains (.ofNames ["cart"]) := by
    decide +kernel
  obtain ⟨sub, hfound, hagree, hfinished⟩ := containers_agree_with_leaves none
    Outline.cart_specsAreLeaves "cart_test.go" hscope 7 cartCrash
  exact ⟨Outline.cart_specsAreLeaves, hscope, sub, hfound, hagree,
    hfinished ⟨false, some 1, by simp [cartCrash]⟩⟩

end RunSession

end SpecExplorer
