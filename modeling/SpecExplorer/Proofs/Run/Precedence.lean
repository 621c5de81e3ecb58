/-
# What an older session leaves to a newer one

A session that begins over nodes of an older one takes them over, and whatever lies below a node
that it took belongs to it or to a session that is newer still. So an older session has nothing
there to start, to record or to take back, and its exit skips nothing there. But the exit does
settle every node in the scope and above it, whichever session the node belongs to. For a node of a
newer session that is to combine what its children show once more: status and time come out as they
were, unless a session was given up below, and an output that the node showed is lost.
-/
import SpecExplorer.Proofs.Run.Overlap

namespace SpecExplorer

open TestTree RunSession

namespace TestTree

/-- A node shows the status and the time of what its children show together. -/
def Agrees (t : TestTree) : Prop :=
  ∀ a, t.aggregate = some a → t.info.status = some a.status ∧ t.info.nanos? = a.nanos

variable {t : TestTree} {info : TestNode} {children : List TestTree}

/-- A combined result has no output. -/
theorem output_of_combined {a : RunResult} (h : combined children = some a) : a.output = none := by
  rw [RunResult.combine_eq_some h]

theorem status_settled {a : RunResult} (ha : combined children = some a) :
    (settled info children).status = some a.status ∧
      (settled info children).nanos? = a.nanos := by
  have hresult : (settled info children).result = some a := by rw [settled, ha]; rfl
  exact ⟨TestNode.status_of_result hresult, TestNode.nanos?_of_result hresult⟩

/-- A leaf has no children to agree with. -/
theorem agrees_of_children_eq_nil (h : t.children = []) : t.Agrees := by
  intro a ha
  rw [aggregate, h] at ha
  cases ha

end TestTree

namespace RunSession

variable {s : RunSession} {t x : TestTree} {m : Move} {f : NodeChange}

/-! ### A node that the session has no claim on -/

/-- Where a session has no claim on a node and on what lies below it, its moves leave the result of
the node, but that a close may settle it anew. -/
theorem Act.result_of_not_claimed (h : Act s t m f) (hkeyed : t.Keyed) (hx : x ∈ t.subtrees)
    (hclaims : ∀ y ∈ x.subtrees, ¬ y.info.isClaimedBy s.run) :
    (x.rebuild f).info.result = x.info.result ∨
      m.closes ∧
        ∃ a, combined (x.rebuild f).children = some a ∧ (x.rebuild f).info.result = some a := by
  have hxkeyed := hkeyed.of_mem_subtrees hx
  have hclaim := hclaims x (self_mem_subtrees x)
  cases h with
  | stay _ _ => exact .inl (congrArg _ (info_rebuild _ x))
  | started =>
      refine .inl ?_
      rw [info_rebuild, around_kept]
      split
      · have hnone : x.info.start? s.run = none := by
          unfold TestNode.start?
          split
          · simp [hclaim]
          · rfl
        rw [touching, hnone, Option.getD_none]
      · rfl
  | withdrawn =>
      refine .inl ?_
      rw [info_rebuild, around_kept]
      split
      · simp [touching, TestNode.revert?_getD, hclaim]
      · rfl
  | @recorded r status z hstatus hz hspec hscope hclaimed =>
      rcases rebuild_recording_cases hxkeyed z.key (r.result status) with heq | ⟨hkey, -⟩ |
        ⟨hcovers, -⟩
      · exact .inl (by rw [heq])
      · obtain rfl := hkeyed.eq_of_key_eq hx hz hkey
        exact absurd hclaimed hclaim
      · exact absurd hclaimed (hclaims z (hkeyed.mem_subtrees_of_covers hx hz hcovers))
  | closed hcloses _ _ =>
      rcases s.rebuild_closure_cases hxkeyed with heq | ⟨n, hn, hinfo⟩
      · exact .inl (by rw [heq])
      have hsame : n = x.info := by
        rcases hn with rfl | rfl
        · rfl
        · unfold TestNode.close
          split
          · simp [hclaim]
          · rfl
      subst hsame
      have hunclaimed : ∀ cs, ¬ (settled x.info cs).isClaimedBy s.run := by
        intro cs
        rwa [TestNode.isClaimedBy, run_settled]
      rw [hinfo, logged_of_not_claimed s (hunclaimed _)]
      rcases settled_cases x.info (x.rebuild s.closure).children with ⟨-, heq⟩ | ⟨a, ha, heq⟩
      · exact .inl (by rw [heq])
      · exact .inr ⟨hcloses, a, ha, by rw [heq]⟩

/-- Where the nodes below agree with their children, settling them anew changes no status and no
time. -/
theorem status_of_settled_anew (hagrees : ∀ y ∈ x.subtrees, y.Agrees)
    (h : ∀ y ∈ x.subtrees, (y.rebuild f).info.result = y.info.result ∨
      ∃ a, combined (y.rebuild f).children = some a ∧ (y.rebuild f).info.result = some a) :
    (x.rebuild f).info.status = x.info.status ∧ (x.rebuild f).info.nanos? = x.info.nanos? := by
  induction x with
  | node info children ih =>
      obtain ⟨hself, hbelow⟩ := forall_subtrees_node.mp h
      obtain ⟨hown, hagrees⟩ := forall_subtrees_node.mp hagrees
      have hcombined : combined (children.map (rebuild f)) = combined children :=
        combined_map_congr fun c hc => ih c hc (hagrees c hc) (hbelow c hc)
      rcases hself with hsame | ⟨a, ha, hresult⟩
      · rw [TestNode.status, hsame, TestNode.nanos?, hsame]
        exact ⟨rfl, rfl⟩
      · rw [children_rebuild, children_node, hcombined] at ha
        obtain ⟨hstatus, hnanos⟩ := hown a ha
        rw [TestNode.status_of_result hresult, TestNode.nanos?_of_result hresult, hstatus, hnanos]
        exact ⟨rfl, rfl⟩

/-! ### Nodes that agree with their children -/

/-- Starting a run changes no node but those that are under way, and they stay so. -/
theorem starting_cases (scope : NodeKey) (run : RunId) (y : TestTree) :
    (y.rebuild (around scope (touching (·.start? run)) kept)).info.isUnfinished ∨
      (y.rebuild (around scope (touching (·.start? run)) kept)).info = y.info := by
  rw [isUnfinished_starting, info_rebuild, around_kept]
  split
  · rcases TestNode.start?_getD_cases run y.info with heq | ⟨r, hr, hpending, -⟩
    · exact .inr heq
    · exact .inl (by rw [TestNode.isUnfinished_of_result hr, hpending]; rfl)
  · exact .inr rfl

/-- Preparing a run puts the nodes in its scope under way and changes no others. -/
theorem preparing_cases (scope : NodeKey) (run : RunId) (y : TestTree) :
    (y.rebuild (preparing scope run)).info.isUnfinished ∨
      (y.rebuild (preparing scope run)).info = y.info := by
  by_cases hcovers : scope.covers y.key
  · exact .inl (isUnfinished_preparing.mpr (.inl hcovers))
  · exact .inr (by rw [info_rebuild, preparing_of_not_covers hcovers])

/-- What children show together after a change that leaves each of them as it is or under way,
they showed before it. -/
theorem aggregate_of_rebuild
    (h : ∀ c ∈ x.children, (c.rebuild f).info.isUnfinished ∨ (c.rebuild f).info = c.info)
    {a : RunResult} (ha : (x.rebuild f).aggregate = some a) : x.aggregate = some a := by
  rw [aggregate, children_rebuild] at ha
  exact combined_of_map (fun c hc => (h c hc).imp_right (congrArg TestNode.result)) ha

/-- Starting a run changes no node that is finished, and finishes none. -/
theorem agrees_starting (h : x.Agrees) (run : RunId) (scope : NodeKey) :
    (x.rebuild (around scope (touching (·.start? run)) kept)).Agrees := by
  intro a ha
  have hbefore := aggregate_of_rebuild (fun c _ => starting_cases scope run c) ha
  obtain ⟨hstatus, hnanos⟩ := h a hbefore
  have hfinished : ¬ x.info.isUnfinished := by
    simp [TestNode.isUnfinished, hstatus, isTerminal_of_combined hbefore]
  rw [(starting_cases scope run x).resolve_left (by rwa [isUnfinished_starting])]
  exact ⟨hstatus, hnanos⟩

/-- The children of a node that a run was prepared for have nothing to show. -/
theorem combined_prepared (hkeyed : x.Keyed) {scope : NodeKey} (hcovers : scope.covers x.key)
    (run : RunId) : combined (x.rebuild (preparing scope run)).children = none := by
  rw [children_rebuild, combined_eq_none_iff]
  cases hchildren : x.children with
  | nil => exact .inl nofun
  | cons c rest =>
      have hc : c ∈ x.children := hchildren ▸ List.mem_cons_self
      exact .inr ⟨_, List.mem_cons_self, isUnfinished_preparing.mpr
        (.inl (NodeKey.covers_trans hcovers (hkeyed.covers_of_mem_children hc)))⟩

theorem agrees_prepared (hkeyed : x.Keyed) {scope : NodeKey} (hcovers : scope.covers x.key)
    (run : RunId) : (x.rebuild (preparing scope run)).Agrees := by
  intro a ha
  rw [aggregate, combined_prepared hkeyed hcovers] at ha
  cases ha

/-- Preparing a run leaves the nodes in its scope with nothing to agree with, and the results of
all other nodes. -/
theorem agrees_preparing (hkeyed : x.Keyed) (h : x.Agrees) (scope : NodeKey) (run : RunId) :
    (x.rebuild (preparing scope run)).Agrees := by
  by_cases hcovers : scope.covers x.key
  · exact agrees_prepared hkeyed hcovers run
  · intro a ha
    rw [info_rebuild, preparing_of_not_covers hcovers]
    exact h a (aggregate_of_rebuild (fun c _ => preparing_cases scope run c) ha)

/-- Every act but that of an abort leaves the nodes that it changes in agreement with their
children, where specs are leaves. -/
theorem Act.agrees (h : Act s t m f) (hkeyed : t.Keyed) (hleaves : t.SpecsAreLeaves)
    (habort : m ≠ .abort) (hx : x ∈ t.subtrees) (hagrees : x.Agrees) : (x.rebuild f).Agrees := by
  have hxkeyed := hkeyed.of_mem_subtrees hx
  cases h with
  | stay _ _ => rwa [rebuild_eq_self fun _ _ => rfl]
  | withdrawn => exact absurd rfl habort
  | started => exact agrees_starting hagrees s.run s.scope
  | @recorded r status z hstatus hz hspec hscope hclaimed =>
      rcases rebuild_recording_cases hxkeyed z.key (r.result status) with heq | ⟨hkey, -⟩ |
        ⟨-, hinfo⟩
      · rwa [heq]
      · obtain rfl := hkeyed.eq_of_key_eq hx hz hkey
        exact agrees_of_children_eq_nil (by rw [children_rebuild, hleaves x hx hspec]; rfl)
      · intro a ha
        rw [hinfo]
        exact status_settled ha
  | closed _ _ _ =>
      rcases s.rebuild_closure_cases hxkeyed with heq | ⟨n, -, hinfo⟩
      · rwa [heq]
      · intro a ha
        rw [hinfo, status_logged, nanos?_logged]
        exact status_settled ha

end RunSession

namespace Overlap

/-! ### What holds while sessions overlap -/

/-- The runs of the sessions, in the order in which they began. -/
def runs (o : Overlap) : List RunId := o.sessions.map (·.run)

/-- Every run that a node belongs to has begun. -/
def Begun (o : Overlap) : Prop :=
  ∀ x ∈ o.tree.subtrees, ∀ r, x.info.run = some r → r < o.nextRun

/-- What is below a node of a session belongs to it or to a newer one. -/
def Layered (o : Overlap) : Prop :=
  ∀ r ∈ o.runs, ∀ x ∈ o.tree.subtrees, x.info.isClaimedBy r →
    ∀ y ∈ x.subtrees, ∃ r' ∈ o.runs, r ≤ r' ∧ y.info.isClaimedBy r'

/-- Nodes of sessions agree with their children. -/
def Agreeing (o : Overlap) : Prop :=
  ∀ r ∈ o.runs, ∀ x ∈ o.tree.subtrees, x.info.isClaimedBy r → x.Agrees

variable {o o' : Overlap} {st : Step}

theorem Begun.of_stepped (h : o.Begun) (hstep : Stepped o st o') : o'.Begun := by
  cases hstep with
  | absent _ => exact h
  | @acted i m s f hsession hact =>
      refine forall_subtrees_rebuild.mpr fun x hx r hr => h x hx r ?_
      rwa [info_rebuild, hact.calm.run] at hr
  | begun scope =>
      refine forall_subtrees_rebuild.mpr fun x hx r hr => ?_
      rw [info_rebuild] at hr
      by_cases hcovers : scope.covers x.key
      · rw [preparing_of_covers hcovers, TestNode.run_prepare] at hr
        exact Option.some.inj hr ▸ Nat.lt_succ_self _
      · rw [preparing_of_not_covers hcovers] at hr
        exact Nat.lt_succ_of_lt (h x hx r hr)

theorem runs_begun (o : Overlap) (t : TestTree) (scope : NodeKey) :
    (Overlap.mk t (o.sessions ++ [(start o.tree scope o.nextRun).1]) (o.nextRun + 1)).runs =
      o.runs ++ [o.nextRun] := by
  simp [runs, start]

theorem runs_acted {i : Nat} {s : RunSession} (hsession : o.sessions[i]? = some s)
    (t : TestTree) (m : Move) :
    (Overlap.mk t (o.sessions.set i (s.move o.tree m).1) o.nextRun).runs = o.runs :=
  map_run_set hsession o.tree m

/-- A run that a node belonged to before a session began is not the new one. -/
theorem Begun.mem_runs (h : o.Begun) {r : RunId} (hr : r ∈ o.runs ++ [o.nextRun]) {x : TestTree}
    (hx : x ∈ o.tree.subtrees) (hclaimed : x.info.isClaimedBy r) : r ∈ o.runs := by
  refine (List.mem_append.mp hr).resolve_right fun hnew => ?_
  have hlt := h x hx r (TestNode.isClaimedBy_iff.mp hclaimed)
  rw [List.mem_singleton.mp hnew] at hlt
  exact Nat.lt_irrefl _ hlt

/-- A run that is not the newest has begun before the newest. -/
theorem Ordered.lt_nextRun (h : o.Ordered) {r : RunId} (hr : r ∈ o.runs) : r < o.nextRun := by
  obtain ⟨s, hs, rfl⟩ := List.mem_map.mp hr
  exact h.numbered s hs

theorem Layered.of_stepped (h : o.Layered) (hordered : o.Ordered) (hbegun : o.Begun)
    (hstep : Stepped o st o') : o'.Layered := by
  cases hstep with
  | absent _ => exact h
  | @acted i m s f hsession hact =>
      rw [Layered, runs_acted hsession]
      intro r hr
      refine forall_subtrees_rebuild.mpr fun x hx hclaimed => forall_subtrees_rebuild.mpr ?_
      simp only [hact.calm.isClaimedBy] at hclaimed ⊢
      exact h r hr x hx hclaimed
  | begun scope =>
      rw [Layered, runs_begun]
      intro r hr
      refine forall_subtrees_rebuild.mpr fun x hx hclaimed => forall_subtrees_rebuild.mpr ?_
      intro y hy
      have hxy := (hordered.keyed.of_mem_subtrees hx).covers_of_mem_subtrees hy
      simp only [isClaimedBy_preparing] at hclaimed ⊢
      by_cases hycovers : scope.covers y.key
      · -- Nothing is newer than the run that begins.
        refine ⟨o.nextRun, by simp, ?_, by rw [if_pos hycovers]⟩
        rcases List.mem_append.mp hr with hr | hr
        · exact Nat.le_of_lt (hordered.lt_nextRun hr)
        · exact Nat.le_of_eq (List.mem_singleton.mp hr)
      · have hxcovers : ¬ scope.covers x.key := fun hxcovers =>
          hycovers (NodeKey.covers_trans hxcovers hxy)
        rw [if_neg hxcovers] at hclaimed
        have hr' := hbegun.mem_runs hr hx hclaimed
        obtain ⟨r', hr'mem, hle, hyclaimed⟩ := h r hr' x hx hclaimed y hy
        exact ⟨r', List.mem_append_left _ hr'mem, hle, by rwa [if_neg hycovers]⟩

theorem Agreeing.of_stepped (h : o.Agreeing) (hordered : o.Ordered) (hbegun : o.Begun)
    (hleaves : o.tree.SpecsAreLeaves) (habort : ∀ k, st ≠ .act k .abort)
    (hstep : Stepped o st o') : o'.Agreeing := by
  cases hstep with
  | absent _ => exact h
  | @acted i m s f hsession hact =>
      rw [Agreeing, runs_acted hsession]
      intro r hr
      refine forall_subtrees_rebuild.mpr fun x hx hclaimed => ?_
      rw [hact.calm.isClaimedBy] at hclaimed
      have hm : m ≠ .abort := fun hm => habort i (hm ▸ rfl)
      exact hact.agrees hordered.keyed hleaves hm hx (h r hr x hx hclaimed)
  | begun scope =>
      rw [Agreeing, runs_begun]
      intro r hr
      refine forall_subtrees_rebuild.mpr fun x hx hclaimed => ?_
      have hkeyed := hordered.keyed.of_mem_subtrees hx
      rw [isClaimedBy_preparing] at hclaimed
      by_cases hcovers : scope.covers x.key
      · exact agrees_prepared hkeyed hcovers o.nextRun
      · rw [if_neg hcovers] at hclaimed
        exact agrees_preparing hkeyed (h r (hbegun.mem_runs hr hx hclaimed) x hx hclaimed) scope
          o.nextRun

/-- The claims of a tree are those of sessions in their order, and newer ones lie below older. -/
structure Claimed (o : Overlap) : Prop where
  ordered : o.Ordered
  begun : o.Begun
  layered : o.Layered

namespace Claimed

theorem fresh {t : TestTree} (hkeyed : t.Keyed) (hroot : t.key = .root) {first : RunId}
    (hfirst : ∀ n ∈ t.nodes, ∀ r ∈ n.run, r < first) :
    (Overlap.fresh t first).Claimed :=
  ⟨.fresh hkeyed hroot first, fun _ hx => hfirst _ (info_mem_nodes hx), nofun⟩

theorem step (h : o.Claimed) (st : Step) : (o.step st).Claimed :=
  have hstep := stepped h.ordered st
  ⟨h.ordered.of_stepped hstep, h.begun.of_stepped hstep,
    h.layered.of_stepped h.ordered h.begun hstep⟩

theorem steps (h : o.Claimed) (all : List Step) : (o.steps all).Claimed := by
  induction all generalizing o with
  | nil => exact h
  | cons st rest ih => exact ih (h.step st)

/-- As long as no session is given up, nodes of sessions agree with their children. -/
theorem agreeing_steps (h : o.Claimed) (hleaves : o.tree.SpecsAreLeaves) (hagreeing : o.Agreeing)
    {all : List Step} (habort : ∀ k, .act k .abort ∉ all) : (o.steps all).Agreeing := by
  induction all generalizing o with
  | nil => exact hagreeing
  | cons st rest ih =>
      have hstep := stepped h.ordered st
      have hst : ∀ k, st ≠ .act k .abort := by
        rintro k rfl
        exact habort k List.mem_cons_self
      exact ih (h.step st) (hleaves.of_frame_eq hstep.frame_eq)
        (hagreeing.of_stepped h.ordered h.begun hleaves hst hstep)
        fun k hk => habort k (List.mem_cons_of_mem _ hk)

theorem frame_steps (h : o.Claimed) (all : List Step) :
    (o.steps all).tree.frame = o.tree.frame := by
  induction all generalizing o with
  | nil => rfl
  | cons st rest ih => exact (ih (h.step st)).trans (stepped h.ordered st).frame_eq

/-- An older session has no claim on a node of a newer one, nor on anything below it. -/
theorem not_claimed_of_newer (h : o.Claimed) {i j : Nat} {s q : RunSession}
    (hs : o.sessions[i]? = some s) (hq : o.sessions[j]? = some q) (hij : i < j) {x : TestTree}
    (hx : x ∈ o.tree.subtrees) (hclaimed : x.info.isClaimedBy q.run) :
    ∀ y ∈ x.subtrees, ¬ y.info.isClaimedBy s.run := by
  obtain ⟨hi, rfl⟩ := List.getElem?_eq_some_iff.mp hs
  obtain ⟨hj, rfl⟩ := List.getElem?_eq_some_iff.mp hq
  have hlt := List.pairwise_iff_getElem.mp h.ordered.sorted i j hi hj hij
  intro y hy hyclaimed
  obtain ⟨r, -, hle, hyr⟩ :=
    h.layered _ (List.mem_map_of_mem (List.getElem_mem hj)) x hx hclaimed y hy
  rw [TestNode.isClaimedBy_iff] at hyclaimed hyr
  have heq := Option.some.inj (hyclaimed.symm.trans hyr)
  rw [← heq] at hle
  exact Nat.lt_irrefl _ (Nat.lt_of_lt_of_le hlt hle)

/-- An older session leaves the results at and below a node of a newer one, but that its close may
settle them anew. -/
theorem kept_or_settled (h : o.Claimed) {i j : Nat} {s q : RunSession}
    (hs : o.sessions[i]? = some s) (hq : o.sessions[j]? = some q) (hij : i < j) {x : TestTree}
    (hx : x ∈ o.tree.subtrees) (hclaimed : x.info.isClaimedBy q.run) {m : Move} {f : NodeChange}
    (hact : Act s o.tree m f) :
    ∀ y ∈ x.subtrees, (y.rebuild f).info.result = y.info.result ∨
      m.closes ∧
        ∃ a, combined (y.rebuild f).children = some a ∧ (y.rebuild f).info.result = some a := by
  intro y hy
  have hunclaimed := h.not_claimed_of_newer hs hq hij hx hclaimed
  exact hact.result_of_not_claimed h.ordered.keyed (mem_subtrees_trans hy hx) fun z hz =>
    hunclaimed z (mem_subtrees_trans hz hy)

/-- Where nodes of sessions agree with their children, so does all below one of them. -/
theorem agrees_below (h : o.Claimed) (hagreeing : o.Agreeing) {r : RunId} (hr : r ∈ o.runs)
    {x : TestTree} (hx : x ∈ o.tree.subtrees) (hclaimed : x.info.isClaimedBy r) :
    ∀ y ∈ x.subtrees, y.Agrees := by
  intro y hy
  obtain ⟨r', hr', -, hyclaimed⟩ := h.layered r hr x hx hclaimed y hy
  exact hagreeing r' hr' y (mem_subtrees_trans hy hx) hyclaimed

end Claimed

/-- However sessions overlap, a move of an older session leaves the result of every node that
belongs to a newer one, but that a close may settle the node anew from its children, and then it
shows no output. Specs keep all they show. Unless some session was given up, every node keeps its
status and its time. -/
theorem newer_results_survive_older_moves {t : TestTree} (hkeyed : t.Keyed) (hroot : t.key = .root)
    {first : RunId} (hfirst : ∀ n ∈ t.nodes, ∀ r ∈ n.run, r < first) (past : List Step)
    {i j : Nat} {s q : RunSession} (hs : ((fresh t first).steps past).sessions[i]? = some s)
    (hq : ((fresh t first).steps past).sessions[j]? = some q) (hij : i < j) (m : Move)
    {n : TestNode} (hn : n ∈ ((fresh t first).steps past).tree.nodes)
    (hclaimed : n.isClaimedBy q.run) :
    ∃ n', ((fresh t first).steps (past ++ [.act i m])).tree.node? n.key = some n' ∧
      (n'.result = n.result ∨ m.closes ∧ ∃ r, n'.result = some r ∧ r.output = none) ∧
      (t.SpecsAreLeaves → n.kind = .spec → n'.result = n.result) ∧
      (t.SpecsAreLeaves → (∀ k, .act k .abort ∉ past) →
        n'.status = n.status ∧ n'.nanos? = n.nanos?) := by
  have hclaims := (Claimed.fresh hkeyed hroot hfirst).steps past
  have hleaves : t.SpecsAreLeaves → ((fresh t first).steps past).tree.SpecsAreLeaves := fun h =>
    h.of_frame_eq ((Claimed.fresh hkeyed hroot hfirst).frame_steps past)
  have hagreeing : t.SpecsAreLeaves → (∀ k, .act k .abort ∉ past) →
      ((fresh t first).steps past).Agreeing := fun h habort =>
    (Claimed.fresh hkeyed hroot hfirst).agreeing_steps h nofun habort
  rw [steps_append]
  generalize (fresh t first).steps past = o at *
  have hkeyed' := hclaims.ordered.keyed
  obtain ⟨x, hx, rfl⟩ := mem_nodes.mp hn
  obtain ⟨f, hact, htree⟩ := exists_act hkeyed' hclaims.ordered.root s m
  have hresult := hclaims.kept_or_settled hs hq hij hx hclaimed hact
  refine ⟨(x.rebuild f).info, ?_, ?_, fun h hspec => ?_, fun h habort => ?_⟩
  · have hstep : (o.steps [.act i m]).tree = o.tree.rebuild f := by
      rw [steps, step, hs]
      exact htree
    have hfound : (o.tree.rebuild f).find? x.info.key = some (x.rebuild f) :=
      find?_rebuild hact.calm.bare hkeyed' (hkeyed'.find?_key hx)
    rw [hstep, node?, hfound, Option.map_some]
  · refine (hresult x (self_mem_subtrees x)).imp_right ?_
    rintro ⟨hcloses, a, ha, heq⟩
    exact ⟨hcloses, a, heq, output_of_combined ha⟩
  · refine (hresult x (self_mem_subtrees x)).resolve_right ?_
    rintro ⟨-, a, ha, -⟩
    rw [children_rebuild, hleaves h x hx hspec] at ha
    cases ha
  · have hr : q.run ∈ o.runs := List.mem_map_of_mem (List.mem_of_getElem? hq)
    exact status_of_settled_anew
      (hclaims.agrees_below (hagreeing h habort) hr hx hclaimed)
      fun y hy => (hresult y hy).imp_right And.right

/-- A run of a container takes over a run of its spec. It reports the spec, prints a line, and
exits first, so that the container shows the line. -/
def newerFirst : List Step :=
  [.begin (.ofNames ["cart", "adds"]), .begin (.ofNames ["cart"]),
    .act 1 (.event (.record (.spec ⟨["cart"], "adds", "passed", none, none, some 5, none⟩))),
    .act 1 (.event (.output "adding")), .act 1 (.event (.exited true (some 0)))]

/-- The exit of the older run takes the output from the container, which belongs to the newer. -/
theorem cart_loses_output_to_older_exit :
    ((fresh (TestTree.merge none (.cartOf ["adds"]) "cart_test.go").1 1).steps newerFirst).runs =
        [1, 2] ∧
      (((fresh (TestTree.merge none (.cartOf ["adds"]) "cart_test.go").1 1).steps
        newerFirst).tree.node? (.ofNames ["cart"])).map (fun n => (n.run, n.result)) =
          some (some 2, some ⟨.passed, some "adding", some 5⟩) ∧
      (((fresh (TestTree.merge none (.cartOf ["adds"]) "cart_test.go").1 1).steps
        (newerFirst ++ [.act 0 (.event (.exited true (some 0)))])).tree.node?
          (.ofNames ["cart"])).map (fun n => (n.run, n.result)) =
            some (some 2, some ⟨.passed, none, some 5⟩) := by
  decide +kernel

theorem newer_results_survive_older_moves_cart :
    (∀ n ∈ (TestTree.merge none (.cartOf ["adds"]) "cart_test.go").1.nodes,
        ∀ r ∈ n.run, r < 1) ∧
      ∃ n n', n ∈ ((fresh (TestTree.merge none (.cartOf ["adds"]) "cart_test.go").1 1).steps
          newerFirst).tree.nodes ∧
        n.key = .ofNames ["cart"] ∧ n.isClaimedBy 2 ∧
        ((fresh (TestTree.merge none (.cartOf ["adds"]) "cart_test.go").1 1).steps
          (newerFirst ++ [.act 0 (.event (.exited true (some 0)))])).tree.node? n.key = some n' ∧
        n'.status = n.status ∧ n'.nanos? = n.nanos? := by
  have hfirst : ∀ n ∈ (TestTree.merge none (.cartOf ["adds"]) "cart_test.go").1.nodes,
      ∀ r ∈ n.run, r < 1 := by
    decide +kernel
  have hcart : ∃ n ∈ ((fresh (TestTree.merge none (.cartOf ["adds"]) "cart_test.go").1 1).steps
      newerFirst).tree.nodes, n.key = .ofNames ["cart"] ∧ n.isClaimedBy 2 := by
    decide +kernel
  have hleaves : (TestTree.merge none (.cartOf ["adds"]) "cart_test.go").1.SpecsAreLeaves :=
    ofOutline_specsAreLeaves none (Outline.cartOf_specsAreLeaves _) "cart_test.go"
  have hruns : ((fresh (TestTree.merge none (.cartOf ["adds"]) "cart_test.go").1 1).steps
      newerFirst).runs = [1, 2] := by
    decide +kernel
  obtain ⟨s, q, hsessions⟩ : ∃ s q, ((fresh (TestTree.merge none (.cartOf ["adds"])
      "cart_test.go").1 1).steps newerFirst).sessions = [s, q] := ⟨_, _, rfl⟩
  obtain ⟨n, hn, hkey, hclaimed⟩ := hcart
  have hq : q.run = 2 := by
    rw [runs, hsessions] at hruns
    simpa using (List.cons.inj (List.cons.inj hruns).2).1
  have hs : ((fresh (TestTree.merge none (.cartOf ["adds"]) "cart_test.go").1 1).steps
      newerFirst).sessions[0]? = some s := by rw [hsessions]; rfl
  have hnewer : ((fresh (TestTree.merge none (.cartOf ["adds"]) "cart_test.go").1 1).steps
      newerFirst).sessions[1]? = some q := by rw [hsessions]; rfl
  obtain ⟨n', hn', -, -, hkept⟩ := newer_results_survive_older_moves
    (ofOutline_keyed none _ _) (ofOutline_key none _ _) hfirst newerFirst hs hnewer
    Nat.zero_lt_one (.event (.exited true (some 0))) hn (by rwa [hq])
  exact ⟨hfirst, n, n', hn, hkey, hclaimed, hn', hkept hleaves (by simp [newerFirst])⟩

end Overlap

end SpecExplorer
