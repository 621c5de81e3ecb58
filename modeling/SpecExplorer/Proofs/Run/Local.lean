/-
# A session knows its scope alone

What a session does to the subtree of its scope depends on that subtree, the name of the file and
what the session has seen before, and not on anything else in the tree. Nor does it depend on the
number of the run: all nodes there belong to it. So two sessions over one scope, on trees that
agree there but for the runs, do the same there with every event, each under its own number.
-/
import SpecExplorer.Proofs.Run.Act
import SpecExplorer.Proofs.Run.Attribution

namespace SpecExplorer

open TestTree

/-- The node as one of another run, or of none. -/
def TestNode.withRun (run : Option RunId) (n : TestNode) : TestNode := { n with run := run }

namespace TestNode

variable {run : Option RunId} {r r' : RunId} {n : TestNode}

@[simp] theorem key_withRun : (n.withRun run).key = n.key := rfl

@[simp] theorem result_withRun : (n.withRun run).result = n.result := rfl

@[simp] theorem bare_withRun : (n.withRun run).bare = n.bare := rfl

theorem isClaimedBy_withRun (r : RunId) (n : TestNode) : (n.withRun (some r)).isClaimedBy r :=
  isClaimedBy_iff.mpr rfl

theorem start_withRun (h : n.isClaimedBy r) :
    ((n.withRun (some r')).start? r').getD (n.withRun (some r')) =
      ((n.start? r).getD n).withRun (some r') := by
  unfold start?
  rw [result_withRun]
  cases n.result with
  | none => rfl
  | some x =>
      dsimp only
      rw [h, isClaimedBy_withRun]
      split <;> rfl

theorem close_withRun (h : n.isClaimedBy r) {children children' : List TestTree}
    (hleaf : n.isLeaf children = n.isLeaf children') :
    (n.withRun (some r')).close r' children' = (n.close r children).withRun (some r') := by
  have hleaf' : (n.withRun (some r')).isLeaf children' = n.isLeaf children := hleaf.symm
  unfold close
  rw [result_withRun]
  cases n.result with
  | none => rfl
  | some x =>
      dsimp only
      rw [h, isClaimedBy_withRun, hleaf']
      split <;> rfl

end TestNode

namespace TestTree

/-- The tree with all nodes as nodes of another run, or of none. -/
def withRun (run : Option RunId) (t : TestTree) : TestTree := t.rebuild fun n _ => n.withRun run

variable {t : TestTree} {run : Option RunId} {r : RunId} {f g : NodeChange}

@[simp] theorem info_withRun : (t.withRun run).info = t.info.withRun run :=
  info_rebuild _ t

theorem withRun_node (info : TestNode) (children : List TestTree) :
    (node info children).withRun run = .node (info.withRun run) (children.map (withRun run)) :=
  rebuild_node _ info children

theorem withRun_frame (run : Option RunId) (t : TestTree) : (t.withRun run).frame = t.frame :=
  rebuild_frame (fun _ _ => TestNode.bare_withRun) t

/-- What siblings show together takes no notice of runs. -/
@[simp] theorem combined_withRun (children : List TestTree) :
    combined (children.map (withRun run)) = combined children := by
  rw [combined, combined, List.filterMap_map]
  refine congrArg _ (List.filterMap_congr fun c _ => ?_)
  rw [Function.comp_apply, info_withRun, TestNode.result_withRun]

theorem settled_withRun (info : TestNode) (children : List TestTree) :
    settled (info.withRun run) (children.map (withRun run)) =
      (settled info children).withRun run := by
  unfold settled
  rw [combined_withRun]
  cases combined children <;> rfl

/-- A change for the nodes of one run and one for those of another, alike at every node, make of
trees alike what is alike. -/
theorem rebuild_withRun
    (h : ∀ n cs, n.isClaimedBy r → g (n.withRun run) (cs.map (withRun run)) =
      (f n cs).withRun run)
    (hclaimed : ∀ y ∈ t.subtrees, y.info.isClaimedBy r) :
    (t.withRun run).rebuild g = (t.rebuild f).withRun run := by
  induction t with
  | node info children ih =>
      obtain ⟨hroot, hchildren⟩ := forall_subtrees_node.mp hclaimed
      have hmap : (children.map (withRun run)).map (rebuild g) =
          (children.map (rebuild f)).map (withRun run) := by
        rw [List.map_map, List.map_map]
        exact List.map_congr_left fun c hc => ih c hc (hchildren c hc)
      rw [withRun_node, rebuild_node, rebuild_node, withRun_node, hmap]
      exact congrArg (node · _) (h info _ hroot)

theorem nodes_withRun (t : TestTree) :
    (t.withRun run).nodes = t.nodes.map (TestNode.withRun run) := by
  rw [nodes_eq_map_subtrees, nodes_eq_map_subtrees, withRun, subtrees_rebuild, List.map_map,
    List.map_map]
  exact List.map_congr_left fun s _ => info_rebuild _ s

theorem specsNamed_withRun (t : TestTree) (names : List String) :
    (t.withRun run).specsNamed names = (t.specsNamed names).map (TestNode.withRun run) := by
  have hspecs : (t.withRun run).specs = t.specs.map (TestNode.withRun run) := by
    rw [specs, nodes_withRun, List.filter_map]
    rfl
  exact specsNamed_eq_map (fun _ => TestNode.bare_withRun) hspecs names

end TestTree

namespace RunSession

variable {s s' : RunSession} {t t' sub sub₁ sub₂ : TestTree} {file : String} {e : RunEvent}

/-- The candidates of a record are the same nodes. -/
theorem named_withRun (r : SpecRecord) (run : Option RunId) :
    named file (sub.withRun run) r = (named file sub r).map (TestNode.withRun run) := by
  unfold named
  split
  · exact specsNamed_withRun sub r.names
  · rfl

theorem target?_withRun (hseen : s'.seen = s.seen) (r : SpecRecord) (run : Option RunId) :
    s'.target? file (sub.withRun run) r = (s.target? file sub r).map (TestNode.withRun run) := by
  rw [target?, target?, named_withRun, hseen, List.getElem?_map]

/-- Recording a result takes no notice of runs. -/
theorem recording_withRun (key : NodeKey) (r : RunResult) (run : Option RunId) (n : TestNode)
    (cs : List TestTree) :
    recording key r (n.withRun run) (cs.map (withRun run)) =
      (recording key r n cs).withRun run := by
  unfold recording TestTree.around
  rw [TestNode.key_withRun, settled_withRun]
  split
  · dsimp only
    rw [TestNode.key_withRun]
    split <;> rfl
  · split <;> rfl

/-- Closing a run treats its nodes as closing another treats the nodes of that. -/
theorem closing_withRun {r : RunId} {n : TestNode} (h : n.isClaimedBy r) (run : RunId)
    (cs : List TestTree) :
    closing run (n.withRun (some run)) (cs.map (withRun (some run))) =
      (closing r n cs).withRun (some run) := by
  have hleaf : n.isLeaf cs = n.isLeaf (cs.map (withRun (some run))) := by
    rw [TestNode.isLeaf, TestNode.isLeaf, List.isEmpty_map]
  rw [closing, TestNode.close_withRun h hleaf, settled_withRun]
  rfl

theorem withLog_withRun (houtput : s'.output = s.output) {n : TestNode} (h : n.isClaimedBy s.run) :
    s'.withLog (n.withRun (some s'.run)) = (s.withLog n).withRun (some s'.run) := by
  have hlog : s'.log? = s.log? := by rw [log?, log?, houtput]
  have htakes : s'.takesLog (n.withRun (some s'.run)) = s.takesLog n := by
    rw [takesLog, takesLog, h, TestNode.isClaimedBy_withRun, TestNode.result_withRun]
  unfold withLog
  rw [hlog, htakes]
  cases s.log? with
  | none => rfl
  | some log =>
      dsimp only
      split <;> rfl

theorem mapRoot_withLog_withRun (houtput : s'.output = s.output)
    (hroot : sub.info.isClaimedBy s.run) :
    mapRoot s'.withLog (sub.withRun (some s'.run)) =
      (mapRoot s.withLog sub).withRun (some s'.run) := by
  cases sub with
  | node info children =>
      have hlog := withLog_withRun houtput (show info.isClaimedBy s.run from hroot)
      rw [withRun_node, mapRoot_node, mapRoot_node, withRun_node, hlog]

/-- Sessions that have seen the same do the same with an event, each to its own nodes. -/
theorem ScopeStep.withRun (h : ScopeStep s file sub e sub₁)
    (h' : ScopeStep s' file (sub.withRun (some s'.run)) e sub₂) (hkeyed : sub.Keyed)
    (hclaimed : ∀ y ∈ sub.subtrees, y.info.isClaimedBy s.run) (hseen : s'.seen = s.seen)
    (houtput : s'.output = s.output) (hfinished : s'.finished = s.finished) :
    sub₂ = sub₁.withRun (some s'.run) := by
  have hkeyed' : (sub.withRun (some s'.run)).Keyed :=
    hkeyed.of_frame_eq (withRun_frame _ sub)
  cases h with
  | started =>
      cases h' with
      | started =>
          rw [touch_eq_rebuild, touch_eq_rebuild]
          exact rebuild_withRun (fun n _ hn => TestNode.start_withRun hn) hclaimed
  | @recorded r status n _ log hstatus htarget hown hreplaced =>
      have htarget' : s'.target? file (sub.withRun (some s'.run)) r =
          some (n.withRun (some s'.run)) := by
        rw [target?_withRun hseen, htarget, Option.map_some]
      cases h' with
      | @recorded _ status' n' _ log' hstatus' htarget'' hown' hreplaced' =>
          obtain rfl := Option.some.inj (hstatus.symm.trans hstatus')
          obtain rfl := Option.some.inj (htarget'.symm.trans htarget'')
          rw [hreplaced.eq_rebuild hkeyed fun y hy hykey => by
              rw [(hkeyed.of_mem_subtrees hy).mapRoot_eq_rebuild, hykey],
            hreplaced'.eq_rebuild hkeyed' fun y hy hykey => by
              rw [(hkeyed'.of_mem_subtrees hy).mapRoot_eq_rebuild, hykey]]
          refine rebuild_withRun (fun m cs _ => ?_) hclaimed
          exact recording_withRun n.key _ (some s'.run) m cs
      | ignored hignored =>
          rcases hignored with hnone | hforeign
          · rw [hstatus] at hnone
            cases hnone
          · exact absurd (TestNode.isClaimedBy_withRun s'.run n) (hforeign _ htarget')
  | @ignored r hignored =>
      cases h' with
      | ignored _ => rfl
      | @recorded _ status' n' _ log' hstatus' htarget' hown' hreplaced' =>
          rw [target?_withRun hseen, Option.map_eq_some_iff] at htarget'
          obtain ⟨n, htarget, -⟩ := htarget'
          rcases hignored with hnone | hforeign
          · rw [hstatus'] at hnone
            cases hnone
          · obtain ⟨y, hy, rfl⟩ := mem_nodes.mp (mem_subtree_of_target? htarget).1
            exact absurd (hclaimed y hy) (hforeign _ htarget)
  | exited hopen =>
      cases h' with
      | closed hclosed =>
          rw [hfinished, hopen] at hclosed
          cases hclosed
      | exited _ =>
          have hroot : (sub.rebuild (closing s.run)).info.isClaimedBy s.run := by
            rw [(calm_closing s.run).isClaimedBy]
            exact hclaimed sub (self_mem_subtrees sub)
          rw [finish_eq_rebuild, finish_eq_rebuild,
            rebuild_withRun (fun n cs hn => closing_withRun hn s'.run cs) hclaimed]
          exact mapRoot_withLog_withRun houtput hroot
  | closed hclosed =>
      cases h' with
      | closed _ => rfl
      | exited hopen =>
          rw [hfinished, hclosed] at hopen
          cases hopen
  | suite r | malformed fault | output line =>
      cases h'
      rfl

/-! ### Two sessions over one scope -/

/-- Two sessions over one scope have seen the same, and their trees agree there, but that the
nodes belong to the run of the one or of the other. -/
structure Alike (s : RunSession) (t : TestTree) (s' : RunSession) (t' sub : TestTree) : Prop where
  keyed : t.Keyed
  keyed' : t'.Keyed
  root : t.key = .root
  name : t'.info.name = t.info.name
  scope : s'.scope = s.scope
  seen : s'.seen = s.seen
  output : s'.output = s.output
  finished : s'.finished = s.finished
  found : t.find? s.scope = some sub
  found' : t'.find? s.scope = some (sub.withRun (some s'.run))
  claimed : ∀ y ∈ sub.subtrees, y.info.isClaimedBy s.run

namespace Alike

/-- Sessions that begin over the same subtree are alike. -/
theorem start (hkeyed : t.Keyed) (hkeyed' : t'.Keyed) (hroot : t.key = .root)
    (hname : t'.info.name = t.info.name) {scope : NodeKey} (hsub : t.find? scope = some sub)
    (hsub' : t'.find? scope = some sub) (run run' : RunId) :
    ∃ sub₁, Alike (RunSession.start t scope run).1 (RunSession.start t scope run).2.1
      (RunSession.start t' scope run').1 (RunSession.start t' scope run').2.1 sub₁ := by
  have hframe := start_frame t scope run
  have hframe' := start_frame t' scope run'
  refine ⟨(sub.touch fun n => some (n.prepare run)).1, hkeyed.of_frame_eq hframe,
    hkeyed'.of_frame_eq hframe', (key_eq_of_frame_eq hframe).trans hroot, ?_, rfl, rfl, rfl, rfl,
    find?_start hkeyed hsub run, (find?_start hkeyed' hsub' run').trans ?_, ?_⟩
  · rw [name_eq_of_frame_eq hframe, name_eq_of_frame_eq hframe', hname]
  · rw [touch_eq_rebuild, touch_eq_rebuild]
    refine congrArg some ?_
    have hclaim : (sub.rebuild (touching fun n => some (n.prepare run))).withRun (some run') =
        sub.rebuild (touching fun n => some (n.prepare run')) :=
      rebuild_rebuild (fun _ _ => rfl) sub
    exact hclaim.symm
  · rw [touch_eq_rebuild]
    refine forall_subtrees_rebuild.mpr fun y _ => ?_
    rw [info_rebuild]
    exact TestNode.isClaimedBy_iff.mpr rfl

theorem seen_apply (h : Alike s t s' t' sub) (e : RunEvent) :
    (s'.apply t' e).1.seen = (s.apply t e).1.seen := by
  by_cases hspec : ∃ r, e = .record (.spec r)
  · obtain ⟨r, rfl⟩ := hspec
    rw [apply_seen h.found, apply_seen (by rw [h.scope]; exact h.found'), h.name, named_withRun,
      List.isEmpty_map, h.seen]
  · have hspec' : ∀ r, e ≠ .record (.spec r) := fun r hr => hspec ⟨r, hr⟩
    rw [apply_seen_of_not_spec hspec', apply_seen_of_not_spec hspec', h.seen]

/-- Sessions that are alike stay so with every event. -/
theorem apply (h : Alike s t s' t' sub) (e : RunEvent) :
    ∃ sub₁, Alike (s.apply t e).1 (s.apply t e).2.1 (s'.apply t' e).1 (s'.apply t' e).2.1
      sub₁ := by
  have hfound' : t'.find? s'.scope = some (sub.withRun (some s'.run)) := by
    rw [h.scope]
    exact h.found'
  obtain ⟨sub₁, hsub₁, hstep⟩ := exists_scopeStep h.keyed h.found e
  obtain ⟨sub₂, hsub₂, hstep'⟩ := exists_scopeStep h.keyed' hfound' e
  rw [h.name] at hstep'
  have hsubkeyed := h.keyed.of_mem_subtrees (mem_subtrees_of_find? h.found).1
  have hsame := hstep.withRun hstep' hsubkeyed h.claimed h.seen h.output h.finished
  refine ⟨sub₁, h.keyed.of_frame_eq (apply_frame s t e),
    h.keyed'.of_frame_eq (apply_frame s' t' e),
    (key_eq_of_frame_eq (apply_frame s t e)).trans h.root, ?_, ?_, h.seen_apply e, ?_, ?_, ?_, ?_,
    ?_⟩
  · rw [name_eq_of_frame_eq (apply_frame s t e), name_eq_of_frame_eq (apply_frame s' t' e), h.name]
  · rw [apply_scope, apply_scope, h.scope]
  · rw [apply_output, apply_output, h.output]
  · rw [apply_finished, apply_finished, h.finished]
  · rwa [apply_scope]
  · rw [apply_scope, apply_run, ← hsame, ← h.scope]
    exact hsub₂
  · obtain ⟨f, hact, htree⟩ := exists_act h.keyed h.root s (.event e)
    have htree' : (s.apply t e).2.1 = t.rebuild f := htree
    rw [htree', find?_rebuild hact.calm.bare h.keyed h.found] at hsub₁
    obtain rfl := Option.some.inj hsub₁
    refine forall_subtrees_rebuild.mpr fun y hy => ?_
    rw [hact.calm.isClaimedBy, apply_run]
    exact h.claimed y hy

/-- A change elsewhere in the tree leaves the sessions alike. -/
theorem elsewhere (h : Alike s t s' t' sub) {f : NodeChange}
    (hf : ∀ info children, (f info children).bare = info.bare) (hkept : sub.rebuild f = sub) :
    Alike s (t.rebuild f) s' t' sub where
  keyed := h.keyed.of_frame_eq (rebuild_frame hf t)
  keyed' := h.keyed'
  root := (key_rebuild hf t).trans h.root
  name := h.name.trans (name_eq_of_frame_eq (rebuild_frame hf t)).symm
  scope := h.scope
  seen := h.seen
  output := h.output
  finished := h.finished
  found := by rw [find?_rebuild hf h.keyed h.found, hkept]
  found' := h.found'
  claimed := h.claimed

/-- What the one session has in its scope the other one has there too. -/
theorem node? {y : TestTree} (h : Alike s t s' t' sub) (hy : y ∈ t.subtrees)
    (hcovers : s.scope.covers y.key) : t'.node? y.key = some (y.info.withRun (some s'.run)) := by
  obtain ⟨hsub, hkey⟩ := mem_subtrees_of_find? h.found
  have hbelow : y ∈ sub.subtrees := h.keyed.mem_subtrees_of_covers hsub hy (hkey ▸ hcovers)
  have hmem := mem_subtrees_trans (mem_subtrees_rebuild hbelow) (mem_subtrees_of_find? h.found').1
  have hfound := h.keyed'.find?_key hmem
  rw [key_rebuild fun _ _ => TestNode.bare_withRun] at hfound
  rw [TestTree.node?, hfound, Option.map_some, info_rebuild]

end Alike

end RunSession

end SpecExplorer
