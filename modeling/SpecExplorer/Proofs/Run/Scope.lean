/-
# A session within its scope

A session works on the whole tree, but what it does to the subtree of its scope depends on that
subtree and the name of the file alone. `ScopeStep` lists what one event can do there. Above the
scope a session only settles nodes from their children, and nowhere does it touch the frame.
-/
import SpecExplorer.Proofs.Tree.Replaced
import SpecExplorer.Run.Session

namespace SpecExplorer

open TestTree

namespace RunSession

/-- Hands a session the events of a run one after the other, each with the tree that the ones
before have left. -/
def applyAll (s : RunSession) (t : TestTree) : List RunEvent → RunSession × TestTree
  | [] => (s, t)
  | e :: rest => applyAll (s.apply t e).1 (s.apply t e).2.1 rest

theorem applyAll_append (s : RunSession) (t : TestTree) (before after : List RunEvent) :
    s.applyAll t (before ++ after) =
      (s.applyAll t before).1.applyAll (s.applyAll t before).2 after := by
  induction before generalizing s t with
  | nil => rfl
  | cons e rest ih => exact ih _ _

/-- Starts a run over a scope and hands it the events of the run. -/
def play (t : TestTree) (scope : NodeKey) (run : RunId) (events : List RunEvent) :
    RunSession × TestTree :=
  (start t scope run).1.applyAll (start t scope run).2.1 events

theorem play_append_singleton (t : TestTree) (scope : NodeKey) (run : RunId)
    (past : List RunEvent) (e : RunEvent) : play t scope run (past ++ [e]) =
      (((play t scope run past).1.apply (play t scope run past).2 e).1,
        ((play t scope run past).1.apply (play t scope run past).2 e).2.1) :=
  applyAll_append _ _ past [e]

/-! ### What a session leaves alone -/

@[simp] theorem applySpec_scope (s : RunSession) (t : TestTree) (r : SpecRecord)
    (status : RunStatus) : (s.applySpec t r status).1.scope = s.scope := by
  simp only [applySpec]
  repeat' split
  all_goals rfl

@[simp] theorem applySpec_run (s : RunSession) (t : TestTree) (r : SpecRecord)
    (status : RunStatus) : (s.applySpec t r status).1.run = s.run := by
  simp only [applySpec]
  repeat' split
  all_goals rfl

@[simp] theorem finish_scope (s : RunSession) (t : TestTree) :
    (s.finish t).1.scope = s.scope := by
  unfold finish
  split <;> rfl

@[simp] theorem finish_run (s : RunSession) (t : TestTree) : (s.finish t).1.run = s.run := by
  unfold finish
  split <;> rfl

@[simp] theorem apply_scope (s : RunSession) (t : TestTree) (e : RunEvent) :
    (s.apply t e).1.scope = s.scope := by
  unfold apply
  repeat' split
  all_goals simp

@[simp] theorem apply_run (s : RunSession) (t : TestTree) (e : RunEvent) :
    (s.apply t e).1.run = s.run := by
  unfold apply
  repeat' split
  all_goals simp

@[simp] theorem applySpec_finished (s : RunSession) (t : TestTree) (r : SpecRecord)
    (status : RunStatus) : (s.applySpec t r status).1.finished = s.finished := by
  simp only [applySpec]
  repeat' split
  all_goals rfl

/-- Whether an event is the exit of a run. -/
def isExit : RunEvent → Bool
  | .exited _ _ => true
  | _ => false

/-- A session is finished once its run has exited. -/
theorem apply_finished (s : RunSession) (t : TestTree) (e : RunEvent) :
    (s.apply t e).1.finished = (s.finished || isExit e) := by
  unfold apply isExit
  repeat' split
  all_goals simp_all [finish]
  split <;> simp_all

theorem start_frame (t : TestTree) (scope : NodeKey) (run : RunId) :
    (start t scope run).2.1.frame = t.frame :=
  prepareToRun_frame t scope run

theorem applySpec_frame (s : RunSession) (t : TestTree) (r : SpecRecord) (status : RunStatus) :
    (s.applySpec t r status).2.1.frame = t.frame := by
  simp only [applySpec]
  repeat' split
  all_goals first | rfl | exact applyResult_frame t _ _

theorem showLog_frame (s : RunSession) (t : TestTree) (changed : List NodeKey) :
    (s.showLog t changed).1.frame = t.frame := by
  unfold showLog
  split
  · split
    · apply modify_frame
      intro n
      rfl
    · rfl
  · rfl

theorem finish_frame (s : RunSession) (t : TestTree) : (s.finish t).2.1.frame = t.frame := by
  unfold finish
  split
  · rfl
  · exact (showLog_frame s _ _).trans (finishRun_frame t _ _)

theorem abort_frame (s : RunSession) (t : TestTree) : (s.abort t).2.1.frame = t.frame :=
  revertPending_frame t s.scope s.run

/-- No event changes what comes from the outline. -/
theorem apply_frame (s : RunSession) (t : TestTree) (e : RunEvent) :
    (s.apply t e).2.1.frame = t.frame := by
  unfold apply
  split
  · exact markRunning_frame t _ _
  · split
    · exact applySpec_frame s t _ _
    · rfl
  · rfl
  · rfl
  · rfl
  · exact finish_frame s t

/-! ### Records -/

/-- A known state is a final status. -/
theorem isTerminal_of_status? {r : SpecRecord} {status : RunStatus}
    (h : r.status? = some status) : status.isTerminal := by
  unfold SpecRecord.status? SpecRecord.statusOf? at h
  split at h <;> cases h <;> rfl

/-- The specs of a subtree that a record may be about, in a file of a name. -/
def named (file : String) (sub : TestTree) (r : SpecRecord) : List TestNode :=
  if r.fileName?.all (· == file) then sub.specsNamed r.names else []

theorem candidates_eq {s : RunSession} {t sub : TestTree} (hsub : t.find? s.scope = some sub)
    (r : SpecRecord) : s.candidates t r = named t.info.name sub r := by
  rw [candidates, hsub]
  rfl

/-- The spec whose turn it is when a record of its name path comes. -/
def target? (s : RunSession) (file : String) (sub : TestTree) (r : SpecRecord) :
    Option TestNode :=
  (named file sub r)[s.seen.count r.names]?

/-- A record sets the result of its target, if the run still has a claim on it. -/
theorem applySpec_tree {s : RunSession} {t sub : TestTree} (hsub : t.find? s.scope = some sub)
    (r : SpecRecord) (status : RunStatus) :
    (s.applySpec t r status).2.1 =
      match s.target? t.info.name sub r with
      | some n =>
        if n.isClaimedBy s.run then (t.applyResult n.key (r.result status)).1 else t
      | none => t := by
  have hcandidates : ({ s with records := s.records + 1 } : RunSession).candidates t r =
      named t.info.name sub r := candidates_eq hsub r
  unfold applySpec target?
  simp only [hcandidates]
  cases named t.info.name sub r with
  | nil => rfl
  | cons first others =>
      dsimp only
      cases (first :: others)[s.seen.count r.names]? with
      | none => rfl
      | some n =>
          dsimp only
          split <;> rfl

/-- A name path is counted where it names specs in scope. -/
theorem applySpec_seen {s : RunSession} {t sub : TestTree} (hsub : t.find? s.scope = some sub)
    (r : SpecRecord) (status : RunStatus) :
    (s.applySpec t r status).1.seen =
      if (named t.info.name sub r).isEmpty then s.seen else r.names :: s.seen := by
  have hcandidates : ({ s with records := s.records + 1 } : RunSession).candidates t r =
      named t.info.name sub r := candidates_eq hsub r
  unfold applySpec
  simp only [hcandidates]
  cases named t.info.name sub r with
  | nil => rfl
  | cons first others =>
      dsimp only
      split
      · rfl
      · split <;> rfl

/-- The scope's own node with the log of the run, where it can show it. -/
def withLog (s : RunSession) (n : TestNode) : TestNode :=
  match s.log? with
  | some log =>
    if s.takesLog n then
      { n with result := n.result.map fun r => { r with output := some log } }
    else n
  | none => n

@[simp] theorem bare_withLog (s : RunSession) (n : TestNode) : (s.withLog n).bare = n.bare := by
  unfold withLog
  repeat' split
  all_goals rfl

@[simp] theorem run_withLog (s : RunSession) (n : TestNode) : (s.withLog n).run = n.run := by
  unfold withLog
  repeat' split
  all_goals rfl

theorem log?_eq_some {s : RunSession} {log : String} (h : s.log? = some log) :
    s.output ≠ [] ∧ log = String.intercalate "\n" s.output := by
  unfold log? at h
  split at h
  next => cases h
  next hne =>
      rw [List.isEmpty_iff] at hne
      exact ⟨hne, (Option.some.inj h).symm⟩

/-- The log changes nothing but the output of a node. -/
theorem withLog_cases (s : RunSession) (n : TestNode) :
    s.withLog n = n ∨ ∃ r log, n.result = some r ∧ r.output = none ∧ s.log? = some log ∧
      s.withLog n = { n with result := some { r with output := some log } } := by
  unfold withLog
  split
  next log hlog =>
      split
      next htakes =>
          rw [takesLog, Bool.and_eq_true, Option.any_eq_true] at htakes
          obtain ⟨r, hr, hout⟩ := htakes.2
          exact .inr ⟨r, log, hr, by simpa using hout, hlog, by rw [hr]; rfl⟩
      next => exact .inl rfl
  next => exact .inl rfl

/-! ### One event -/

/-- What one event does to the subtree of a session's scope. -/
inductive ScopeStep (s : RunSession) (file : String) (sub : TestTree) :
    RunEvent → TestTree → Prop
  | /-- The pending nodes of the run begin to run. -/
    started : ScopeStep s file sub .started (sub.touch (·.start? s.run)).1
  | /-- A record sets the result of its target, and what lies above is settled. -/
    recorded {r : SpecRecord} {status : RunStatus} {n : TestNode} {sub' : TestTree}
      {log : List NodeKey} (hstatus : r.status? = some status)
      (htarget : s.target? file sub r = some n) (hclaimed : n.isClaimedBy s.run)
      (hreplaced : Replaced n.key (mapRoot fun m => { m with result := some (r.result status) })
        settled sub sub' log) : ScopeStep s file sub (.record (.spec r)) sub'
  | /-- A record has no known state, no target, or one that another run has claimed. -/
    ignored {r : SpecRecord}
      (hignored : r.status? = none ∨
        ∀ n, s.target? file sub r = some n → ¬ n.isClaimedBy s.run) :
      ScopeStep s file sub (.record (.spec r)) sub
  | /-- The run is closed, and the scope shows its log. -/
    exited {success : Bool} {code : Option Int} (hopen : s.finished = false) :
      ScopeStep s file sub (.exited success code) (mapRoot s.withLog (sub.finish s.run).1)
  | /-- The run has been closed before. -/
    closed {success : Bool} {code : Option Int} (hclosed : s.finished = true) :
      ScopeStep s file sub (.exited success code) sub
  | suite (r : SuiteRecord) : ScopeStep s file sub (.record (.suite r)) sub
  | malformed (fault : MalformedRecord) : ScopeStep s file sub (.malformed fault) sub
  | output (line : String) : ScopeStep s file sub (.output line) sub

/-- No step changes the frame of the scope. -/
theorem ScopeStep.frame_eq {s : RunSession} {file : String} {sub sub' : TestTree} {e : RunEvent}
    (h : ScopeStep s file sub e sub') : sub'.frame = sub.frame := by
  cases h with
  | started => exact touch_frame (fun _ _ => TestNode.bare_of_start?) sub
  | recorded _ _ _ hreplaced =>
      exact hreplaced.frame_eq (mapRoot_frame fun _ => rfl) bare_settled
  | exited _ => exact (mapRoot_frame s.bare_withLog _).trans (TestTree.finish_frame s.run sub)
  | ignored | closed | suite | malformed | output => rfl

section OneEvent

variable {s : RunSession} {t sub : TestTree}

theorem mem_subtree_of_target? {file : String} {r : SpecRecord} {n : TestNode}
    (h : s.target? file sub r = some n) : n ∈ sub.nodes ∧ n.kind = .spec := by
  have hmem : n ∈ named file sub r := List.mem_of_getElem? h
  unfold named at hmem
  split at hmem
  · have hspec := List.mem_filter.mp (List.mem_filter.mp hmem).1
    exact ⟨hspec.1, by simpa using hspec.2⟩
  · cases hmem

/-- Touching a tree at a key touches the subtree that the key finds. -/
theorem find?_touchAt (hkeyed : t.Keyed) {key : NodeKey} (hsub : t.find? key = some sub)
    {change : TestNode → Option TestNode}
    (hbare : ∀ n n', change n = some n' → n'.bare = n.bare) :
    (t.touchAt key change).1.find? key = some (sub.touch change).1 := by
  obtain ⟨x, log, -, -, hreplaced⟩ := replaced_touchAt (contains_of_find? hsub) change
  exact hreplaced.find?_changed hkeyed (touch_frame hbare) bare_kept hsub

/-- Preparing a run claims every node of the scope. -/
theorem find?_start (hkeyed : t.Keyed) {scope : NodeKey} (hsub : t.find? scope = some sub)
    (run : RunId) :
    (start t scope run).2.1.find? scope = some (sub.touch fun n => some (n.prepare run)).1 :=
  find?_touchAt hkeyed hsub fun _ _ => TestNode.bare_of_prepare

theorem find?_finishRun (hkeyed : t.Keyed) {key : NodeKey} (hsub : t.find? key = some sub)
    (run : RunId) : (t.finishRun key run).1.find? key = some (sub.finish run).1 := by
  obtain ⟨x, log, -, -, hreplaced⟩ := replaced_finishRun (contains_of_find? hsub) run
  exact hreplaced.find?_changed hkeyed (TestTree.finish_frame run) bare_settled hsub

theorem find?_modify (hkeyed : t.Keyed) {key : NodeKey} (hsub : t.find? key = some sub)
    {f : TestNode → TestNode} (hf : ∀ n, (f n).bare = n.bare) :
    (t.modify key f).find? key = some (mapRoot f sub) := by
  obtain ⟨log, hreplaced⟩ := replaced_modify (contains_of_find? hsub) f
  exact hreplaced.find?_changed hkeyed (mapRoot_frame hf) bare_kept hsub

theorem find?_showLog (hkeyed : t.Keyed) (hsub : t.find? s.scope = some sub)
    (changed : List NodeKey) :
    (s.showLog t changed).1.find? s.scope = some (mapRoot s.withLog sub) := by
  obtain ⟨info, children⟩ := sub
  have hnode : t.node? s.scope = some info := by
    rw [node?, hsub]
    rfl
  unfold showLog
  rw [hnode, mapRoot_node, withLog]
  cases s.log? with
  | none => exact hsub
  | some log =>
      dsimp only
      split
      · exact find?_modify hkeyed hsub fun _ => rfl
      · exact hsub

/-- A record of a spec makes one of the listed steps at the session's scope. -/
theorem exists_scopeStep_applySpec (hkeyed : t.Keyed) (hsub : t.find? s.scope = some sub)
    {r : SpecRecord} {status : RunStatus} (hstatus : r.status? = some status) :
    ∃ sub', (s.applySpec t r status).2.1.find? s.scope = some sub' ∧
      ScopeStep s t.info.name sub (.record (.spec r)) sub' := by
  rw [applySpec_tree hsub]
  cases htarget : s.target? t.info.name sub r with
  | none => exact ⟨sub, hsub, .ignored (.inr fun n hn => by simp [htarget] at hn)⟩
  | some n =>
      dsimp only
      by_cases hclaimed : n.isClaimedBy s.run
      · rw [if_pos hclaimed]
        have hn : sub.contains n.key := contains_of_mem_nodes (mem_subtree_of_target? htarget).1
        have hcontains : t.contains n.key :=
          contains_trans hn (mem_subtrees_of_find? hsub).1
        obtain ⟨log, -, hreplaced⟩ := replaced_applyResult hcontains (r.result status)
        obtain ⟨sub', log', hsub', hwithin⟩ := hreplaced.find?_within hkeyed
          (mapRoot_frame fun _ => rfl) bare_settled hsub hn
        exact ⟨sub', hsub', .recorded hstatus htarget hclaimed hwithin⟩
      · rw [if_neg hclaimed]
        refine ⟨sub, hsub, .ignored (.inr fun m hm => ?_)⟩
        obtain rfl : n = m := Option.some.inj (htarget.symm.trans hm)
        exact hclaimed

/-- Every event makes one of the listed steps at the session's scope. -/
theorem exists_scopeStep (hkeyed : t.Keyed) (hsub : t.find? s.scope = some sub) (e : RunEvent) :
    ∃ sub', (s.apply t e).2.1.find? s.scope = some sub' ∧
      ScopeStep s t.info.name sub e sub' := by
  cases e with
  | started =>
      exact ⟨_, find?_touchAt hkeyed hsub fun _ _ => TestNode.bare_of_start?, .started⟩
  | record record =>
      cases record with
      | suite r => exact ⟨sub, hsub, .suite r⟩
      | spec r =>
          rw [apply]
          cases hstatus : r.status? with
          | none => exact ⟨sub, hsub, .ignored (.inl hstatus)⟩
          | some status => exact exists_scopeStep_applySpec hkeyed hsub hstatus
  | malformed fault => exact ⟨sub, hsub, .malformed fault⟩
  | output line => exact ⟨sub, hsub, .output line⟩
  | exited success code =>
      rw [apply, finish]
      cases hfinished : s.finished with
      | true => exact ⟨sub, hsub, .closed hfinished⟩
      | false =>
          have hkeyed' := hkeyed.of_frame_eq (finishRun_frame t s.scope s.run)
          exact ⟨_, find?_showLog hkeyed' (find?_finishRun hkeyed hsub s.run) _,
            .exited hfinished⟩

end OneEvent

end RunSession

end SpecExplorer
