/-
# Acts of a session

A session that has begun can be handed an event, be finished, or be aborted. Whatever it does to
the tree then is one of five acts, each a change around the scope or around a spec in it. `Act`
lists them with what they require, so what a session can do anywhere in the tree, within its scope,
above it or apart from it, is read off the act and not off the session.
-/
import SpecExplorer.Proofs.Run.Calm
import SpecExplorer.Proofs.Run.Scope

namespace SpecExplorer

open TestTree

namespace RunSession

/-! ### Moves -/

/-- What can be done with a session that has begun. -/
inductive Move where
  | event (e : RunEvent)
  | finish
  | abort
  deriving Repr

namespace Move

/-- Whether a move closes a run that is not closed yet. -/
def closes : Move → Bool
  | .event e => isExit e
  | .finish => true
  | .abort => false

/-- Whether a session is finished after a move. -/
def ends : Move → Bool
  | .abort => true
  | m => m.closes

end Move

/-- Makes a move of a session and gives the nodes that changed. -/
def move (s : RunSession) (t : TestTree) : Move → RunSession × TestTree × List NodeKey
  | .event e => s.apply t e
  | .finish => s.finish t
  | .abort => s.abort t

section Kept

variable (s : RunSession) (t : TestTree) (m : Move)

@[simp] theorem move_scope : (s.move t m).1.scope = s.scope := by
  cases m with
  | event e => exact apply_scope s t e
  | finish => exact finish_scope s t
  | abort => rfl

@[simp] theorem move_run : (s.move t m).1.run = s.run := by
  cases m with
  | event e => exact apply_run s t e
  | finish => exact finish_run s t
  | abort => rfl

/-- A session is finished once it was closed or aborted. -/
theorem move_finished : (s.move t m).1.finished = (s.finished || m.ends) := by
  cases m with
  | event e => exact apply_finished s t e
  | finish =>
      rw [move, finish]
      cases hfinished : s.finished with
      | true => exact hfinished
      | false => rfl
  | abort => exact (Bool.or_true _).symm

end Kept

theorem applyAll_frame (s : RunSession) (t : TestTree) (events : List RunEvent) :
    (s.applyAll t events).2.frame = t.frame := by
  induction events generalizing s t with
  | nil => rfl
  | cons e rest ih => exact (ih _ _).trans (apply_frame s t e)

theorem play_frame (t : TestTree) (scope : NodeKey) (run : RunId) (events : List RunEvent) :
    (play t scope run events).2.frame = t.frame :=
  (applyAll_frame _ _ events).trans (start_frame t scope run)

/-! ### The log at the scope -/

/-- A node with the log of the run, if it is the scope and can show it. -/
def logged (s : RunSession) (n : TestNode) : TestNode :=
  if n.key = s.scope then s.withLog n else n

section Log

variable (s : RunSession)

/-- The log changes neither the status of a node nor its time. -/
theorem logged_cases (n : TestNode) :
    s.logged n = n ∨ ∃ r log, n.result = some r ∧ r.output = none ∧ n.isClaimedBy s.run ∧
      s.logged n = { n with result := some { r with output := some log } } := by
  unfold logged
  split
  next =>
      unfold withLog
      split
      next log hlog =>
          split
          next htakes =>
              rw [takesLog, Bool.and_eq_true, Option.any_eq_true] at htakes
              obtain ⟨hclaimed, r, hr, hout⟩ := htakes
              exact .inr ⟨r, log, hr, by simpa using hout, hclaimed, by rw [hr]; rfl⟩
          next => exact .inl rfl
      next => exact .inl rfl
  next => exact .inl rfl

@[simp] theorem status_logged (n : TestNode) : (s.logged n).status = n.status := by
  rcases s.logged_cases n with heq | ⟨r, log, hr, -, -, heq⟩
  · rw [heq]
  · simp [heq, TestNode.status, hr]

@[simp] theorem nanos?_logged (n : TestNode) : (s.logged n).nanos? = n.nanos? := by
  rcases s.logged_cases n with heq | ⟨r, log, hr, -, -, heq⟩
  · rw [heq]
  · simp [heq, TestNode.nanos?, hr]

theorem isUnfinished_logged (n : TestNode) : (s.logged n).isUnfinished = n.isUnfinished := by
  rw [TestNode.isUnfinished, TestNode.isUnfinished, status_logged]

theorem isFinished_logged (n : TestNode) : (s.logged n).isFinished = n.isFinished := by
  rw [TestNode.isFinished, TestNode.isFinished, status_logged]

theorem result_logged_eq_none_iff {n : TestNode} :
    (s.logged n).result = none ↔ n.result = none := by
  rcases s.logged_cases n with heq | ⟨r, log, hr, -, -, heq⟩
  · rw [heq]
  · simp [heq, hr]

theorem calm_logged : Calm fun n _ => s.logged n where
  bare n _ := by
    rcases s.logged_cases n with heq | ⟨r, log, -, -, -, heq⟩ <;> rw [heq]
    rfl
  run n _ := by rcases s.logged_cases n with heq | ⟨r, log, -, -, -, heq⟩ <;> rw [heq]
  unfinished n _ h := by rwa [isUnfinished_logged] at h

/-- Only a node of the run shows its log. -/
theorem logged_of_not_claimed {n : TestNode} (h : ¬ n.isClaimedBy s.run) : s.logged n = n := by
  rcases s.logged_cases n with heq | ⟨r, log, -, -, hclaimed, -⟩
  · exact heq
  · exact absurd hclaimed h

variable {t : TestTree}

/-- Showing the log rebuilds the tree with it. -/
theorem showLog_eq_rebuild (hkeyed : t.Keyed) (hscope : t.contains s.scope)
    (changed : List NodeKey) :
    (s.showLog t changed).1 = t.rebuild fun n _ => s.logged n := by
  obtain ⟨sub, hsub⟩ := Option.isSome_iff_exists.mp hscope
  obtain ⟨hmem, hkey⟩ := mem_subtrees_of_find? hsub
  have hnode : t.node? s.scope = some sub.info := by rw [node?, hsub, Option.map_some]
  -- The scope is the only node with its key.
  have hscope' : ∀ x ∈ t.subtrees, x.info.key = s.scope → x.info = sub.info := fun x hx hxkey =>
    congrArg info (hkeyed.eq_of_key_eq hx hmem (hxkey.trans hkey.symm))
  unfold showLog
  rw [hnode]
  cases hlog : s.log? with
  | none =>
      refine (rebuild_eq_self fun x _ => ?_).symm
      simp [logged, withLog, hlog]
  | some log =>
      dsimp only
      split
      next htakes =>
          rw [modify_eq_rebuild hkeyed hscope]
          refine rebuild_congr fun x hx => ?_
          unfold logged
          split
          next hxkey => simp [withLog, hlog, hscope' x hx hxkey, htakes]
          next => rfl
      next htakes =>
          refine (rebuild_eq_self fun x hx => ?_).symm
          unfold logged
          split
          next hxkey => simp [withLog, hlog, hscope' x hx hxkey, htakes]
          next => rfl

/-! ### Acts -/

/-- What closing a session makes of a node and its new children. -/
def closure : NodeChange := fun info children =>
  s.logged (around s.scope (closing s.run) settled info children)

theorem calm_closure : Calm s.closure where
  bare _ _ := (s.calm_logged.bare _ []).trans
    (((calm_closing s.run).around calm_settled s.scope).bare _ _)
  run _ _ := (s.calm_logged.run _ []).trans
    (((calm_closing s.run).around calm_settled s.scope).run _ _)
  unfinished _ _ h := ((calm_closing s.run).around calm_settled s.scope).unfinished _ _
    (s.calm_logged.unfinished _ [] h)

theorem closure_apart {n : TestNode} (hbelow : ¬ s.scope.covers n.key)
    (habove : ¬ n.key.covers s.scope) (children : List TestTree) : s.closure n children = n := by
  rw [closure, around_apart hbelow habove, logged, if_neg]
  intro hkey
  exact hbelow (hkey ▸ NodeKey.covers_refl _)

/-- Closing a session settles its scope and what is above it, and changes nothing else. -/
theorem rebuild_closure_cases {t : TestTree} (hkeyed : t.Keyed) :
    t.rebuild s.closure = t ∨
      ∃ n, (n = t.info ∨ n = t.info.close s.run t.children) ∧
        (t.rebuild s.closure).info = s.logged (settled n (t.rebuild s.closure).children) := by
  rw [info_rebuild, children_rebuild]
  by_cases hbelow : s.scope.covers t.key
  · refine .inr ⟨_, .inr rfl, ?_⟩
    rw [closure, around_below hbelow, closing]
    simp [TestNode.close, TestNode.isLeaf]
  · by_cases habove : t.key.covers s.scope
    · refine .inr ⟨_, .inl rfl, ?_⟩
      rw [closure, around_above hbelow habove]
    · exact .inl (hkeyed.rebuild_apart hbelow habove fun _ children hb ha =>
        closure_apart s hb ha children)

/-- Closing the run and showing its log are one change, since what is settled takes no notice of
outputs. -/
theorem rebuild_logged (t : TestTree) :
    (t.rebuild (around s.scope (closing s.run) settled)).rebuild (fun n _ => s.logged n) =
      t.rebuild s.closure := by
  refine rebuild_rebuild (fun info children => ?_) t
  have hsettled : ∀ n, settled n (children.map (rebuild fun n _ => s.logged n)) =
      settled n children := by
    intro n
    unfold settled
    rw [combined_map_congr]
    intro c _
    rw [info_rebuild]
    exact ⟨status_logged s _, nanos?_logged s _⟩
  have hclose : info.close s.run (children.map (rebuild fun n _ => s.logged n)) =
      info.close s.run children := by
    simp [TestNode.close, TestNode.isLeaf]
  unfold around closing
  rw [hclose, hsettled, hsettled]

/-- What a move of a session may do to a tree, as a change of all nodes. -/
inductive Act (s : RunSession) (t : TestTree) : Move → NodeChange → Prop
  | /-- The move has no bearing on the tree. -/
    stay {m : Move} (habort : m ≠ .abort)
      (hcloses : m.closes → s.finished = true ∨ ¬ t.contains s.scope) :
      Act s t m fun info _ => info
  | /-- The pending nodes of the run begin to run. -/
    started : Act s t (.event .started) (around s.scope (touching (·.start? s.run)) kept)
  | /-- A spec in scope that the run has a claim on gets a final result. -/
    recorded {r : SpecRecord} {status : RunStatus} {x : TestTree}
      (hstatus : r.status? = some status) (hx : x ∈ t.subtrees) (hspec : x.info.kind = .spec)
      (hscope : s.scope.covers x.key) (hclaimed : x.info.isClaimedBy s.run) :
      Act s t (.event (.record (.spec r))) (recording x.key (r.result status))
  | /-- The run is closed, and the scope shows its log. -/
    closed {m : Move} (hcloses : m.closes) (hopen : s.finished = false)
      (hscope : t.contains s.scope) : Act s t m s.closure
  | /-- The unfinished nodes of the run become idle. -/
    withdrawn : Act s t .abort (around s.scope (touching (·.revert? s.run)) kept)

variable {s} {m : Move} {f : NodeChange}

theorem Act.calm (h : Act s t m f) : Calm f := by
  cases h with
  | stay => exact calm_kept
  | started => exact (calm_starting s.run).around calm_kept s.scope
  | recorded hstatus => exact calm_recording _ (isTerminal_of_status? hstatus)
  | closed => exact s.calm_closure
  | withdrawn => exact (calm_reverting s.run).around calm_kept s.scope

/-- Nodes neither above nor below the scope stay as they are. -/
theorem Act.apart (h : Act s t m f) {n : TestNode} (hbelow : ¬ s.scope.covers n.key)
    (habove : ¬ n.key.covers s.scope) (children : List TestTree) : f n children = n := by
  cases h with
  | stay => rfl
  | started => exact around_apart hbelow habove children
  | @recorded r status x hstatus hx hspec hscope hclaimed =>
      refine around_apart (fun hcovers => hbelow (NodeKey.covers_trans hscope hcovers))
        (fun hcovers => ?_) children
      exact (NodeKey.covers_or_covers hscope hcovers).elim hbelow habove
  | closed => exact closure_apart s hbelow habove children
  | withdrawn => exact around_apart hbelow habove children

theorem Act.rebuild_apart (h : Act s t m f) {x : TestTree} (hkeyed : x.Keyed)
    (hbelow : ¬ s.scope.covers x.key) (habove : ¬ x.key.covers s.scope) : x.rebuild f = x :=
  hkeyed.rebuild_apart hbelow habove fun _ children hbelow habove => h.apart hbelow habove children

/-- What the start of a run makes of a node. -/
def preparing (scope : NodeKey) (run : RunId) : NodeChange :=
  around scope (touching fun n => some (n.prepare run)) kept

theorem preparing_of_covers {scope : NodeKey} {n : TestNode} (h : scope.covers n.key)
    (run : RunId) (children : List TestTree) :
    preparing scope run n children = n.prepare run :=
  around_below h children

theorem preparing_of_not_covers {scope : NodeKey} {n : TestNode} (h : ¬ scope.covers n.key)
    (run : RunId) (children : List TestTree) : preparing scope run n children = n := by
  rw [preparing, around_kept, if_neg h]

/-- After a session began, the nodes in its scope belong to its run, and the others to the runs
that they belonged to. -/
theorem isClaimedBy_preparing {x : TestTree} {scope : NodeKey} {run r : RunId} :
    (x.rebuild (preparing scope run)).info.isClaimedBy r ↔
      if scope.covers x.key then run = r else x.info.isClaimedBy r := by
  rw [info_rebuild]
  split
  next hcovers =>
      rw [preparing_of_covers hcovers, TestNode.isClaimedBy_iff, TestNode.run_prepare,
        Option.some.injEq]
  next hcovers => rw [preparing_of_not_covers hcovers]

/-- After a session began, the nodes in its scope are under way, and those that were. -/
theorem isUnfinished_preparing {x : TestTree} {scope : NodeKey} {run : RunId} :
    (x.rebuild (preparing scope run)).info.isUnfinished ↔
      scope.covers x.key ∨ x.info.isUnfinished := by
  rw [info_rebuild]
  by_cases hcovers : scope.covers x.key
  · rw [preparing_of_covers hcovers]
    exact iff_of_true (TestNode.isUnfinished_prepare _ _) (.inl hcovers)
  · rw [preparing_of_not_covers hcovers]
    exact (or_iff_right hcovers).symm

theorem bare_preparing (scope : NodeKey) (run : RunId) (n : TestNode)
    (children : List TestTree) : (preparing scope run n children).bare = n.bare := by
  refine bare_around (fun m _ => ?_) bare_kept n children
  rfl

/-! ### Every move is an act -/

section Moves

variable (hkeyed : t.Keyed)

include hkeyed

theorem exists_act_finish (s : RunSession) {m : Move} (hcloses : m.closes)
    (hmove : s.move t m = s.finish t) :
    ∃ f, Act s t m f ∧ (s.move t m).2.1 = t.rebuild f := by
  have habort : m ≠ .abort := by
    rintro rfl
    cases hcloses
  rw [hmove, finish]
  cases hfinished : s.finished with
  | true => exact ⟨_, .stay habort fun _ => .inl hfinished, (rebuild_eq_self fun _ _ => rfl).symm⟩
  | false =>
      by_cases hscope : t.contains s.scope
      · refine ⟨_, .closed hcloses hfinished hscope, ?_⟩
        have hframe := finishRun_frame t s.scope s.run
        rw [← rebuild_logged, ← finishRun_eq_rebuild hkeyed hscope]
        refine showLog_eq_rebuild s (hkeyed.of_frame_eq hframe) ?_ _
        obtain ⟨sub, hsub⟩ := Option.isSome_iff_exists.mp hscope
        exact contains_of_find? (find?_finishRun hkeyed hsub s.run)
      · refine ⟨_, .stay habort fun _ => .inr hscope, ?_⟩
        have hnone : t.node? s.scope = none := by
          simpa [node?, contains] using hscope
        rw [finishRun_of_not_contains hscope, rebuild_eq_self fun _ _ => rfl]
        simp [showLog, hnone]

theorem exists_act_record (s : RunSession) (r : SpecRecord) :
    ∃ f, Act s t (.event (.record (.spec r))) f ∧
      (s.apply t (.record (.spec r))).2.1 = t.rebuild f := by
  have hstay : ∃ f, Act s t (.event (.record (.spec r))) f ∧ t = t.rebuild f :=
    ⟨_, .stay nofun nofun, (rebuild_eq_self fun _ _ => rfl).symm⟩
  rw [apply]
  cases hstatus : r.status? with
  | none => exact hstay
  | some status =>
      cases hsub : t.find? s.scope with
      | none =>
          have hnone : ({ s with records := s.records + 1 } : RunSession).candidates t r = [] := by
            simp [candidates, hsub]
          dsimp only
          rw [applySpec]
          simp only [hnone]
          exact hstay
      | some sub =>
          dsimp only
          rw [applySpec_tree hsub]
          cases htarget : s.target? t.info.name sub r with
          | none => exact hstay
          | some n =>
              dsimp only
              split
              next hclaimed =>
                  obtain ⟨hn, hspec⟩ := mem_subtree_of_target? htarget
                  obtain ⟨x, hx, rfl⟩ := mem_nodes.mp hn
                  obtain ⟨hmem, hkey⟩ := mem_subtrees_of_find? hsub
                  have hxt : x ∈ t.subtrees := mem_subtrees_trans hx hmem
                  have hcovers : s.scope.covers x.key :=
                    hkey ▸ (hkeyed.of_mem_subtrees hmem).covers_of_mem_subtrees hx
                  exact ⟨_, .recorded hstatus hxt hspec hcovers hclaimed,
                    applyResult_eq_rebuild hkeyed (contains_key hxt) _⟩
              next => exact hstay

/-- Every move of a session is one of the acts, over the whole tree. -/
theorem exists_act (hroot : t.key = .root) (s : RunSession) (m : Move) :
    ∃ f, Act s t m f ∧ (s.move t m).2.1 = t.rebuild f := by
  have hstay : ∀ e, isExit e = false → ∃ f, Act s t (.event e) f ∧ t = t.rebuild f := by
    intro e hexit
    refine ⟨_, .stay nofun fun hcloses => ?_, (rebuild_eq_self fun _ _ => rfl).symm⟩
    rw [Move.closes, hexit] at hcloses
    cases hcloses
  cases m with
  | finish => exact exists_act_finish hkeyed s rfl rfl
  | abort => exact ⟨_, .withdrawn, touchAt_eq_rebuild hkeyed hroot s.scope _⟩
  | event e =>
      cases e with
      | started => exact ⟨_, .started, touchAt_eq_rebuild hkeyed hroot s.scope _⟩
      | exited success code => exact exists_act_finish hkeyed s rfl rfl
      | record record =>
          cases record with
          | spec r => exact exists_act_record hkeyed s r
          | suite r => exact hstay _ rfl
      | malformed fault => exact hstay _ rfl
      | output line => exact hstay _ rfl

/-- The start of a run prepares every node of the scope. -/
theorem start_eq_rebuild (hroot : t.key = .root) (scope : NodeKey) (run : RunId) :
    (start t scope run).2.1 = t.rebuild (preparing scope run) :=
  touchAt_eq_rebuild hkeyed hroot scope _

/-- Subtrees neither above nor below the scope stay as they are in any run over it. -/
theorem mem_subtrees_applyAll (hroot : t.key = .root) (s : RunSession) {x : TestTree}
    (hx : x ∈ t.subtrees) (hbelow : ¬ s.scope.covers x.key) (habove : ¬ x.key.covers s.scope)
    (events : List RunEvent) : x ∈ (s.applyAll t events).2.subtrees := by
  induction events generalizing s t with
  | nil => exact hx
  | cons e rest ih =>
      have hframe := s.apply_frame t e
      obtain ⟨f, hact, htree⟩ := exists_act hkeyed hroot s (.event e)
      refine ih (hkeyed.of_frame_eq hframe) ((key_eq_of_frame_eq hframe).trans hroot) _ ?_
        (by rwa [apply_scope]) (by rwa [apply_scope])
      have hkept := hact.rebuild_apart (hkeyed.of_mem_subtrees hx) hbelow habove
      rw [show (s.apply t e).2.1 = t.rebuild f from htree, ← hkept]
      exact mem_subtrees_rebuild hx

theorem mem_subtrees_play (hroot : t.key = .root) {scope : NodeKey} {x : TestTree}
    (hx : x ∈ t.subtrees) (hbelow : ¬ scope.covers x.key) (habove : ¬ x.key.covers scope)
    (run : RunId) (events : List RunEvent) : x ∈ (play t scope run events).2.subtrees := by
  have hframe := start_frame t scope run
  refine mem_subtrees_applyAll (hkeyed.of_frame_eq hframe) ((key_eq_of_frame_eq hframe).trans hroot)
    (start t scope run).1 ?_ hbelow habove events
  have hkept : x.rebuild (preparing scope run) = x :=
    (hkeyed.of_mem_subtrees hx).rebuild_apart hbelow habove fun _ children hbelow habove =>
      around_apart hbelow habove children
  rw [start_eq_rebuild hkeyed hroot, ← hkept]
  exact mem_subtrees_rebuild hx

end Moves

end Log

end RunSession

end SpecExplorer
