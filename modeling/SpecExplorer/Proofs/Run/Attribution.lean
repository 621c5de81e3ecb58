/-
# Records reach their specs

Specs may share a name path, and a record says no more than that. The records of one name path are
the outcomes of its specs in source order, so the record that comes first belongs to the first of
them. This module shows that a session attributes them that way, whatever comes in between:
records of other name paths, of other files, of specs outside the scope or in states that are not
known, suites, and lines that are no records. Specs that no record was for are skipped once the
run has exited.
-/
import SpecExplorer.Proofs.Run.Scope
import SpecExplorer.Proofs.Run.Specs

namespace SpecExplorer

open TestTree

namespace RunSession

/-! ### What the events of a run say -/

/-- The outcome that an event has for the specs of a name path in a file. A record that does not
tell its file counts for every file. -/
def outcome? (file : String) (names : List String) : RunEvent → Option RunResult
  | .record (.spec r) =>
    if r.fileName?.all (· == file) && r.names == names then r.status?.map r.result else none
  | _ => none

/-- The outcomes for a name path in order of arrival. -/
def outcomes (file : String) (names : List String) (events : List RunEvent) : List RunResult :=
  events.filterMap (outcome? file names)

/-- The lines that were no records, in order of arrival. -/
def printed (events : List RunEvent) : List String :=
  events.filterMap fun
    | .output line => some line
    | _ => none

/-- A node shows a result as it is, or it is the scope, the result has no output, and the lines of
the run stand in for it. -/
def Shows (scope : NodeKey) (log : List String) (n : TestNode) (r : RunResult) : Prop :=
  n.result = some r ∨
    n.key = scope ∧ r.output = none ∧ log ≠ [] ∧
      n.result = some { r with output := some (String.intercalate "\n" log) }

variable {file : String} {names : List String}

theorem outcomes_append_singleton (past : List RunEvent) (e : RunEvent) :
    outcomes file names (past ++ [e]) =
      outcomes file names past ++ (outcome? file names e).toList := by
  rw [outcomes, List.filterMap_append]
  cases h : outcome? file names e <;> simp [outcomes, h]

/-- A record of the file in a known state is an outcome for its own name path alone. -/
theorem outcome?_own {r : SpecRecord} {status : RunStatus} (hstatus : r.status? = some status)
    (hown : r.fileName?.all (· == file)) :
    outcome? file names (.record (.spec r)) =
      if r.names = names then some (r.result status) else none := by
  simp [outcome?, hown, hstatus]

/-- A record of another file, or in a state that is not known, is an outcome for nothing. -/
theorem outcome?_foreign {r : SpecRecord}
    (h : ¬ (r.fileName?.all (· == file) ∧ r.status?.isSome)) (names : List String) :
    outcome? file names (.record (.spec r)) = none := by
  by_cases hown : r.fileName?.all (· == file)
  · have hstatus : r.status? = none := by simpa [hown] using h
    simp [outcome?, hstatus]
  · simp [outcome?, hown]

theorem outcome?_spec {r : SpecRecord} {x : RunResult}
    (h : outcome? file names (.record (.spec r)) = some x) :
    r.names = names ∧ ∃ status, r.status? = some status ∧ x = r.result status := by
  unfold outcome? at h
  dsimp only at h
  split at h
  next hown =>
      rw [Bool.and_eq_true, beq_iff_eq] at hown
      obtain ⟨status, hstatus, rfl⟩ := Option.map_eq_some_iff.mp h
      exact ⟨hown.2, status, hstatus, rfl⟩
  next => cases h

/-- Outcomes are final. -/
theorem isTerminal_of_mem_outcomes {events : List RunEvent} {x : RunResult}
    (h : x ∈ outcomes file names events) : x.status.isTerminal := by
  obtain ⟨e, -, he⟩ := List.mem_filterMap.mp h
  cases e with
  | record record =>
      cases record with
      | spec r =>
          obtain ⟨-, status, hstatus, rfl⟩ := outcome?_spec he
          exact isTerminal_of_status? hstatus
      | suite r => cases he
  | started | malformed | output | exited => cases he

/-! ### What an event does to the counters and the log -/

theorem apply_output (s : RunSession) (t : TestTree) (e : RunEvent) :
    (s.apply t e).1.output = s.output ++ printed [e] := by
  cases e with
  | record record =>
      cases record with
      | suite r => simp [apply, printed]
      | spec r =>
          simp only [apply, printed, applySpec]
          repeat' split
          all_goals simp
  | started | malformed | output => simp [apply, printed]
  | exited success code =>
      simp only [apply, finish, printed]
      split <;> simp

theorem apply_seen {s : RunSession} {t sub : TestTree} (hsub : t.find? s.scope = some sub)
    (r : SpecRecord) :
    (s.apply t (.record (.spec r))).1.seen =
      if r.status?.isSome && !(named t.info.name sub r).isEmpty then r.names :: s.seen
      else s.seen := by
  rw [apply]
  cases r.status? with
  | none => rfl
  | some status =>
      dsimp only
      rw [applySpec_seen hsub]
      cases (named t.info.name sub r).isEmpty <;> rfl

theorem apply_seen_of_not_spec {s : RunSession} {t : TestTree} {e : RunEvent}
    (h : ∀ r, e ≠ .record (.spec r)) : (s.apply t e).1.seen = s.seen := by
  cases e with
  | record record =>
      cases record with
      | suite r => rfl
      | spec r => exact absurd rfl (h r)
  | started | malformed | output => rfl
  | exited success code =>
      rw [apply, finish]
      split <;> rfl

/-! ### What holds while the events come -/

/-- What specs show, given the outcome that came for them, if one came. A node may begin to run
without showing anything else, and a final result settles what it shows. -/
structure Keeps (run : RunId) (Show : Option RunResult → TestNode → Prop) : Prop where
  start : ∀ x n, (∀ r, x = some r → r.status.isTerminal) → Show x n →
    Show x ((n.start? run).getD n)
  record : ∀ r (n : TestNode), Show (some r) { n with result := some r }

/-- After some events of a run over a subtree, the name paths are counted as often as outcomes
came for them, and every spec shows the outcome of its own turn. -/
structure Attributed (Show : Option RunResult → TestNode → Prop) (file : String)
    (sub₀ : TestTree) (past : List RunEvent) (s : RunSession) (t sub : TestTree) : Prop where
  keyed : t.Keyed
  leaves : t.SpecsAreLeaves
  name : t.info.name = file
  found : t.find? s.scope = some sub
  frame : sub.frame = sub₀.frame
  output : s.output = printed past
  claimed : ∀ n ∈ sub.specs, n.isClaimedBy s.run
  counted : ∀ names, sub.specsNamed names ≠ [] →
    s.seen.count names = (outcomes file names past).length
  shown : ∀ names (i : Nat) n, (sub.specsNamed names)[i]? = some n →
    Show (outcomes file names past)[i]? n

namespace Attributed

variable {Show Show' : Option RunResult → TestNode → Prop} {sub₀ t sub sub' : TestTree}
  {past : List RunEvent} {s : RunSession} {e : RunEvent}

/-- An event maps the specs. What is left to show is how it counts and what the specs show. -/
theorem of_mapped (h : Attributed Show file sub₀ past s t sub)
    (hfound : (s.apply t e).2.1.find? s.scope = some sub') (hframe : sub'.frame = sub.frame)
    {f : TestNode → TestNode} (hbare : ∀ n, (f n).bare = n.bare) (hrun : ∀ n, (f n).run = n.run)
    (hspecs : sub'.specs = sub.specs.map f)
    (hcounted : ∀ names, sub.specsNamed names ≠ [] →
      (s.apply t e).1.seen.count names = (outcomes file names (past ++ [e])).length)
    (hshown : ∀ names (i : Nat) n, (sub.specsNamed names)[i]? = some n →
      Show' (outcomes file names (past ++ [e]))[i]? (f n)) :
    Attributed Show' file sub₀ (past ++ [e]) (s.apply t e).1 (s.apply t e).2.1 sub' where
  keyed := h.keyed.of_frame_eq (apply_frame s t e)
  leaves := h.leaves.of_frame_eq (apply_frame s t e)
  name := (name_eq_of_frame_eq (apply_frame s t e)).trans h.name
  found := by
    rw [apply_scope]
    exact hfound
  frame := hframe.trans h.frame
  output := by
    rw [apply_output, h.output, printed, printed, printed, List.filterMap_append]
  claimed := by
    rw [hspecs, apply_run, List.forall_mem_map]
    intro n hn
    rw [TestNode.isClaimedBy, hrun]
    exact h.claimed n hn
  counted names hne := by
    rw [specsNamed_eq_map hbare hspecs, ne_eq, List.map_eq_nil_iff] at hne
    exact hcounted names hne
  shown names i n hn := by
    rw [specsNamed_eq_map hbare hspecs, List.getElem?_map, Option.map_eq_some_iff] at hn
    obtain ⟨m, hm, rfl⟩ := hn
    exact hshown names i m hm

/-- An event that is an outcome for no spec. -/
theorem of_quiet (h : Attributed Show file sub₀ past s t sub)
    (hfound : (s.apply t e).2.1.find? s.scope = some sub') (hframe : sub'.frame = sub.frame)
    (hquiet : ∀ names, outcome? file names e = none) (hseen : (s.apply t e).1.seen = s.seen)
    {f : TestNode → TestNode} (hbare : ∀ n, (f n).bare = n.bare) (hrun : ∀ n, (f n).run = n.run)
    (hspecs : sub'.specs = sub.specs.map f)
    (hshow : ∀ x, ∀ n ∈ sub.specs, (∀ r, x = some r → r.status.isTerminal) → Show x n →
      Show' x (f n)) :
    Attributed Show' file sub₀ (past ++ [e]) (s.apply t e).1 (s.apply t e).2.1 sub' := by
  have houtcomes : ∀ names, outcomes file names (past ++ [e]) = outcomes file names past := by
    intro names
    rw [outcomes_append_singleton, hquiet, Option.toList_none, List.append_nil]
  refine h.of_mapped hfound hframe hbare hrun hspecs (fun names hne => ?_)
    fun names i n hn => ?_
  · rw [hseen, houtcomes]
    exact h.counted names hne
  · rw [houtcomes]
    refine hshow _ n (mem_specsNamed.mp (List.mem_of_getElem? hn)).1 (fun r hr => ?_)
      (h.shown names i n hn)
    exact isTerminal_of_mem_outcomes (List.mem_of_getElem? hr)

theorem getElem?_append_singleton_of_ne {α : Type} {l : List α} {i : Nat} (hi : i ≠ l.length)
    (x : α) : (l ++ [x])[i]? = l[i]? := by
  rcases Nat.lt_or_gt_of_ne hi with hlt | hgt
  · rw [List.getElem?_append_left hlt]
  · rw [List.getElem?_eq_none_iff.mpr (by simpa [Nat.succ_le_iff] using hgt),
      List.getElem?_eq_none_iff.mpr (Nat.le_of_lt hgt)]

section Own

variable {r : SpecRecord} {status : RunStatus}

/-- The spec whose turn it is when a record of the file comes. -/
theorem target?_own (s : RunSession) (sub : TestTree) (hown : r.fileName?.all (· == file)) :
    s.target? file sub r = (sub.specsNamed r.names)[s.seen.count r.names]? := by
  rw [target?, named, if_pos hown]

/-- A record of the file counts for its name path, where that names specs in scope. -/
theorem count_seen_own (h : Attributed Show file sub₀ past s t sub)
    (hstatus : r.status? = some status) (hown : r.fileName?.all (· == file))
    (hne : sub.specsNamed names ≠ []) :
    (s.apply t (.record (.spec r))).1.seen.count names =
      (outcomes file names (past ++ [.record (.spec r)])).length := by
  have hseen := apply_seen h.found r
  rw [h.name, named, if_pos hown, hstatus, Option.isSome_some, Bool.true_and] at hseen
  rw [outcomes_append_singleton, outcome?_own hstatus hown, hseen, List.length_append]
  by_cases hnames : r.names = names
  · rw [if_pos hnames, if_pos (by simpa [hnames] using hne), hnames, List.count_cons_self,
      h.counted names hne]
    rfl
  · have hcount : (r.names :: s.seen).count names = s.seen.count names :=
      List.count_cons_of_ne hnames
    rw [if_neg hnames]
    split
    · rw [hcount, h.counted names hne]
      rfl
    · rw [h.counted names hne]
      rfl

/-- A record of the file is the outcome of the spec whose turn it is. When all specs of the name
path had their turns, or there are none, it is an outcome for no spec. -/
theorem shown_own (hkeeps : Keeps s.run Show) (h : Attributed Show file sub₀ past s t sub)
    (hstatus : r.status? = some status) (hown : r.fileName?.all (· == file)) {i : Nat}
    {n : TestNode} (hn : (sub.specsNamed names)[i]? = some n) :
    Show (outcomes file names (past ++ [.record (.spec r)]))[i]?
      (if (s.target? file sub r).map (·.key) = some n.key then
        { n with result := some (r.result status) }
      else n) := by
  have htarget := target?_own s sub hown
  have hne : sub.specsNamed names ≠ [] := List.ne_nil_of_mem (List.mem_of_getElem? hn)
  rw [outcomes_append_singleton, outcome?_own hstatus hown]
  by_cases hnames : r.names = names
  · rw [if_pos hnames, Option.toList_some]
    rw [hnames, h.counted names hne] at htarget
    by_cases hi : i = (outcomes file names past).length
    · -- It is the turn of this spec.
      subst hi
      rw [htarget, hn, Option.map_some, if_pos rfl, List.getElem?_concat_length]
      exact hkeeps.record _ n
    · -- Another spec of the name path has its turn, or none.
      have hsub := h.keyed.of_mem_subtrees (mem_subtrees_of_find? h.found).1
      have hother : ¬ (s.target? file sub r).map (·.key) = some n.key := by
        intro hkey
        obtain ⟨m, hm, hmkey⟩ := Option.map_eq_some_iff.mp hkey
        exact hi (hsub.eq_of_specsNamed hn (htarget ▸ hm) hmkey.symm)
      rw [if_neg hother, getElem?_append_singleton_of_ne hi]
      exact h.shown names i n hn
  · have hother : ¬ (s.target? file sub r).map (·.key) = some n.key := by
      intro hkey
      obtain ⟨m, hm, hmkey⟩ := Option.map_eq_some_iff.mp hkey
      have hmnames := (mem_specsNamed.mp (List.mem_of_getElem? (htarget ▸ hm))).2
      have hnnames := (mem_specsNamed.mp (List.mem_of_getElem? hn)).2
      exact hnames (by rw [← hmnames, ← hnnames, hmkey])
    rw [if_neg hnames, if_neg hother, Option.toList_none, List.append_nil]
    exact h.shown names i n hn

/-- A record of the file that sets the result of its target, if it has one. -/
theorem of_own (hkeeps : Keeps s.run Show) (h : Attributed Show file sub₀ past s t sub)
    (hstatus : r.status? = some status) (hown : r.fileName?.all (· == file))
    (hfound : (s.apply t (.record (.spec r))).2.1.find? s.scope = some sub')
    (hframe : sub'.frame = sub.frame)
    (hspecs : sub'.specs = sub.specs.map fun n =>
      if (s.target? file sub r).map (·.key) = some n.key then
        { n with result := some (r.result status) }
      else n) :
    Attributed Show file sub₀ (past ++ [.record (.spec r)])
      (s.apply t (.record (.spec r))).1 (s.apply t (.record (.spec r))).2.1 sub' := by
  refine h.of_mapped hfound hframe ?_ ?_ hspecs (fun names hne => h.count_seen_own hstatus hown hne)
    fun names i n hn => h.shown_own hkeeps hstatus hown hn
  · intro n
    split <;> rfl
  · intro n
    split <;> rfl

/-- A record that sets no result. All specs in scope are claimed by the run, so it has no known
state, or no target. -/
theorem of_ignored (hkeeps : Keeps s.run Show) (h : Attributed Show file sub₀ past s t sub)
    (hfound : (s.apply t (.record (.spec r))).2.1.find? s.scope = some sub)
    (hignored : r.status? = none ∨
      ∀ n, s.target? file sub r = some n → ¬ n.isClaimedBy s.run) :
    Attributed Show file sub₀ (past ++ [.record (.spec r)])
      (s.apply t (.record (.spec r))).1 (s.apply t (.record (.spec r))).2.1 sub := by
  by_cases hown : r.fileName?.all (· == file) ∧ r.status?.isSome
  · obtain ⟨hown, hstatus⟩ := hown
    obtain ⟨status, hstatus⟩ := Option.isSome_iff_exists.mp hstatus
    refine h.of_own hkeeps hstatus hown hfound rfl ?_
    have htarget : s.target? file sub r = none := by
      rw [hstatus] at hignored
      refine Option.eq_none_iff_forall_ne_some.mpr ?_
      intro n hn
      refine hignored.resolve_left (by simp) n hn (h.claimed n ?_)
      exact List.mem_filter.mpr
        ⟨(mem_subtree_of_target? hn).1, by simpa using (mem_subtree_of_target? hn).2⟩
    rw [htarget]
    exact eq_map_of_forall fun n _ => if_neg (by simp)
  · refine h.of_quiet hfound rfl (outcome?_foreign hown) ?_ (fun _ => rfl) (fun _ => rfl)
      (List.map_id _).symm fun x n _ _ hn => hn
    refine (apply_seen h.found r).trans (if_neg fun hcounts => hown ?_)
    rw [h.name, named, Bool.and_eq_true] at hcounts
    refine ⟨?_, hcounts.1⟩
    by_contra hother
    simp [hother] at hcounts

end Own

/-- One event, short of the exit, keeps every spec with the outcome of its own turn. -/
theorem apply (hkeeps : Keeps s.run Show) (h : Attributed Show file sub₀ past s t sub)
    (e : RunEvent) (hexit : s.finished = true ∨ isExit e = false) :
    ∃ sub', Attributed Show file sub₀ (past ++ [e]) (s.apply t e).1 (s.apply t e).2.1 sub' := by
  obtain ⟨sub', hfound, hstep⟩ := exists_scopeStep h.keyed h.found e
  rw [h.name] at hstep
  have hframe := hstep.frame_eq
  have hmem := (mem_subtrees_of_find? h.found).1
  have hsame : sub.specs = sub.specs.map id := (List.map_id _).symm
  refine ⟨sub', ?_⟩
  cases hstep with
  | started =>
      have hbare : ∀ n : TestNode, ((n.start? s.run).getD n).bare = n.bare := by
        intro n
        cases hn : n.start? s.run with
        | none => rfl
        | some m => exact TestNode.bare_of_start? hn
      have hrun : ∀ n : TestNode, ((n.start? s.run).getD n).run = n.run := by
        intro n
        rcases TestNode.start?_getD_cases s.run n with heq | ⟨r, -, -, heq⟩ <;> rw [heq]
      exact h.of_quiet hfound hframe (fun _ => rfl) rfl hbare hrun
        (specs_touch (fun _ _ => TestNode.bare_of_start?) sub)
        fun x n _ hx hn => hkeeps.start x n hx hn
  | @recorded r status n _ log hstatus htarget hclaimed hreplaced =>
      have hown : r.fileName?.all (· == file) := by
        by_contra hown
        rw [target?, named, if_neg hown] at htarget
        cases htarget
      refine h.of_own hkeeps hstatus hown hfound hframe ?_
      rw [specs_recorded hreplaced (h.keyed.of_mem_subtrees hmem)
        (h.leaves.of_mem_subtrees hmem), htarget]
      refine List.map_congr_left ?_
      intro m _
      simp only [Option.map_some, Option.some.injEq, eq_comm]
  | ignored hignored => exact h.of_ignored hkeeps hfound hignored
  | exited hopen =>
      rw [hopen] at hexit
      cases hexit with
      | inl h => cases h
      | inr h => cases h
  | closed hclosed =>
      exact h.of_quiet hfound hframe (fun _ => rfl) (apply_seen_of_not_spec nofun)
        (fun _ => rfl) (fun _ => rfl) hsame fun x n _ _ hn => hn
  | suite | malformed | output =>
      exact h.of_quiet hfound hframe (fun _ => rfl) rfl (fun _ => rfl) (fun _ => rfl) hsame
        fun x n _ _ hn => hn

/-- Any number of events keeps every spec with the outcome of its own turn, as long as the run does
not exit among them. Once it has exited, no further exit changes anything. -/
theorem applyAll {s : RunSession} {t sub : TestTree} {past : List RunEvent}
    (hkeeps : Keeps s.run Show) (h : Attributed Show file sub₀ past s t sub)
    (events : List RunEvent) (hexit : s.finished = true ∨ events.any isExit = false) :
    ∃ sub', Attributed Show file sub₀ (past ++ events) (s.applyAll t events).1
      (s.applyAll t events).2 sub' ∧
      (s.applyAll t events).1.run = s.run ∧ (s.applyAll t events).1.scope = s.scope ∧
      (s.applyAll t events).1.finished = s.finished := by
  induction events generalizing s t sub past with
  | nil => exact ⟨sub, by simpa [RunSession.applyAll] using h, rfl, rfl, rfl⟩
  | cons e rest ih =>
      have hexit' : (s.finished = true ∨ isExit e = false) ∧
          (s.finished = true ∨ rest.any isExit = false) := by
        rw [List.any_cons, Bool.or_eq_false_iff] at hexit
        exact ⟨hexit.imp_right And.left, hexit.imp_right And.right⟩
      have hfinished : (s.apply t e).1.finished = s.finished := by
        rw [apply_finished]
        rcases hexit'.1 with hclosed | hother
        · rw [hclosed, Bool.true_or]
        · rw [hother, Bool.or_false]
      obtain ⟨sub₁, h₁⟩ := h.apply hkeeps e hexit'.1
      obtain ⟨sub', h', hrun, hscope, hclosed⟩ := ih (by rwa [apply_run]) h₁
        (by rw [hfinished]; exact hexit'.2)
      rw [List.append_assoc, List.singleton_append] at h'
      exact ⟨sub', h', hrun.trans (apply_run s t e), hscope.trans (apply_scope s t e),
        hclosed.trans hfinished⟩

end Attributed

/-! ### Before and after the exit -/

/-- Before the exit a spec shows its outcome, or it is pending or running while it has none. -/
def ShowsSoFar (x : Option RunResult) (n : TestNode) : Prop :=
  match x with
  | some r => n.result = some r
  | none => ∃ status, status.isTerminal = false ∧ n.result = some (.ofStatus status)

/-- After the exit a spec shows its outcome, and it is skipped where it has none. -/
def ShowsAtLast (scope : NodeKey) (log : List String) (x : Option RunResult) (n : TestNode) :
    Prop :=
  Shows scope log n (x.getD (.ofStatus .skipped))

theorem keeps_showsSoFar (run : RunId) : Keeps run ShowsSoFar where
  start x n hx hn := by
    rcases TestNode.start?_getD_cases run n with heq | ⟨r, hr, hpending, heq⟩
    · rwa [heq]
    · rw [heq]
      cases x with
      | some y =>
          obtain rfl : r = y := Option.some.inj (hr.symm.trans hn)
          have hterminal := hx r rfl
          rw [hpending] at hterminal
          cases hterminal
      | none =>
          obtain ⟨status, -, hresult⟩ := hn
          obtain rfl : r = .ofStatus status := Option.some.inj (hr.symm.trans hresult)
          exact ⟨.running, rfl, rfl⟩
  record _ _ := rfl

theorem keeps_showsAtLast (run : RunId) (scope : NodeKey) (log : List String) :
    Keeps run (ShowsAtLast scope log) where
  start x n hx hn := by
    have hterminal : (x.getD (.ofStatus .skipped)).status.isTerminal := by
      cases x with
      | some r => exact hx r rfl
      | none => rfl
    have hfinished : n.isFinished := by
      rcases hn with hresult | ⟨-, -, -, hresult⟩ <;>
        rwa [TestNode.isFinished_of_result hresult]
    rwa [TestNode.start_eq_of_isFinished run hfinished]
  record _ _ := .inl rfl

/-- Closing a run skips the specs that no outcome came for. -/
theorem result_close_of_showsSoFar {run : RunId} {n : TestNode} {x : Option RunResult}
    (hclaimed : n.isClaimedBy run) (hx : ∀ r, x = some r → r.status.isTerminal)
    (h : ShowsSoFar x n) : (n.close run []).result = some (x.getD (.ofStatus .skipped)) := by
  cases x with
  | some r =>
      have hresult : n.result = some r := h
      simp [TestNode.close, hresult, hx r rfl]
  | none =>
      obtain ⟨status, hopen, hresult⟩ := h
      simp [TestNode.close, hresult, hclaimed, TestNode.isLeaf, RunResult.ofStatus, hopen]

namespace Attributed

variable {sub₀ t sub : TestTree} {past : List RunEvent} {s : RunSession}

/-- The spec at a place of a name path before the run shows the outcome of that place. -/
theorem exists_node {Show : Option RunResult → TestNode → Prop}
    (h : Attributed Show file sub₀ past s t sub) {i : Nat} {n : TestNode}
    (hn : (sub₀.specsNamed names)[i]? = some n) :
    ∃ m, t.node? n.key = some m ∧ Show (outcomes file names past)[i]? m := by
  have hbare : ((sub.specsNamed names).map TestNode.bare)[i]? = some n.bare := by
    rw [← specsNamed_frame, h.frame, specsNamed_frame, List.getElem?_map, hn, Option.map_some]
  rw [List.getElem?_map, Option.map_eq_some_iff] at hbare
  obtain ⟨m, hm, hmn⟩ := hbare
  obtain ⟨x, hx, rfl⟩ := mem_nodes.mp
    (mem_nodes_of_mem_specs (mem_specsNamed.mp (List.mem_of_getElem? hm)).1)
  have hfound := h.keyed.find?_key (mem_subtrees_trans hx (mem_subtrees_of_find? h.found).1)
  refine ⟨x.info, ?_, h.shown names i _ hm⟩
  rw [← TestNode.key_eq_of_bare_eq hmn, node?]
  exact congrArg (Option.map info) hfound

/-- At the start no outcome has come, and every spec is pending. -/
theorem start (hkeyed : t.Keyed) (hleaves : t.SpecsAreLeaves) {scope : NodeKey}
    (hsub : t.find? scope = some sub₀) (run : RunId) :
    Attributed ShowsSoFar t.info.name sub₀ [] (RunSession.start t scope run).1
      (RunSession.start t scope run).2.1 (sub₀.touch fun n => some (n.prepare run)).1 where
  keyed := hkeyed.of_frame_eq (start_frame t scope run)
  leaves := hleaves.of_frame_eq (start_frame t scope run)
  name := name_eq_of_frame_eq (start_frame t scope run)
  found := find?_start hkeyed hsub run
  frame := touch_frame (fun _ _ => TestNode.bare_of_prepare) sub₀
  output := rfl
  claimed := by
    rw [specs_touch (fun _ _ => TestNode.bare_of_prepare), List.forall_mem_map]
    intro n _
    simp [TestNode.isClaimedBy, TestNode.prepare, RunSession.start]
  counted names _ := rfl
  shown names i n hn := by
    have hmem := (mem_specsNamed.mp (List.mem_of_getElem? hn)).1
    rw [specs_touch (fun _ _ => TestNode.bare_of_prepare), List.mem_map] at hmem
    obtain ⟨m, -, rfl⟩ := hmem
    exact ⟨.pending, rfl, rfl⟩

/-- The exit of the run skips what had no turn, and shows the log at the scope. -/
theorem exit (h : Attributed ShowsSoFar file sub₀ past s t sub) (hopen : s.finished = false)
    (success : Bool) (code : Option Int) :
    ∃ sub', Attributed (ShowsAtLast s.scope (printed past)) file sub₀
      (past ++ [.exited success code]) (s.apply t (.exited success code)).1
      (s.apply t (.exited success code)).2.1 sub' ∧
      (s.apply t (.exited success code)).1.finished = true := by
  have hfinished : (s.apply t (.exited success code)).1.finished = true := by
    rw [apply_finished]
    exact Bool.or_true _
  obtain ⟨sub', hfound, hstep⟩ := exists_scopeStep h.keyed h.found (.exited success code)
  have hframe := hstep.frame_eq
  obtain ⟨hmem, hscope⟩ := mem_subtrees_of_find? h.found
  cases hstep with
  | closed hclosed =>
      rw [hopen] at hclosed
      cases hclosed
  | exited _ =>
      have hkey : (sub.finish s.run).1.key = s.scope :=
        (key_eq_of_frame_eq (TestTree.finish_frame s.run sub)).trans hscope
      have hspecs := specs_mapRoot s.bare_withLog
        ((h.keyed.of_mem_subtrees hmem).of_frame_eq (TestTree.finish_frame s.run sub))
      rw [specs_finish s.run (h.leaves.of_mem_subtrees hmem), List.map_map, hkey] at hspecs
      refine ⟨_, h.of_quiet hfound hframe (fun _ => rfl) (apply_seen_of_not_spec nofun) ?_ ?_
        hspecs fun x n hn hx hshow => ?_, hfinished⟩
      · intro n
        rw [Function.comp_apply]
        split <;> simp
      · intro n
        rw [Function.comp_apply]
        split <;> simp
      · have hresult := result_close_of_showsSoFar (h.claimed n hn) hx hshow
        rw [Function.comp_apply]
        split
        next hkey =>
            rcases s.withLog_cases (n.close s.run []) with heq | ⟨r, log, hr, hout, hlog, heq⟩
            · rw [heq]
              exact .inl hresult
            · obtain rfl : x.getD (.ofStatus .skipped) = r :=
                Option.some.inj (hresult.symm.trans hr)
              obtain ⟨hne, rfl⟩ := log?_eq_some hlog
              rw [h.output] at hne heq
              rw [heq]
              exact .inr ⟨hkey, hout, hne, rfl⟩
        next => exact .inl hresult

end Attributed

/-- While a session is alone over its scope, the records of a name path settle the specs of that
name path in source order, whatever other events come in between. After the exit each spec shows
the outcome of its own turn as it came, and is skipped if none came; only where the scope itself
is such a spec, and its outcome has no output, the lines of the run stand in for that. -/
theorem records_settle_specs_in_order (previous : Option TestTree) {o : Outline}
    (hleaves : o.SpecsAreLeaves) (name : String) {scope : NodeKey} {sub : TestTree}
    (hscope : (TestTree.merge previous o name).1.find? scope = some sub) (run : RunId)
    {before : List RunEvent} (hbefore : before.any isExit = false) (success : Bool)
    (code : Option Int) (after : List RunEvent) {names : List String} {i : Nat} {n : TestNode}
    (hn : (sub.specsNamed names)[i]? = some n) :
    ∃ m, (play (TestTree.merge previous o name).1 scope run
        (before ++ .exited success code :: after)).2.node? n.key = some m ∧
      Shows scope (printed before) m
        ((outcomes name names (before ++ .exited success code :: after))[i]?.getD
          (.ofStatus .skipped)) := by
  have hstart := Attributed.start (ofOutline_keyed previous o name)
    (ofOutline_specsAreLeaves previous hleaves name) hscope run
  have hname : (ofOutline previous o name).info.name = name := TestNode.carry_name _ _
  rw [hname] at hstart
  obtain ⟨sub₁, h₁, -, hscope₁, hopen⟩ :=
    hstart.applyAll (keeps_showsSoFar _) before (.inr hbefore)
  obtain ⟨sub₂, h₂, hclosed⟩ := h₁.exit hopen success code
  obtain ⟨sub₃, h₃, -⟩ := h₂.applyAll (keeps_showsAtLast _ _ _) after (.inl hclosed)
  obtain ⟨m, hm, hshown⟩ := h₃.exists_node hn
  rw [hscope₁] at hshown
  refine ⟨m, ?_, ?_⟩
  · rw [play, applyAll_append]
    exact hm
  · rw [List.nil_append, List.append_assoc, List.singleton_append] at hshown
    exact hshown

/-- A run of the cart before its exit, with records of another file and of a nested spec and a
printed line between those of two specs of one name path. -/
def cartRecords : List RunEvent :=
  [.started, .record (.spec ⟨["cart"], "adds", "passed", none, none, some 5, none⟩),
    .record (.spec ⟨["cart"], "adds", "skipped", none, none, none, some "shop/other_test.go"⟩),
    .output "adding",
    .record (.spec ⟨["cart", "checkout"], "pays", "paid", none, none, none, none⟩),
    .record (.spec ⟨["cart"], "adds", "Failed", some "log", none, some 7, some "cart_test.go"⟩)]

theorem records_settle_specs_in_order_cart :
    Outline.cart.SpecsAreLeaves ∧ cartRecords.any isExit = false ∧
      ∃ sub n m, (TestTree.merge none .cart "cart_test.go").1.find? (.ofNames ["cart"]) = some sub ∧
        (sub.specsNamed ["cart", "adds"])[1]? = some n ∧
        (play (TestTree.merge none .cart "cart_test.go").1 (.ofNames ["cart"]) 7
          (cartRecords ++ [.exited false (some 1)])).2.node? n.key = some m ∧
        Shows (.ofNames ["cart"]) ["adding"] m ⟨.failed, some "log", some 7⟩ := by
  have hspec : (((TestTree.merge none .cart "cart_test.go").1.find? (.ofNames ["cart"])).bind
      fun sub => (sub.specsNamed ["cart", "adds"])[1]?).isSome := by
    decide +kernel
  obtain ⟨n, hspec⟩ := Option.isSome_iff_exists.mp hspec
  obtain ⟨sub, hsub, hn⟩ := Option.bind_eq_some_iff.mp hspec
  have hexit : cartRecords.any isExit = false := by rfl
  have houtcome : outcomes "cart_test.go" ["cart", "adds"]
      (cartRecords ++ [.exited false (some 1)]) =
        [⟨.passed, none, some 5⟩, ⟨.failed, some "log", some 7⟩] := by
    decide +kernel
  obtain ⟨m, hm, hshown⟩ := records_settle_specs_in_order none Outline.cart_specsAreLeaves
    "cart_test.go" hsub 7 hexit false (some 1) [] hn
  rw [houtcome] at hshown
  exact ⟨Outline.cart_specsAreLeaves, hexit, sub, n, m, hsub, hn, hm, hshown⟩

end RunSession

end SpecExplorer
