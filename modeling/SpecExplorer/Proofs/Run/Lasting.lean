/-
# Runs that outlast their trees

A session knows its scope and the specs in it by key, and a merge hands result and claim from the
node that had a key to the node that has it. So whatever else is edited while a run is under way, a
spec whose key stays in the file gets the first outcome of its name path, as long as no other spec
in the scope has that name path. A key that was missing once has lost both: where it comes back it
is idle, the run has no claim on it, and so it stays idle to the end.
-/
import Mathlib.Data.List.Induction
import Mathlib.Data.List.Infix
import SpecExplorer.Proofs.Run.Attribution
import SpecExplorer.Proofs.Run.Precedence
import SpecExplorer.Proofs.Run.Reparsed

namespace SpecExplorer

open TestTree

namespace RunSession

/-! ### Turns of a run -/

/-- The event of a turn, if it is one. -/
def Turn.event? : Turn → Option RunEvent
  | .event e => some e
  | .reparse _ _ => none

/-- The events among some turns. -/
def eventsOf (turns : List Turn) : List RunEvent := turns.filterMap Turn.event?

/-- Starts a run over a scope and takes turns. -/
def playTurns (t : TestTree) (scope : NodeKey) (run : RunId) (turns : List Turn) :
    RunSession × TestTree :=
  (start t scope run).1.turnAll (start t scope run).2.1 turns

/-- From the start of a run on, every tree has a property. -/
def Throughout (t : TestTree) (scope : NodeKey) (run : RunId) (turns : List Turn)
    (p : TestTree → Prop) : Prop :=
  ∀ past, past <+: turns → p (playTurns t scope run past).2

/-- A key names a spec, and no other spec in a scope has its name path. -/
structure SoleSpec (scope key : NodeKey) (t : TestTree) : Prop where
  spec : ∃ n ∈ t.specs, n.key = key
  sole : ∀ n ∈ t.specs, scope.covers n.key → n.key.names = key.names → n.key = key

instance (scope key : NodeKey) (t : TestTree) : Decidable (SoleSpec scope key t) :=
  decidable_of_iff ((∃ n ∈ t.specs, n.key = key) ∧
      ∀ n ∈ t.specs, scope.covers n.key → n.key.names = key.names → n.key = key)
    ⟨fun h => ⟨h.1, h.2⟩, fun h => ⟨h.spec, h.sole⟩⟩

/-- The first outcome of a name path, and skipped where there is none. -/
def firstOutcome (file : String) (names : List String) (events : List RunEvent) : RunResult :=
  (outcomes file names events)[0]?.getD (.ofStatus .skipped)

section Turns

variable {t : TestTree} {scope : NodeKey} {run : RunId} {turns : List Turn} {a : Turn}

theorem playTurns_append (before after : List Turn) :
    playTurns t scope run (before ++ after) =
      (playTurns t scope run before).1.turnAll (playTurns t scope run before).2 after :=
  turnAll_append _ _ before after

theorem eventsOf_append_singleton (past : List Turn) (a : Turn) :
    eventsOf (past ++ [a]) = eventsOf past ++ a.event?.toList := by
  rw [eventsOf, List.filterMap_append]
  cases h : a.event? <;> simp [eventsOf, h]

theorem file_turnAll (hkeyed : t.Keyed) (hroot : t.key = .root) (s : RunSession)
    (turns : List Turn) : (s.turnAll t turns).2.Keyed ∧ (s.turnAll t turns).2.key = .root := by
  induction turns generalizing s t with
  | nil => exact ⟨hkeyed, hroot⟩
  | cons a rest ih => exact ih (keyed_turn hkeyed s a) (key_turn hroot s a) _

/-- As long as the specs of fresh outlines are leaves, those of the tree are. -/
theorem specsAreLeaves_playTurns (hleaves : t.SpecsAreLeaves) (scope : NodeKey) (run : RunId)
    (houtlines : ∀ o name, .reparse o name ∈ turns → o.SpecsAreLeaves) :
    (playTurns t scope run turns).2.SpecsAreLeaves := by
  induction turns using List.reverseRecOn with
  | nil => exact hleaves.of_frame_eq (start_frame t scope run)
  | append_singleton turns a ih =>
      have h := ih fun o name hmem => houtlines o name (List.mem_append_left _ hmem)
      rw [playTurns_append]
      cases a with
      | event e => exact h.of_frame_eq (apply_frame _ _ e)
      | reparse o name =>
          exact ofOutline_specsAreLeaves _ (houtlines o name (by simp)) name

theorem Throughout.now {p : TestTree → Prop} (h : Throughout t scope run turns p) :
    p (playTurns t scope run turns).2 :=
  h turns (List.prefix_refl _)

theorem Throughout.before {p : TestTree → Prop} (h : Throughout t scope run (turns ++ [a]) p) :
    Throughout t scope run turns p :=
  fun past hpast => h past (hpast.trans (List.prefix_append _ _))

end Turns

/-! ### The spec of a key -/

section Spec

variable {scope key : NodeKey} {t sub x : TestTree} {s : RunSession} {r : RunResult}

/-- A result recorded neither at a node nor below it leaves the node as it is. -/
theorem info_recording_of_not_covers (hkeyed : x.Keyed) (hcovers : ¬ x.key.covers key) :
    (x.rebuild (recording key r)).info = x.info := by
  rcases rebuild_recording_cases hkeyed key r with heq | ⟨hkey, -⟩ | ⟨hcovers', -⟩
  · rw [heq]
  · exact absurd (hkey ▸ NodeKey.covers_refl _) hcovers
  · exact absurd hcovers' hcovers

theorem info_recording_self (x : TestTree) (r : RunResult) :
    (x.rebuild (recording x.key r)).info = { x.info with result := some r } := by
  have hcovers : x.key.covers x.info.key := NodeKey.covers_refl _
  rw [info_rebuild, recording, around_below hcovers]
  exact if_pos rfl

/-- The spec that a record reaches has its name path, and the record is one of the file. -/
theorem own_of_target? {file : String} {record : SpecRecord} {n : TestNode}
    (h : s.target? file sub record = some n) :
    n ∈ sub.specs ∧ n.key.names = record.names ∧ record.fileName?.all (· == file) := by
  have hmem : n ∈ named file sub record := List.mem_of_getElem? h
  unfold named at hmem
  split at hmem
  next hown =>
      obtain ⟨hspec, hnames⟩ := mem_specsNamed.mp hmem
      exact ⟨hspec, hnames, hown⟩
  next => cases hmem

theorem SoleSpec.exists_spec (h : SoleSpec scope key t) :
    ∃ x ∈ t.subtrees, x.key = key ∧ x.info ∈ t.specs := by
  obtain ⟨n, hn, hkey⟩ := h.spec
  obtain ⟨x, hx, rfl⟩ := mem_nodes.mp (mem_nodes_of_mem_specs hn)
  exact ⟨x, hx, hkey, hn⟩

theorem SoleSpec.exists_leaf (h : SoleSpec scope key t) (hleaves : t.SpecsAreLeaves) :
    ∃ x ∈ t.subtrees, x.key = key ∧ x.info ∈ t.specs ∧ x.children = [] := by
  obtain ⟨x, hx, hkey, hspec⟩ := h.exists_spec
  exact ⟨x, hx, hkey, hspec, hleaves x hx (kind_of_mem_specs hspec)⟩

theorem SoleSpec.contains (h : SoleSpec scope key t) : t.contains key := by
  obtain ⟨n, hn, rfl⟩ := h.spec
  exact contains_of_mem_nodes (mem_nodes_of_mem_specs hn)

theorem mem_specs_of_mem_subtrees {n : TestNode} (hsub : sub ∈ t.subtrees) (hn : n ∈ sub.specs) :
    n ∈ t.specs := by
  obtain ⟨x, hx, rfl⟩ := mem_nodes.mp (mem_nodes_of_mem_specs hn)
  exact List.mem_filter.mpr ⟨info_mem_nodes (mem_subtrees_trans hx hsub), (List.mem_filter.mp hn).2⟩

/-- The spec of the key is the only one in the scope with its name path. -/
theorem SoleSpec.specsNamed_eq (h : SoleSpec scope key t) (hkeyed : t.Keyed)
    (hsub : t.find? scope = some sub) (hcovers : scope.covers key) (hx : x ∈ t.subtrees)
    (hkey : x.key = key) (hspec : x.info ∈ t.specs) : sub.specsNamed key.names = [x.info] := by
  obtain ⟨hmem, hscope⟩ := mem_subtrees_of_find? hsub
  have hsubkeyed := hkeyed.of_mem_subtrees hmem
  have hxsub : x.info ∈ sub.specsNamed key.names := by
    have hxmem : x ∈ sub.subtrees :=
      hkeyed.mem_subtrees_of_covers hmem hx (by rwa [hscope, hkey])
    refine mem_specsNamed.mpr ⟨List.mem_filter.mpr ⟨info_mem_nodes hxmem, ?_⟩, congrArg _ hkey⟩
    exact (List.mem_filter.mp hspec).2
  have hkeys : ∀ n ∈ sub.specsNamed key.names, n.key = key := by
    intro n hn
    obtain ⟨hnspec, hnames⟩ := mem_specsNamed.mp hn
    obtain ⟨y, hy, rfl⟩ := mem_nodes.mp (mem_nodes_of_mem_specs hnspec)
    exact h.sole _ (mem_specs_of_mem_subtrees hmem hnspec)
      (hscope ▸ hsubkeyed.covers_of_mem_subtrees hy) hnames
  generalize hnamed : sub.specsNamed key.names = named at hxsub hkeys
  match named with
  | [] => cases hxsub
  | [n] => rw [List.mem_singleton.mp hxsub]
  | m :: n :: rest =>
      have hzero : (sub.specsNamed key.names)[0]? = some m := by rw [hnamed]; rfl
      have hone : (sub.specsNamed key.names)[1]? = some n := by rw [hnamed]; rfl
      have heq := hsubkeyed.eq_of_specsNamed hzero hone
        ((hkeys m (by simp)).trans (hkeys n (by simp)).symm)
      cases heq

/-- An event has no outcome for any spec strictly below a key. -/
def Spares (file : String) (key : NodeKey) (t : TestTree) (e : RunEvent) : Prop :=
  ∀ n ∈ t.specs, key.covers n.key → n.key ≠ key → outcome? file n.key.names e = none

/-- Below a spec that is a leaf there is nothing to spare. -/
theorem SoleSpec.spares (h : SoleSpec scope key t) (hkeyed : t.Keyed)
    (hleaves : t.SpecsAreLeaves) (file : String) (e : RunEvent) : Spares file key t e := by
  obtain ⟨x, hx, rfl, -, hleaf⟩ := h.exists_leaf hleaves
  intro n hn hcovers hne
  obtain ⟨y, hy, rfl⟩ := mem_nodes.mp (mem_nodes_of_mem_specs hn)
  have hyx := hkeyed.mem_subtrees_of_covers hx hy hcovers
  obtain ⟨info, children⟩ := x
  obtain rfl : children = [] := hleaf
  obtain rfl : y = node info [] := by simpa using mem_subtrees_node.mp hyx
  exact absurd rfl hne

end Spec

/-! ### A key that stays -/

/-- After some events of a run, the name path of a key is counted as often as outcomes came for it,
and the spec of the key belongs to the run and shows the first of them. -/
structure Followed (file : String) (key : NodeKey) (past : List RunEvent) (s : RunSession)
    (t : TestTree) : Prop where
  keyed : t.Keyed
  root : t.key = .root
  name : t.info.name = file
  running : s.finished = false
  covers : s.scope.covers key
  counted : s.seen.count key.names = (outcomes file key.names past).length
  shown : ∀ x ∈ t.subtrees, x.key = key →
    x.info.isClaimedBy s.run ∧ ShowsSoFar (outcomes file key.names past)[0]? x.info

namespace Followed

variable {file : String} {key : NodeKey} {past : List RunEvent} {s : RunSession} {t : TestTree}
  {e : RunEvent} {f : NodeChange}

theorem exists_scope (h : Followed file key past s t) (hcontains : t.contains key) :
    ∃ sub, t.find? s.scope = some sub := by
  obtain ⟨x, hx, rfl⟩ := contains_iff.mp hcontains
  exact Option.isSome_iff_exists.mp (h.keyed.contains_above h.root hx h.covers)

/-- An event rebuilds the tree. What is left to show is how it counts, and what the spec shows. -/
theorem of_rebuilt (h : Followed file key past s t) (hexit : isExit e = false) (hf : Calm f)
    (htree : (s.apply t e).2.1 = t.rebuild f)
    (hcounted : (s.apply t e).1.seen.count key.names =
      (outcomes file key.names (past ++ [e])).length)
    (hshown : ∀ x ∈ t.subtrees, x.key = key →
      ShowsSoFar (outcomes file key.names (past ++ [e]))[0]? (x.rebuild f).info) :
    Followed file key (past ++ [e]) (s.apply t e).1 (s.apply t e).2.1 where
  keyed := h.keyed.of_frame_eq (apply_frame s t e)
  root := (key_eq_of_frame_eq (apply_frame s t e)).trans h.root
  name := (name_eq_of_frame_eq (apply_frame s t e)).trans h.name
  running := by rw [apply_finished, h.running, hexit, Bool.or_false]
  covers := by
    rw [apply_scope]
    exact h.covers
  counted := hcounted
  shown := by
    rw [htree, apply_run]
    refine forall_subtrees_rebuild.mpr fun x hx hkey => ?_
    rw [key_rebuild hf.bare] at hkey
    rw [hf.isClaimedBy]
    exact ⟨(h.shown x hx hkey).1, hshown x hx hkey⟩

/-- An event that is no outcome for the name path of the key. -/
theorem of_quiet (h : Followed file key past s t) (hexit : isExit e = false) (hf : Calm f)
    (htree : (s.apply t e).2.1 = t.rebuild f) (hquiet : outcome? file key.names e = none)
    (hseen : (s.apply t e).1.seen.count key.names = s.seen.count key.names)
    (hshow : ∀ x ∈ t.subtrees, x.key = key →
      ShowsSoFar (outcomes file key.names past)[0]? x.info →
      ShowsSoFar (outcomes file key.names past)[0]? (x.rebuild f).info) :
    Followed file key (past ++ [e]) (s.apply t e).1 (s.apply t e).2.1 := by
  have houtcomes : outcomes file key.names (past ++ [e]) = outcomes file key.names past := by
    rw [outcomes_append_singleton, hquiet, Option.toList_none, List.append_nil]
  refine h.of_rebuilt hexit hf htree ?_ fun x hx hkey => ?_
  · rw [hseen, houtcomes, h.counted]
  · rw [houtcomes]
    exact hshow x hx hkey (h.shown x hx hkey).2

/-- An event that leaves the tree and the counters as they are. -/
theorem of_idle (h : Followed file key past s t) (hexit : isExit e = false)
    (htree : (s.apply t e).2.1 = t) (hquiet : outcome? file key.names e = none)
    (hseen : (s.apply t e).1.seen.count key.names = s.seen.count key.names) :
    Followed file key (past ++ [e]) (s.apply t e).1 (s.apply t e).2.1 := by
  refine h.of_quiet hexit calm_kept ?_ hquiet hseen fun x _ _ hshow => ?_
  · rw [htree, rebuild_eq_self fun _ _ => rfl]
  · rwa [rebuild_eq_self fun _ _ => rfl]

section Records

variable {r : SpecRecord} {status : RunStatus}

theorem apply_record_tree {sub : TestTree} (hsub : t.find? s.scope = some sub)
    (hstatus : r.status? = some status) :
    (s.apply t (.record (.spec r))).2.1 =
      match s.target? t.info.name sub r with
      | some n =>
        if n.isClaimedBy s.run then (t.applyResult n.key (r.result status)).1 else t
      | none => t := by
  rw [RunSession.apply, hstatus]
  exact applySpec_tree hsub r status

/-- A record for another name path changes another spec, if any. -/
theorem record_other (h : Followed file key past s t) (hcontains : t.contains key)
    (hstatus : r.status? = some status) (hnames : r.names ≠ key.names)
    (hspares : Spares file key t (.record (.spec r))) :
    Followed file key (past ++ [.record (.spec r)]) (s.apply t (.record (.spec r))).1
      (s.apply t (.record (.spec r))).2.1 := by
  obtain ⟨sub, hsub⟩ := h.exists_scope hcontains
  have hquiet : outcome? file key.names (.record (.spec r)) = none := by
    simp [outcome?, hnames]
  have hseen : (s.apply t (.record (.spec r))).1.seen.count key.names =
      s.seen.count key.names := by
    rw [apply_seen hsub]
    split
    · exact List.count_cons_of_ne hnames
    · rfl
  have htree := apply_record_tree hsub hstatus
  cases htarget : s.target? t.info.name sub r with
  | none =>
      rw [htarget] at htree
      exact h.of_idle rfl htree hquiet hseen
  | some n =>
      rw [htarget] at htree
      dsimp only at htree
      by_cases hclaimed : n.isClaimedBy s.run
      · obtain ⟨hn, hnnames, hown⟩ := own_of_target? htarget
        rw [h.name] at hown
        have hnspec := mem_specs_of_mem_subtrees (mem_subtrees_of_find? hsub).1 hn
        have hnkey : t.contains n.key := contains_of_mem_nodes (mem_nodes_of_mem_specs hnspec)
        have hapart : ¬ key.covers n.key := by
          intro hcovers
          have hne : n.key ≠ key := fun heq => hnames (hnnames.symm.trans (congrArg _ heq))
          have hnone := hspares n hnspec hcovers hne
          rw [outcome?_own hstatus hown, if_pos hnnames.symm] at hnone
          cases hnone
        rw [if_pos hclaimed, applyResult_eq_rebuild h.keyed hnkey] at htree
        refine h.of_quiet rfl (calm_recording _ (isTerminal_of_status? hstatus)) htree hquiet hseen
          fun x hx hkey hshow => ?_
        rwa [info_recording_of_not_covers (h.keyed.of_mem_subtrees hx) (hkey ▸ hapart)]
      · rw [if_neg hclaimed] at htree
        exact h.of_idle rfl htree hquiet hseen

/-- A record of another file changes nothing. -/
theorem record_foreign (h : Followed file key past s t) (hcontains : t.contains key)
    (hstatus : r.status? = some status) (hown : ¬ r.fileName?.all (· == file)) :
    Followed file key (past ++ [.record (.spec r)]) (s.apply t (.record (.spec r))).1
      (s.apply t (.record (.spec r))).2.1 := by
  obtain ⟨sub, hsub⟩ := h.exists_scope hcontains
  have hnamed : named t.info.name sub r = [] := by
    rw [named, h.name, if_neg hown]
  have htree := apply_record_tree hsub hstatus
  rw [target?, hnamed] at htree
  refine h.of_idle rfl htree (outcome?_foreign (fun hboth => hown hboth.1) _) ?_
  rw [apply_seen hsub, hnamed, List.isEmpty_nil, Bool.not_true, Bool.and_false]
  rfl

/-- A record for the name path of the key reaches its spec if none came before. -/
theorem target?_own (h : Followed file key past s t) (hsole : SoleSpec s.scope key t)
    {sub x : TestTree} (hsub : t.find? s.scope = some sub) (hx : x ∈ t.subtrees)
    (hkey : x.key = key) (hspec : x.info ∈ t.specs) (hown : r.fileName?.all (· == file))
    (hnames : r.names = key.names) :
    named t.info.name sub r = [x.info] ∧
      s.target? t.info.name sub r = [x.info][(outcomes file key.names past).length]? := by
  have hnamed : named t.info.name sub r = [x.info] := by
    rw [named, h.name, if_pos hown, hnames]
    exact hsole.specsNamed_eq h.keyed hsub h.covers hx hkey hspec
  exact ⟨hnamed, by rw [target?, hnamed, hnames, h.counted]⟩

/-- Once there was an outcome for the name path of the key, further ones change nothing. -/
theorem record_again (h : Followed file key past s t) (hsole : SoleSpec s.scope key t)
    (hstatus : r.status? = some status) (hown : r.fileName?.all (· == file))
    (hnames : r.names = key.names) (hpast : outcomes file key.names past ≠ []) :
    (s.apply t (.record (.spec r))).2.1 = t := by
  obtain ⟨x, hx, hkey, hspec⟩ := hsole.exists_spec
  obtain ⟨sub, hsub⟩ := h.exists_scope hsole.contains
  have hcount : 1 ≤ (outcomes file key.names past).length := List.length_pos_iff.mpr hpast
  rw [apply_record_tree hsub hstatus,
    (h.target?_own hsole hsub hx hkey hspec hown hnames).2, List.getElem?_eq_none hcount]

/-- The first record for the name path of the key sets the result of its spec, and later ones
change nothing. -/
theorem record_own (h : Followed file key past s t) (hsole : SoleSpec s.scope key t)
    (hstatus : r.status? = some status) (hown : r.fileName?.all (· == file))
    (hnames : r.names = key.names) :
    Followed file key (past ++ [.record (.spec r)]) (s.apply t (.record (.spec r))).1
      (s.apply t (.record (.spec r))).2.1 := by
  obtain ⟨x, hx, hkey, hspec⟩ := hsole.exists_spec
  obtain ⟨sub, hsub⟩ := h.exists_scope hsole.contains
  obtain ⟨hnamed, htarget⟩ := h.target?_own hsole hsub hx hkey hspec hown hnames
  have houtcomes : outcomes file key.names (past ++ [.record (.spec r)]) =
      outcomes file key.names past ++ [r.result status] := by
    rw [outcomes_append_singleton, outcome?_own hstatus hown, if_pos hnames, Option.toList_some]
  have hcounted : (s.apply t (.record (.spec r))).1.seen.count key.names =
      (outcomes file key.names (past ++ [.record (.spec r)])).length := by
    have hseen : (s.apply t (.record (.spec r))).1.seen = r.names :: s.seen := by
      rw [apply_seen hsub, hnamed, hstatus]
      rfl
    rw [hseen, hnames, List.count_cons_self, h.counted, houtcomes, List.length_append,
      List.length_singleton]
  cases hpast : outcomes file key.names past with
  | nil =>
      -- It is the turn of the spec.
      have htree := apply_record_tree hsub hstatus
      rw [htarget, hpast, List.length_nil, List.getElem?_cons_zero] at htree
      dsimp only at htree
      rw [if_pos (h.shown x hx hkey).1] at htree
      replace htree := htree.trans (applyResult_eq_rebuild h.keyed (contains_key hx) _)
      refine h.of_rebuilt rfl (calm_recording _ (isTerminal_of_status? hstatus)) htree hcounted
        fun y hy hykey => ?_
      obtain rfl := h.keyed.eq_of_key_eq hy hx (hykey.trans hkey.symm)
      rw [houtcomes, hpast, List.nil_append, List.getElem?_cons_zero]
      exact congrArg TestNode.result (info_recording_self y _)
  | cons first rest =>
      -- The spec has had its turn.
      have htree := h.record_again hsole hstatus hown hnames (by simp [hpast])
      refine h.of_rebuilt rfl calm_kept (htree.trans (rebuild_eq_self fun _ _ => rfl).symm) hcounted
        fun y hy hykey => ?_
      have hshow := (h.shown y hy hykey).2
      rw [hpast] at hshow
      rw [rebuild_eq_self fun _ _ => rfl, houtcomes, hpast]
      exact hshow

end Records

/-- One event, short of the exit, keeps the spec of the key with the first outcome. -/
theorem event (h : Followed file key past s t) (hsole : SoleSpec s.scope key t)
    (hexit : isExit e = false) (hspares : Spares file key t e) :
    Followed file key (past ++ [e]) (s.apply t e).1 (s.apply t e).2.1 := by
  cases e with
  | started =>
      refine h.of_quiet rfl ((calm_starting s.run).around calm_kept s.scope)
        (touchAt_eq_rebuild h.keyed h.root s.scope _) rfl rfl fun x hx hkey hshow => ?_
      rw [info_rebuild, around_kept]
      split
      · refine (keeps_showsSoFar s.run).start _ _ (fun r hr => ?_) hshow
        exact isTerminal_of_mem_outcomes (List.mem_of_getElem? hr)
      · exact hshow
  | record record =>
      cases record with
      | suite r => exact h.of_idle rfl rfl rfl rfl
      | spec r =>
          cases hstatus : r.status? with
          | none =>
              refine h.of_idle rfl ?_ (outcome?_foreign (by simp [hstatus]) _) ?_ <;>
                rw [RunSession.apply, hstatus]
          | some status =>
              by_cases hnames : r.names = key.names
              · by_cases hown : r.fileName?.all (· == file)
                · exact h.record_own hsole hstatus hown hnames
                · exact h.record_foreign hsole.contains hstatus hown
              · exact h.record_other hsole.contains hstatus hnames hspares
  | malformed fault => exact h.of_idle rfl rfl rfl rfl
  | output line => exact h.of_idle rfl rfl rfl rfl
  | exited success code => cases hexit

/-- A fresh outline hands result and claim on to the node of the key. -/
theorem reparse (h : Followed file key past s t) (hcontains : t.contains key) (o : Outline) :
    Followed file key past s (ofOutline (some t) o file) where
  keyed := ofOutline_keyed _ o file
  root := ofOutline_key _ o file
  name := by simp [ofOutline, TestNode.file]
  running := h.running
  covers := h.covers
  counted := h.counted
  shown y hy hkey := by
    rcases exists_old_or_fresh h.root o file hy with ⟨x, hx, hxkey, hresult, hrun⟩ | ⟨hgone, -⟩
    · obtain ⟨hclaimed, hshow⟩ := h.shown x hx (hxkey.trans hkey)
      rw [TestNode.isClaimedBy, ← hrun]
      refine ⟨hclaimed, ?_⟩
      unfold ShowsSoFar at hshow ⊢
      rwa [← hresult]
    · exact absurd (hkey ▸ hcontains) hgone

/-- One turn, short of the exit, keeps the spec of the key with the first outcome. -/
theorem turn (h : Followed file key past s t) (hsole : SoleSpec s.scope key t) {a : Turn}
    (hexit : a.isExit = false) (hspares : ∀ e, a = .event e → Spares file key t e)
    (hname : ∀ o name, a = .reparse o name → name = file) :
    Followed file key (past ++ a.event?.toList) (s.turn t a).1 (s.turn t a).2 := by
  cases a with
  | event e => exact h.event hsole hexit (hspares e rfl)
  | reparse o name =>
      obtain rfl := hname o name rfl
      rw [Turn.event?, Option.toList_none, List.append_nil]
      exact h.reparse hsole.contains o

theorem start (hkeyed : t.Keyed) (hroot : t.key = .root)
    {scope : NodeKey} (hcovers : scope.covers key) (run : RunId) :
    Followed t.info.name key [] (RunSession.start t scope run).1
      (RunSession.start t scope run).2.1 where
  keyed := hkeyed.of_frame_eq (start_frame t scope run)
  root := (key_eq_of_frame_eq (start_frame t scope run)).trans hroot
  name := name_eq_of_frame_eq (start_frame t scope run)
  running := rfl
  covers := hcovers
  counted := rfl
  shown := by
    rw [start_eq_rebuild hkeyed hroot]
    refine forall_subtrees_rebuild.mpr fun x hx hkey => ?_
    rw [key_rebuild (bare_preparing scope run)] at hkey
    have hxcovers : scope.covers x.info.key := (show x.info.key = key from hkey) ▸ hcovers
    rw [info_rebuild, preparing_of_covers hxcovers]
    exact ⟨TestNode.isClaimedBy_iff.mpr rfl, .pending, rfl, rfl⟩

/-- The exit of the run skips the spec of the key if no outcome came for it. -/
theorem exit (h : Followed file key past s t) (hsole : SoleSpec s.scope key t)
    (hleaves : t.SpecsAreLeaves) (success : Bool) (code : Option Int) :
    ∃ n, (s.apply t (.exited success code)).2.1.node? key = some n ∧
      n.status = some (firstOutcome file key.names past).status ∧
      n.nanos? = (firstOutcome file key.names past).nanos := by
  obtain ⟨x, hx, hkey, -, hleaf⟩ := hsole.exists_leaf hleaves
  obtain ⟨sub, hsub⟩ := h.exists_scope hsole.contains
  obtain ⟨hclaimed, hshow⟩ := h.shown x hx hkey
  obtain ⟨f, hact, htree⟩ := exists_act h.keyed h.root s (.event (.exited success code))
  have htree' : (s.apply t (.exited success code)).2.1 = t.rebuild f := htree
  have hfound : (t.rebuild f).find? key = some (x.rebuild f) :=
    find?_rebuild hact.calm.bare h.keyed (hkey ▸ h.keyed.find?_key hx)
  refine ⟨(x.rebuild f).info, by rw [htree', node?, hfound, Option.map_some], ?_⟩
  cases hact with
  | stay _ hcloses =>
      rcases hcloses rfl with hfinished | hgone
      · rw [h.running] at hfinished
        cases hfinished
      · exact absurd (contains_of_find? hsub) hgone
  | closed _ _ _ =>
      have hxcovers : s.scope.covers x.info.key := (show x.info.key = key from hkey) ▸ h.covers
      have hresult : (x.info.close s.run []).result = some (firstOutcome file key.names past) :=
        result_close_of_showsSoFar hclaimed
          (fun r hr => isTerminal_of_mem_outcomes (List.mem_of_getElem? hr)) hshow
      have hinfo : (x.rebuild s.closure).info = s.logged (x.info.close s.run []) := by
        rw [info_rebuild, hleaf, closure, around_below hxcovers]
        rfl
      rw [hinfo, status_logged, nanos?_logged]
      exact ⟨TestNode.status_of_result hresult, TestNode.nanos?_of_result hresult⟩

/-- As long as the key names the only spec of its name path in the scope, the spec keeps the first
outcome. -/
theorem playTurns (hkeyed : t.Keyed) (hroot : t.key = .root) (hleaves : t.SpecsAreLeaves)
    {scope : NodeKey} (hcovers : scope.covers key) (run : RunId) {turns : List Turn}
    (hturns : turns.any Turn.isExit = false)
    (houtlines : ∀ o name, .reparse o name ∈ turns → o.SpecsAreLeaves ∧ name = t.info.name)
    (hsole : Throughout t scope run turns (SoleSpec scope key)) :
    Followed t.info.name key (eventsOf turns) (RunSession.playTurns t scope run turns).1
        (RunSession.playTurns t scope run turns).2 ∧
      (RunSession.playTurns t scope run turns).1.scope = scope := by
  induction turns using List.reverseRecOn with
  | nil => exact ⟨start hkeyed hroot hcovers run, rfl⟩
  | append_singleton turns a ih =>
      rw [List.any_append, Bool.or_eq_false_iff, List.any_cons, List.any_nil, Bool.or_false]
        at hturns
      obtain ⟨h, hscope⟩ := ih hturns.1
        (fun o name hmem => houtlines o name (List.mem_append_left _ hmem)) hsole.before
      rw [playTurns_append, eventsOf_append_singleton]
      have hsole' := hsole.before.now
      have hleaves' := specsAreLeaves_playTurns hleaves scope run
        fun o name hmem => (houtlines o name (List.mem_append_left [a] hmem)).1
      refine ⟨h.turn (by rw [hscope]; exact hsole') hturns.2 (fun e _ => ?_) ?_, ?_⟩
      · exact hsole'.spares h.keyed hleaves' _ e
      · rintro o name rfl
        exact (houtlines o name (by simp)).2
      · exact (turn_scope _ _ a).trans hscope

end Followed

/-! ### A key that was missing -/

/-- Nothing at and below a key has a result or belongs to the run. -/
def Untouched (key : NodeKey) (s : RunSession) (t : TestTree) : Prop :=
  ∀ x ∈ t.subtrees, key.covers x.key → x.info.result = none ∧ ¬ x.info.isClaimedBy s.run

/-- What a session has no claim on stays idle where all below it is idle. -/
theorem Act.result_of_idle {s : RunSession} {t x : TestTree} {m : Move} {f : NodeChange}
    (h : Act s t m f) (hkeyed : t.Keyed) (hx : x ∈ t.subtrees)
    (hidle : ∀ y ∈ x.subtrees, y.info.result = none ∧ ¬ y.info.isClaimedBy s.run) :
    (x.rebuild f).info.result = none := by
  induction x with
  | node info children ih =>
      rcases h.result_of_not_claimed hkeyed hx fun y hy => (hidle y hy).2 with
        heq | ⟨-, a, ha, -⟩
      · rw [heq]
        exact (hidle _ (self_mem_subtrees _)).1
      · have hnone : combined (children.map (rebuild f)) = none := by
          refine combined_eq_none_iff.mpr (.inl (List.forall_mem_map.mpr fun c hc => ?_))
          have hct : c ∈ (node info children).subtrees := mem_subtrees_of_mem_children hc
          exact ih c hc (mem_subtrees_trans hct hx) fun y hy =>
            hidle y (mem_subtrees_trans hy hct)
        rw [children_rebuild, children_node, hnone] at ha
        cases ha

namespace Untouched

variable {key : NodeKey} {s : RunSession} {t : TestTree}

theorem of_not_contains (hkeyed : t.Keyed) (hroot : t.key = .root) (hgone : ¬ t.contains key)
    (s : RunSession) : Untouched key s t :=
  fun _ hx hcovers => absurd (hkeyed.contains_above hroot hx hcovers) hgone

/-- Whatever happens, what is untouched stays so. -/
theorem turn (h : Untouched key s t) (hkeyed : t.Keyed) (hroot : t.key = .root) (a : Turn) :
    Untouched key (s.turn t a).1 (s.turn t a).2 := by
  rw [Untouched, turn_run]
  cases a with
  | reparse o name =>
      intro y hy hcovers
      rcases exists_old_or_fresh hroot o name hy with ⟨x, hx, hxkey, hresult, hrun⟩ |
        ⟨-, hresult, hrun⟩
      · rw [← hresult, TestNode.isClaimedBy, ← hrun]
        exact h x hx (hxkey ▸ hcovers)
      · exact ⟨hresult, by simp [TestNode.isClaimedBy, hrun]⟩
  | event e =>
      obtain ⟨f, hact, htree⟩ := exists_act hkeyed hroot s (.event e)
      have htree' : (s.turn t (.event e)).2 = t.rebuild f := htree
      rw [htree']
      refine forall_subtrees_rebuild.mpr fun x hx hcovers => ?_
      rw [key_rebuild hact.calm.bare] at hcovers
      refine ⟨hact.result_of_idle hkeyed hx fun y hy => h y (mem_subtrees_trans hy hx) ?_, ?_⟩
      · exact NodeKey.covers_trans hcovers ((hkeyed.of_mem_subtrees hx).covers_of_mem_subtrees hy)
      · rw [hact.calm.isClaimedBy]
        exact (h x hx hcovers).2

theorem turnAll (h : Untouched key s t) (hkeyed : t.Keyed) (hroot : t.key = .root)
    (turns : List Turn) : Untouched key (s.turnAll t turns).1 (s.turnAll t turns).2 := by
  induction turns generalizing s t with
  | nil => exact h
  | cons a rest ih =>
      exact ih (h.turn hkeyed hroot a) (keyed_turn hkeyed s a) (key_turn hroot s a)

/-- A key that is missing from one tree of a run has nothing in later ones. -/
theorem playTurns {t : TestTree} (hkeyed : t.Keyed) (hroot : t.key = .root) {scope : NodeKey}
    {run : RunId} {past : List Turn}
    (hgone : ¬ (RunSession.playTurns t scope run past).2.contains key) (rest : List Turn) :
    Untouched key (RunSession.playTurns t scope run (past ++ rest)).1
      (RunSession.playTurns t scope run (past ++ rest)).2 := by
  have hframe := start_frame t scope run
  obtain ⟨hkeyed', hroot'⟩ := file_turnAll (hkeyed.of_frame_eq hframe)
    ((key_eq_of_frame_eq hframe).trans hroot) (start t scope run).1 past
  rw [playTurns_append]
  exact (of_not_contains hkeyed' hroot' hgone _).turnAll hkeyed' hroot' rest

end Untouched

/-- However the file is outlined anew while a run is the only one: a spec under the scope whose key
names a spec in every tree of the run, the only one of its name path in the scope, ends with status
and time of the first outcome of its name path, or skipped if none came. What has a key that was
missing from one of the trees ends idle. -/
theorem outcomes_follow_keys_across_outlines {t : TestTree} (hkeyed : t.Keyed)
    (hroot : t.key = .root) (hleaves : t.SpecsAreLeaves) {scope key : NodeKey}
    (hcovers : scope.covers key) (run : RunId) {turns : List Turn}
    (hturns : turns.any Turn.isExit = false)
    (houtlines : ∀ o name, .reparse o name ∈ turns → o.SpecsAreLeaves ∧ name = t.info.name)
    (success : Bool) (code : Option Int) :
    (Throughout t scope run turns (SoleSpec scope key) →
      ∃ n, (playTurns t scope run (turns ++ [.event (.exited success code)])).2.node? key =
          some n ∧
        n.status = some (firstOutcome t.info.name key.names (eventsOf turns)).status ∧
        n.nanos? = (firstOutcome t.info.name key.names (eventsOf turns)).nanos) ∧
    (¬ Throughout t scope run turns (·.contains key) →
      ∀ n, (playTurns t scope run (turns ++ [.event (.exited success code)])).2.node? key =
        some n → n.result = none) := by
  refine ⟨fun hsole => ?_, fun hmissing n hn => ?_⟩
  · obtain ⟨hfollowed, hscope⟩ :=
      Followed.playTurns hkeyed hroot hleaves hcovers run hturns houtlines hsole
    rw [playTurns_append]
    have hleaves' := specsAreLeaves_playTurns hleaves scope run
      fun o name hmem => (houtlines o name hmem).1
    exact hfollowed.exit (by rw [hscope]; exact hsole.now) hleaves' success code
  · simp only [Throughout, not_forall, exists_prop] at hmissing
    obtain ⟨past, ⟨rest, rfl⟩, hgone⟩ := hmissing
    rw [List.append_assoc] at hn
    obtain ⟨x, hx, rfl⟩ := Option.map_eq_some_iff.mp hn
    obtain ⟨hmem, rfl⟩ := mem_subtrees_of_find? hx
    exact (Untouched.playTurns hkeyed hroot hgone _ x hmem (NodeKey.covers_refl _)).1

/-- A run of a container, with two fresh outlines around the record of a spec in it. Each has
another spec in another place. -/
def editedRun : List Turn :=
  [.event .started, .reparse (.cartOf ["removes", "adds"]) "cart_test.go",
    .event (.record (.spec ⟨["cart"], "adds", "passed", none, none, some 5, none⟩)),
    .reparse (.cartOf ["adds", "removes"]) "cart_test.go"]

theorem outcomes_follow_keys_across_outlines_cart :
    (.ofNames ["cart"] : NodeKey).covers (.ofNames ["cart", "adds"]) ∧
      editedRun.any Turn.isExit = false ∧
      Throughout (TestTree.merge none (.cartOf ["adds"]) "cart_test.go").1 (.ofNames ["cart"]) 7
        editedRun (SoleSpec (.ofNames ["cart"]) (.ofNames ["cart", "adds"])) ∧
      (∃ n, (playTurns (TestTree.merge none (.cartOf ["adds"]) "cart_test.go").1
          (.ofNames ["cart"]) 7 (editedRun ++ [.event (.exited true (some 0))])).2.node?
            (.ofNames ["cart", "adds"]) = some n ∧
        n.status = some .passed ∧ n.nanos? = some 5) ∧
      ∃ n, (playTurns (TestTree.merge none (.cartOf ["adds"]) "cart_test.go").1
          (.ofNames ["cart"]) 7 (editedRun ++ [.event (.exited true (some 0))])).2.node?
            (.ofNames ["cart", "removes"]) = some n ∧ n.result = none := by
  have hcovers : (.ofNames ["cart"] : NodeKey).covers (.ofNames ["cart", "adds"]) := by decide
  have hother : (.ofNames ["cart"] : NodeKey).covers (.ofNames ["cart", "removes"]) := by decide
  have hexit : editedRun.any Turn.isExit = false := rfl
  have hname : (ofOutline none (.cartOf ["adds"]) "cart_test.go").info.name = "cart_test.go" := rfl
  have houtlines : ∀ o name, .reparse o name ∈ editedRun → o.SpecsAreLeaves ∧
      name = (ofOutline none (.cartOf ["adds"]) "cart_test.go").info.name := by
    intro o name hmem
    rw [hname]
    simp only [editedRun, List.mem_cons, reduceCtorEq, false_or, Turn.reparse.injEq,
      List.not_mem_nil, or_false] at hmem
    rcases hmem with ⟨rfl, rfl⟩ | ⟨rfl, rfl⟩
    · exact ⟨Outline.cartOf_specsAreLeaves _, rfl⟩
    · exact ⟨Outline.cartOf_specsAreLeaves _, rfl⟩
  have hsole : Throughout (ofOutline none (.cartOf ["adds"]) "cart_test.go") (.ofNames ["cart"]) 7
      editedRun (SoleSpec (.ofNames ["cart"]) (.ofNames ["cart", "adds"])) := by
    have hall : ∀ past ∈ editedRun.inits, SoleSpec (.ofNames ["cart"]) (.ofNames ["cart", "adds"])
        (playTurns (ofOutline none (.cartOf ["adds"]) "cart_test.go") (.ofNames ["cart"]) 7
          past).2 := by
      decide +kernel
    exact fun past hpast => hall past ((List.mem_inits _ _).mpr hpast)
  have hgone : ¬ Throughout (ofOutline none (.cartOf ["adds"]) "cart_test.go") (.ofNames ["cart"]) 7
      editedRun (·.contains (.ofNames ["cart", "removes"])) := by
    intro hall
    have hstart := hall [] List.nil_prefix
    revert hstart
    decide +kernel
  have hleaves := ofOutline_specsAreLeaves none (Outline.cartOf_specsAreLeaves ["adds"])
    "cart_test.go"
  obtain ⟨n, hn, hstatus, hnanos⟩ := (outcomes_follow_keys_across_outlines
    (ofOutline_keyed none _ _) (ofOutline_key none _ _) hleaves hcovers 7 hexit houtlines true
    (some 0)).1 hsole
  have hidle := (outcomes_follow_keys_across_outlines (ofOutline_keyed none _ _)
    (ofOutline_key none _ _) hleaves hother 7 hexit houtlines true (some 0)).2 hgone
  have hfirst : firstOutcome (ofOutline none (.cartOf ["adds"]) "cart_test.go").info.name
      (NodeKey.ofNames ["cart", "adds"]).names (eventsOf editedRun) = ⟨.passed, none, some 5⟩ := by
    decide +kernel
  rw [hfirst] at hstatus hnanos
  have hback : ((playTurns (ofOutline none (.cartOf ["adds"]) "cart_test.go") (.ofNames ["cart"]) 7
      (editedRun ++ [.event (.exited true (some 0))])).2.node?
        (.ofNames ["cart", "removes"])).isSome := by
    decide +kernel
  obtain ⟨m, hm⟩ := Option.isSome_iff_exists.mp hback
  exact ⟨hcovers, hexit, hsole, ⟨n, hn, hstatus, hnanos⟩, m, hm, hidle m hm⟩

end RunSession

end SpecExplorer
