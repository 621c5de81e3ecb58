/-
# Runs over scopes that are apart

Sessions over scopes of which none lies above another can take their steps in any order. Inside its
scope each session does what it does alone, whatever the number of its run: no other session gets
there. What lies above the scopes is settled by whichever session comes to something below it, from
what the others have come to by then. But the prospect of the tree stays the same through all
steps, and once every run has ended, the tree has come to it.
-/
import Mathlib.Logic.Function.Basic
import SpecExplorer.Proofs.Run.Agreement
import SpecExplorer.Proofs.Run.Prospect

namespace SpecExplorer

open TestTree RunSession

/-- Sessions on one tree, each with a name of its own. -/
structure SideBySide (ι : Type) where
  tree : TestTree
  session : ι → Option RunSession

namespace SideBySide

variable {ι : Type}

/-- A session begins, or one that has begun is handed an event. -/
inductive Step (ι : Type) where
  | begin (i : ι)
  | event (i : ι) (e : RunEvent)

/-- The session that takes a step. -/
def Step.owner : Step ι → ι
  | .begin i => i
  | .event i _ => i

/-- A tree before any session begins. -/
def fresh (t : TestTree) : SideBySide ι := ⟨t, fun _ => none⟩

section Operations

variable [DecidableEq ι]

/-- A session has come so far, and has left the tree so. -/
def put (x : SideBySide ι) (i : ι) (s : RunSession) (t : TestTree) : SideBySide ι :=
  ⟨t, Function.update x.session i (some s)⟩

theorem session_put_self (x : SideBySide ι) (i : ι) (s : RunSession) (t : TestTree) :
    (x.put i s t).session i = some s :=
  Function.update_self i _ _

theorem session_put_other {i j : ι} (h : j ≠ i) (x : SideBySide ι) (s : RunSession)
    (t : TestTree) : (x.put i s t).session j = x.session j :=
  Function.update_of_ne h _ _

/-- Takes one step, given the scope of each session and the number of its run. An event for a
session that has not begun is lost. -/
def step (scope : ι → NodeKey) (run : ι → RunId) (x : SideBySide ι) : Step ι → SideBySide ι
  | .begin i =>
    x.put i (start x.tree (scope i) (run i)).1 (start x.tree (scope i) (run i)).2.1
  | .event i e =>
    match x.session i with
    | none => x
    | some s => x.put i (s.apply x.tree e).1 (s.apply x.tree e).2.1

/-- Takes steps one after the other. -/
def steps (scope : ι → NodeKey) (run : ι → RunId) (x : SideBySide ι) :
    List (Step ι) → SideBySide ι
  | [] => x
  | st :: rest => steps scope run (x.step scope run st) rest

/-- The steps of one session. -/
def own (i : ι) (all : List (Step ι)) : List (Step ι) := all.filter (·.owner = i)

/-- Each session begins once, and is then handed its events in their order. -/
def Interleaves (events : ι → List RunEvent) (all : List (Step ι)) : Prop :=
  ∀ i, own i all = .begin i :: (events i).map (.event i)

theorem own_cons_self {i : ι} {st : Step ι} (h : st.owner = i) (rest : List (Step ι)) :
    own i (st :: rest) = st :: own i rest :=
  List.filter_cons_of_pos (decide_eq_true h)

theorem own_cons_other {i : ι} {st : Step ι} (h : st.owner ≠ i) (rest : List (Step ι)) :
    own i (st :: rest) = own i rest :=
  List.filter_cons_of_neg (by simpa using h)

end Operations

/-! ### What holds at all times -/

/-- A key lies in the scope of some session. -/
def InScope (scope : ι → NodeKey) (key : NodeKey) : Prop := ∃ i, (scope i).covers key

/-- A key lies above a scope that is in the tree. -/
def AboveScope (t : TestTree) (scope : ι → NodeKey) (key : NodeKey) : Prop :=
  ∃ i, t.contains (scope i) ∧ key.covers (scope i)

/-- In a tree all is settled that lies above a key and in no scope. -/
def SettledAbove (scope : ι → NodeKey) (key : NodeKey) (t : TestTree) : Prop :=
  ∀ y ∈ t.subtrees, ¬ InScope scope y.key → y.key.covers key → y.IsSettled

theorem SettledAbove.rebuild {scope : ι → NodeKey} {key : NodeKey} {t : TestTree}
    (h : SettledAbove scope key t) {i : ι} {f : NodeChange} (hf : Confined (scope i) t f) :
    SettledAbove scope key (t.rebuild f) := by
  refine forall_subtrees_rebuild.mpr fun y hy hbelow habove => ?_
  rw [key_rebuild hf.bare] at hbelow habove
  exact hf.isSettled y hy (fun hcovers => hbelow ⟨i, hcovers⟩) (h y hy hbelow habove)

/-- The tree has kept the frame that it had, each session has its scope, and what lies above the
scope of a session that has ended is settled. -/
structure Sound (t : TestTree) (scope : ι → NodeKey) (x : SideBySide ι) : Prop where
  keyed : x.tree.Keyed
  root : x.tree.key = .root
  frame : x.tree.frame = t.frame
  scopes : ∀ i s, x.session i = some s → s.scope = scope i
  settled : ∀ i s, x.session i = some s → s.finished → t.contains (scope i) →
    SettledAbove scope (scope i) x.tree

theorem Sound.fresh {t : TestTree} (hkeyed : t.Keyed) (hroot : t.key = .root)
    (scope : ι → NodeKey) : Sound t scope (fresh t) :=
  ⟨hkeyed, hroot, rfl, nofun, nofun⟩

/-! ### One step -/

variable [DecidableEq ι]

/-- What a step does to the tree and the sessions. -/
inductive Stepped (scope : ι → NodeKey) (run : ι → RunId) (x : SideBySide ι) :
    Step ι → SideBySide ι → Prop
  | /-- A session begins. -/
    begun (i : ι) : Stepped scope run x (.begin i)
      (x.put i (start x.tree (scope i) (run i)).1
        (x.tree.rebuild (preparing (scope i) (run i))))
  | /-- A session is handed an event. -/
    acted {i : ι} {e : RunEvent} {s : RunSession} {f : NodeChange}
      (hsession : x.session i = some s) (hact : Act s x.tree (.event e) f) :
      Stepped scope run x (.event i e) (x.put i (s.apply x.tree e).1 (x.tree.rebuild f))
  | /-- There is no such session yet. -/
    absent {i : ι} {e : RunEvent} (hnone : x.session i = none) : Stepped scope run x (.event i e) x

section Steps

variable {t : TestTree} {scope : ι → NodeKey} {run : ι → RunId} {x x' : SideBySide ι} {st : Step ι}

theorem Sound.stepped (h : Sound t scope x) (run : ι → RunId) (st : Step ι) :
    Stepped scope run x st (x.step scope run st) := by
  cases st with
  | begin i =>
      rw [step, start_eq_rebuild h.keyed h.root]
      exact .begun i
  | event i e =>
      rw [step]
      cases hsession : x.session i with
      | none => exact .absent hsession
      | some s =>
          obtain ⟨f, hact, htree⟩ := exists_act h.keyed h.root s (.event e)
          replace htree : (s.apply x.tree e).2.1 = x.tree.rebuild f := htree
          dsimp only
          rw [htree]
          exact .acted hsession hact

namespace Stepped

variable (hstep : Stepped scope run x st x')

include hstep

/-- A step leaves the sessions of others. -/
theorem session_other {i : ι} (h : st.owner ≠ i) : x'.session i = x.session i := by
  cases hstep with
  | begun | acted => exact session_put_other h.symm x _ _
  | absent => rfl

/-- A step is about the scope of its session. -/
theorem exists_confined (h : Sound t scope x) :
    ∃ f, Confined (scope st.owner) x.tree f ∧ x'.tree = x.tree.rebuild f := by
  cases hstep with
  | begun i => exact ⟨_, .preparing (scope i) (run i) x.tree, rfl⟩
  | @acted i e s f hsession hact =>
      have hconfined := hact.confined h.keyed h.root nofun
      rw [h.scopes i s hsession] at hconfined
      exact ⟨f, hconfined, rfl⟩
  | absent => exact ⟨_, .keeping _ x.tree, (rebuild_eq_self fun _ _ => rfl).symm⟩

theorem scope_eq (h : Sound t scope x) {i : ι} {s : RunSession} (hsession : x'.session i = some s) :
    s.scope = scope i := by
  by_cases howner : st.owner = i
  · obtain rfl := howner
    cases hstep with
    | begun j =>
        obtain rfl := Option.some.inj ((session_put_self ..).symm.trans hsession)
        rfl
    | @acted j e p f hp hact =>
        obtain rfl := Option.some.inj ((session_put_self ..).symm.trans hsession)
        exact (apply_scope p _ _).trans (h.scopes j p hp)
    | absent => exact h.scopes _ s hsession
  · exact h.scopes i s (hstep.session_other howner ▸ hsession)

/-- Where a session has ended after a step, what lies above its scope is settled. -/
theorem settledAbove (h : Sound t scope x) {i : ι} {s : RunSession}
    (hsession : x'.session i = some s) (hfinished : s.finished)
    (hcontains : t.contains (scope i)) : SettledAbove scope (scope i) x'.tree := by
  obtain ⟨f, hf, htree⟩ := hstep.exists_confined h
  have hkept : ∀ p, x.session i = some p → p.finished → SettledAbove scope (scope i) x'.tree := by
    intro p hp hfinished
    rw [htree]
    exact (h.settled i p hp hfinished hcontains).rebuild hf
  by_cases howner : st.owner = i
  · obtain rfl := howner
    cases hstep with
    | begun j =>
        obtain rfl := Option.some.inj ((session_put_self ..).symm.trans hsession)
        cases hfinished
    | @acted j e p f hp hact =>
        obtain rfl := Option.some.inj ((session_put_self ..).symm.trans hsession)
        cases hopen : p.finished with
        | true => exact hkept p hp hopen
        | false =>
            -- The session has ended with this very step, so the step has closed its run.
            rw [apply_finished, hopen, Bool.false_or] at hfinished
            have hscope := h.scopes j p hp
            refine forall_subtrees_rebuild.mpr fun y hy hbelow habove => ?_
            rw [key_rebuild hact.calm.bare] at hbelow habove
            refine hact.isSettled_of_closes hfinished hopen ?_ ?_ ?_
            · rwa [hscope, contains_eq_of_frame_eq h.frame]
            · rw [hscope]
              exact fun hcovers => hbelow ⟨j, hcovers⟩
            · rwa [hscope]
    | absent => exact hkept s hsession hfinished
  · exact hkept s (hstep.session_other howner ▸ hsession) hfinished

theorem sound (h : Sound t scope x) : Sound t scope x' := by
  have hframe : x'.tree.frame = x.tree.frame := by
    obtain ⟨f, hf, htree⟩ := hstep.exists_confined h
    rw [htree]
    exact rebuild_frame hf.bare _
  exact ⟨h.keyed.of_frame_eq hframe, (key_eq_of_frame_eq hframe).trans h.root,
    hframe.trans h.frame, fun _ _ hsession => hstep.scope_eq h hsession,
    fun _ _ hsession hfinished hcontains => hstep.settledAbove h hsession hfinished hcontains⟩

end Stepped

/-! ### A session among others -/

/-- How far a session has come, measured at the same session alone on the first tree. -/
inductive Progress (t : TestTree) (key : NodeKey) (run : RunId) (events : List RunEvent) (i : ι)
    (x : SideBySide ι) (rest : List (Step ι)) : Prop
  | /-- It has not begun, and its scope is as it was. -/
    waiting {sub : TestTree} (hrest : own i rest = .begin i :: events.map (.event i))
      (hsub : t.find? key = some sub) (hfound : x.tree.find? key = some sub)
  | /-- It has been handed some of its events. -/
    running {past later : List RunEvent} {s : RunSession} {sub : TestTree}
      (hevents : past ++ later = events) (hrest : own i rest = later.map (.event i))
      (hsession : x.session i = some s) (hscope : s.scope = key)
      (halike : Alike s x.tree (play t key run past).1 (play t key run past).2 sub)

namespace Progress

variable {key : NodeKey} {r : RunId} {events : List RunEvent} {i : ι} {rest : List (Step ι)}

/-- A step of another session does not bear on a session apart from it. -/
theorem other (h : Progress t key r events i x (st :: rest)) (howner : st.owner ≠ i)
    (hkeyed : x.tree.Keyed) (hsession : x'.session i = x.session i) {place : NodeKey}
    {f : NodeChange} (hf : Confined place x.tree f) (htree : x'.tree = x.tree.rebuild f)
    (hbelow : ¬ place.covers key) (habove : ¬ key.covers place) :
    Progress t key r events i x' rest := by
  have hkept : ∀ {sub}, x.tree.find? key = some sub → sub.rebuild f = sub := by
    intro sub hfound
    obtain ⟨hmem, rfl⟩ := mem_subtrees_of_find? hfound
    exact hf.rebuild_apart (hkeyed.of_mem_subtrees hmem) hbelow habove
  cases h with
  | waiting hrest hsub hfound =>
      refine .waiting (own_cons_other howner rest ▸ hrest) hsub ?_
      rw [htree, find?_rebuild hf.bare hkeyed hfound, hkept hfound]
  | running hevents hrest hs hscope halike =>
      have halike' := halike.elsewhere hf.bare (hkept (hscope ▸ halike.found))
      rw [← htree] at halike'
      exact .running hevents (own_cons_other howner rest ▸ hrest) (hsession.trans hs) hscope halike'

/-- With a step of its own a session does what it does alone. -/
theorem self (h : Progress t (scope i) r events i x (st :: rest)) (howner : st.owner = i)
    (hsound : Sound t scope x) (run : ι → RunId) :
    Progress t (scope i) r events i (x.step scope run st) rest := by
  have hkeyed := hsound.keyed.of_frame_eq hsound.frame.symm
  cases h with
  | waiting hrest hsub hfound =>
      rw [own_cons_self howner] at hrest
      obtain ⟨rfl, hrest'⟩ := List.cons.inj hrest
      obtain ⟨sub₁, halike⟩ := Alike.start hsound.keyed hkeyed hsound.root
        (name_eq_of_frame_eq hsound.frame.symm) hfound hsub (run i) r
      exact .running (List.nil_append events) hrest' (session_put_self ..) rfl halike
  | @running past later s sub hevents hrest hsession hscope halike =>
      rw [own_cons_self howner] at hrest
      cases later with
      | nil => cases hrest
      | cons e later =>
          obtain ⟨rfl, hrest'⟩ := List.cons.inj hrest
          have hevents' : past ++ [e] ++ later = events := by
            rw [List.append_assoc]
            exact hevents
          have hstep : x.step scope run (.event i e) =
              x.put i (s.apply x.tree e).1 (s.apply x.tree e).2.1 := by
            rw [step, hsession]
          obtain ⟨sub₁, halike'⟩ := halike.apply e
          have hplay := play_append_singleton t (scope i) r past e
          rw [hstep]
          exact .running hevents' hrest' (session_put_self ..) ((apply_scope ..).trans hscope) <| by
            rw [hplay]
            exact halike'

/-- A step leaves every session where it is, if it is apart from the others, or takes it on. -/
theorem step (h : Progress t (scope i) r events i x (st :: rest)) (hsound : Sound t scope x)
    (run : ι → RunId) (hapart : ∀ i j, i ≠ j → ¬ (scope i).covers (scope j)) :
    Progress t (scope i) r events i (x.step scope run st) rest := by
  by_cases howner : st.owner = i
  · exact h.self howner hsound run
  · have hstepped := hsound.stepped run st
    obtain ⟨f, hf, htree⟩ := hstepped.exists_confined hsound
    exact h.other howner hsound.keyed (hstepped.session_other howner) hf htree
      (hapart _ _ howner) (hapart _ _ (Ne.symm howner))

end Progress

/-! ### All steps -/

theorem Sound.steps (h : Sound t scope x) (run : ι → RunId) (all : List (Step ι)) :
    Sound t scope (x.steps scope run all) := by
  induction all generalizing x with
  | nil => exact h
  | cons st rest ih => exact ih ((h.stepped run st).sound h)

/-- When all steps have been taken, each session over a scope of the tree has done in it what it
does alone. -/
theorem Progress.exists_alike {i : ι} {r : RunId} {events : List RunEvent} {all : List (Step ι)}
    (h : Progress t (scope i) r events i x all) (hsound : Sound t scope x) (run : ι → RunId)
    (hapart : ∀ i j, i ≠ j → ¬ (scope i).covers (scope j)) :
    ∃ s sub, (x.steps scope run all).session i = some s ∧ s.scope = scope i ∧
      Alike s (x.steps scope run all).tree (play t (scope i) r events).1
        (play t (scope i) r events).2 sub := by
  induction all generalizing x with
  | nil =>
      cases h with
      | waiting hrest => cases hrest
      | @running past later s sub hevents hrest hsession hscope halike =>
          obtain rfl : later = [] := List.map_eq_nil_iff.mp hrest.symm
          obtain rfl : past = events := (List.append_nil past).symm.trans hevents
          exact ⟨s, sub, hsession, hscope, halike⟩
  | cons st rest ih => exact ih (h.step hsound run hapart) ((hsound.stepped run st).sound hsound)

noncomputable instance : DecidablePred (InScope scope) := Classical.decPred _

noncomputable instance : DecidablePred (AboveScope t scope) := Classical.decPred _

/-- What the tree is to become, given what will be in the scopes. -/
noncomputable def ahead (t : TestTree) (scope : ι → NodeKey) (last : NodeKey → TestNode) :
    NodeChange :=
  prospect (InScope scope) (AboveScope t scope) last

section Ahead

variable {last : NodeKey → TestNode}
  (hfinished : ∀ i, t.contains (scope i) → (last (scope i)).isFinished)

include hfinished

/-- A step leaves the prospect of the tree. -/
theorem Stepped.rebuild_ahead (hstep : Stepped scope run x st x') (h : Sound t scope x) :
    x'.tree.rebuild (ahead t scope last) = x.tree.rebuild (ahead t scope last) := by
  obtain ⟨f, hf, htree⟩ := hstep.exists_confined h
  have hcontains := contains_eq_of_frame_eq h.frame
  rw [htree]
  refine hf.rebuild_prospect (fun key hcovers => ⟨st.owner, hcovers⟩)
    (fun key hscope hcovers => ⟨st.owner, hcontains _ ▸ hscope, hcovers⟩) ?_
  rintro y hy hbelow c hc ⟨i, hcovers⟩
  -- A scope that begins below a node begins at a child of it.
  have hkey : scope i = c.key := (h.keyed.of_mem_subtrees hy).eq_of_covers_child hc hcovers
    fun hcovers => hbelow ⟨i, hcovers⟩
  have hmem := mem_subtrees_trans (mem_subtrees_of_mem_children hc) hy
  rw [← hkey]
  refine hfinished i ?_
  rw [hkey, ← hcontains]
  exact contains_key hmem

theorem rebuild_ahead_steps (h : Sound t scope x) (run : ι → RunId) (all : List (Step ι)) :
    (x.steps scope run all).tree.rebuild (ahead t scope last) =
      x.tree.rebuild (ahead t scope last) := by
  induction all generalizing x with
  | nil => rfl
  | cons st rest ih =>
      have hstepped := h.stepped run st
      exact (ih (hstepped.sound h)).trans (hstepped.rebuild_ahead hfinished h)

end Ahead

end Steps

/-! ### The end of all runs -/

/-- After its exit a session alone has ended, and its scope is finished. -/
theorem play_exit {t : TestTree} (hkeyed : t.Keyed) (hleaves : t.SpecsAreLeaves) {key : NodeKey}
    (hkey : t.contains key) (r : RunId) {events : List RunEvent} (hexit : events.any isExit) :
    (play t key r events).1.finished ∧
      ∃ n, (play t key r events).2.node? key = some n ∧ n.isFinished := by
  obtain ⟨sub, hsub⟩ := Option.isSome_iff_exists.mp hkey
  obtain ⟨sub', halone, hscope, hfinished⟩ :=
    (Alone.start hkeyed hleaves hsub r).applyAll events
  have hended : (play t key r events).1.finished := by
    refine hfinished.trans ?_
    rw [hexit, Bool.or_true]
  have hfound : (play t key r events).2.find? key = some sub' := by
    have hfound := halone.found
    rw [hscope] at hfound
    exact hfound
  refine ⟨hended, sub'.info, ?_, (halone.closed hended).root⟩
  rw [node?, hfound, Option.map_some]

section End

variable {t : TestTree} {scope : ι → NodeKey} {events : ι → List RunEvent} {all : List (Step ι)}
  (hapart : ∀ i j, i ≠ j → ¬ (scope i).covers (scope j))

include hapart

omit [DecidableEq ι] in
/-- For each place in some scope there is what the session over that scope leaves there alone. -/
theorem exists_last (r : RunId) (events : ι → List RunEvent) :
    ∃ last : NodeKey → TestNode, ∀ key i, (scope i).covers key →
      ∀ n, (play t (scope i) r (events i)).2.node? key = some n → last key = n := by
  suffices hall : ∀ key, ∃ m, ∀ i, (scope i).covers key →
      ∀ n, (play t (scope i) r (events i)).2.node? key = some n → m = n from
    Classical.skolem.mp hall
  intro key
  by_cases hsome : ∃ i n, (scope i).covers key ∧
      (play t (scope i) r (events i)).2.node? key = some n
  · obtain ⟨i, n, hi, hn⟩ := hsome
    refine ⟨n, fun j hj m hm => ?_⟩
    have hsame : i = j := by
      by_contra hne
      exact (NodeKey.covers_or_covers hi hj).elim (hapart i j hne) (hapart j i (Ne.symm hne))
    subst hsame
    exact Option.some.inj (hn.symm.trans hm)
  · exact ⟨t.info, fun i hi n hn => absurd ⟨i, n, hi, hn⟩ hsome⟩

variable (hkeyed : t.Keyed) (hroot : t.key = .root) (hall : Interleaves events all)

include hkeyed hroot hall

/-- In the end each session over a scope of the tree has done there what it does alone. -/
theorem exists_alike {i : ι} (hscope : t.contains (scope i)) (r : RunId) (run : ι → RunId) :
    ∃ s sub, ((fresh t).steps scope run all).session i = some s ∧ s.scope = scope i ∧
      Alike s ((fresh t).steps scope run all).tree (play t (scope i) r (events i)).1
        (play t (scope i) r (events i)).2 sub := by
  obtain ⟨sub, hsub⟩ := Option.isSome_iff_exists.mp hscope
  exact Progress.exists_alike (.waiting (hall i) hsub hsub) (.fresh hkeyed hroot scope) run hapart

/-- In the end a scope has, but for the runs, what its session leaves there alone. -/
theorem node?_steps (r : RunId) (run : ι → RunId) {i : ι} {key : NodeKey}
    (hcovers : (scope i).covers key) :
    (((fresh t).steps scope run all).tree.node? key).map (TestNode.withRun none) =
      ((play t (scope i) r (events i)).2.node? key).map (TestNode.withRun none) := by
  have hsound := (Sound.fresh hkeyed hroot scope).steps run all
  have hplay := play_frame t (scope i) r (events i)
  by_cases hkey : ((fresh t).steps scope run all).tree.contains key
  · obtain ⟨y, hy, rfl⟩ := contains_iff.mp hkey
    have hscope := hsound.keyed.contains_above hsound.root hy hcovers
    rw [contains_eq_of_frame_eq hsound.frame] at hscope
    obtain ⟨s, sub, -, hscope, halike⟩ := exists_alike hapart hkeyed hroot hall hscope r run
    rw [halike.node? hy (hscope ▸ hcovers), node?, hsound.keyed.find?_key hy]
    rfl
  · have hnone : ∀ u : TestTree, u.frame = t.frame → u.node? key = none := by
      intro u hu
      rw [contains_eq_of_frame_eq hsound.frame, ← contains_eq_of_frame_eq hu] at hkey
      simpa [node?, contains] using hkey
    rw [hnone _ hsound.frame, hnone _ hplay]

/-- In the end the tree has come to its prospect: in each scope there is what the session leaves
there alone, and what lies above is settled. -/
theorem withRun_steps (hleaves : t.SpecsAreLeaves) (hexit : ∀ i, (events i).any isExit) {r : RunId}
    {last : NodeKey → TestNode} (hlast : ∀ key i, (scope i).covers key →
      ∀ n, (play t (scope i) r (events i)).2.node? key = some n → last key = n)
    (run : ι → RunId) :
    ((fresh t).steps scope run all).tree.withRun none =
      (t.rebuild (ahead t scope last)).withRun none := by
  have hfresh : Sound t scope (fresh t) := .fresh hkeyed hroot scope
  have hsound := hfresh.steps run all
  have hfinished : ∀ i, t.contains (scope i) → (last (scope i)).isFinished := by
    intro i hcontains
    obtain ⟨-, n, hn, hfinished⟩ := play_exit hkeyed hleaves hcontains r (hexit i)
    rwa [hlast _ i (NodeKey.covers_refl _) n hn]
  have htree : ((fresh t).steps scope run all).tree.rebuild (ahead t scope last) =
      t.rebuild (ahead t scope last) := rebuild_ahead_steps hfinished hfresh run all
  rw [← htree]
  refine (withRun_rebuild_prospect ?_ ?_).symm
  · rintro y hy ⟨i, hcovers⟩
    have hsame := node?_steps hapart hkeyed hroot hall r run hcovers
    rw [node?, hsound.keyed.find?_key hy] at hsame
    obtain ⟨n, hn, hrun⟩ := Option.map_eq_some_iff.mp hsame.symm
    rw [hlast y.key i hcovers n hn, hrun]
  · rintro y hy hbelow ⟨i, hscope, habove⟩
    obtain ⟨s, sub, hsession, -, halike⟩ := exists_alike hapart hkeyed hroot hall hscope r run
    refine hsound.settled i s hsession ?_ hscope y hy hbelow habove
    rw [← halike.finished]
    exact (play_exit hkeyed hleaves hscope r (hexit i)).1

end End

/-- However the steps of sessions over scopes apart are interleaved, each session handed all its
events with an exit among them, and whatever the numbers of their runs: but for the runs that its
nodes belong to, the tree is the same in the end, and in each scope it is what the session over it
leaves there alone. -/
theorem runs_apart_end_alike {t : TestTree} (hkeyed : t.Keyed) (hroot : t.key = .root)
    (hleaves : t.SpecsAreLeaves) {scope : ι → NodeKey}
    (hapart : ∀ i j, i ≠ j → ¬ (scope i).covers (scope j)) {events : ι → List RunEvent}
    (hexit : ∀ i, (events i).any isExit) (run run' : ι → RunId) {all all' : List (Step ι)}
    (hall : Interleaves events all) (hall' : Interleaves events all') :
    ((fresh t).steps scope run all).tree.withRun none =
        ((fresh t).steps scope run' all').tree.withRun none ∧
      ∀ i key, (scope i).covers key →
        (((fresh t).steps scope run all).tree.node? key).map (TestNode.withRun none) =
          ((play t (scope i) (run i) (events i)).2.node? key).map (TestNode.withRun none) := by
  refine ⟨?_, fun i key => node?_steps hapart hkeyed hroot hall (run i) run⟩
  obtain ⟨last, hlast⟩ := exists_last (t := t) hapart 0 events
  calc ((fresh t).steps scope run all).tree.withRun none
    _ = (t.rebuild (ahead t scope last)).withRun none :=
        withRun_steps hapart hkeyed hroot hall hleaves hexit hlast run
    _ = ((fresh t).steps scope run' all').tree.withRun none :=
        (withRun_steps hapart hkeyed hroot hall' hleaves hexit hlast run').symm

/-- The scopes of two sessions, one for each spec of the cart. -/
def cartScopes (first : Bool) : NodeKey := .ofNames ["cart", if first then "adds" else "removes"]

/-- The first spec passes, and the second one fails. -/
def cartEvents : Bool → List RunEvent
  | true => [.started, .record (.spec ⟨["cart"], "adds", "passed", none, none, some 5, none⟩),
      .exited true (some 0)]
  | false => [.record (.spec ⟨["cart"], "removes", "failed", none, none, some 3, none⟩),
      .exited false (some 1)]

/-- The second session begins when the first one has ended. -/
def oneByOne : List (Step Bool) :=
  .begin true :: (cartEvents true).map (.event true) ++
    .begin false :: (cartEvents false).map (.event false)

/-- Both sessions have begun before either is handed an event, and the second one ends first. -/
def together : List (Step Bool) :=
  .begin false :: .begin true :: (cartEvents false).map (.event false) ++
    (cartEvents true).map (.event true)

theorem runs_apart_end_alike_cart :
    (TestTree.merge none (.cartOf ["adds", "removes"]) "cart_test.go").1.SpecsAreLeaves ∧
      (∀ i j, i ≠ j → ¬ (cartScopes i).covers (cartScopes j)) ∧
      (∀ i, (cartEvents i).any isExit) ∧
      Interleaves cartEvents oneByOne ∧ Interleaves cartEvents together ∧
      ((fresh (TestTree.merge none (.cartOf ["adds", "removes"]) "cart_test.go").1).steps
          cartScopes (fun first => if first then 1 else 2) oneByOne).tree.withRun none =
        ((fresh (TestTree.merge none (.cartOf ["adds", "removes"]) "cart_test.go").1).steps
          cartScopes (fun first => if first then 2 else 1) together).tree.withRun none ∧
      (((fresh (TestTree.merge none (.cartOf ["adds", "removes"]) "cart_test.go").1).steps
          cartScopes (fun first => if first then 1 else 2) oneByOne).tree.node?
            (.ofNames ["cart", "removes"])).map (TestNode.withRun none) =
        ((play (TestTree.merge none (.cartOf ["adds", "removes"]) "cart_test.go").1
          (cartScopes false) 2 (cartEvents false)).2.node?
            (.ofNames ["cart", "removes"])).map (TestNode.withRun none) := by
  have hleaves := ofOutline_specsAreLeaves none (Outline.cartOf_specsAreLeaves ["adds", "removes"])
    "cart_test.go"
  have hapart : ∀ i j, i ≠ j → ¬ (cartScopes i).covers (cartScopes j) := by decide
  have hexit : ∀ i, (cartEvents i).any isExit := by decide
  have hone : Interleaves cartEvents oneByOne := Bool.rec rfl rfl
  have htogether : Interleaves cartEvents together := Bool.rec rfl rfl
  obtain ⟨hsame, halone⟩ := runs_apart_end_alike (ofOutline_keyed none _ _)
    (ofOutline_key none _ _) hleaves hapart hexit (fun first => if first then 1 else 2)
    (fun first => if first then 2 else 1) hone htogether
  exact ⟨hleaves, hapart, hexit, hone, htogether, hsame, halone false _ (by decide)⟩

end SideBySide

end SpecExplorer
