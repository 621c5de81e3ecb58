/-
# Overlapping sessions

Several runs may be under way on one tree. Each session is handed the tree as the others have left
it, and a session that begins over nodes of another takes them over. The runs are numbered in the
order in which their sessions begin. This module gives that system as steps over one state, and an
inversion of a step in terms of the acts of a session, which is what invariants are proved by.
-/
import SpecExplorer.Proofs.Run.Act

namespace SpecExplorer

open TestTree RunSession

/-- Sessions on one tree, in the order in which they began. -/
structure Overlap where
  tree : TestTree
  sessions : List RunSession
  /-- The number of the next run. -/
  nextRun : RunId

namespace Overlap

/-- A session begins over a scope, or one that has begun makes a move. -/
inductive Step where
  | begin (scope : NodeKey)
  | act (i : Nat) (m : Move)

/-- A tree before any session begins. -/
def fresh (t : TestTree) (first : RunId) : Overlap := ⟨t, [], first⟩

/-- Takes one step. Without such a session nothing happens. -/
def step (o : Overlap) : Step → Overlap
  | .begin scope =>
    ⟨(start o.tree scope o.nextRun).2.1, o.sessions ++ [(start o.tree scope o.nextRun).1],
      o.nextRun + 1⟩
  | .act i m =>
    match o.sessions[i]? with
    | none => o
    | some s => ⟨(s.move o.tree m).2.1, o.sessions.set i (s.move o.tree m).1, o.nextRun⟩

/-- Takes steps one after the other. -/
def steps (o : Overlap) : List Step → Overlap
  | [] => o
  | st :: rest => steps (o.step st) rest

theorem steps_append (o : Overlap) (before after : List Step) :
    o.steps (before ++ after) = (o.steps before).steps after := by
  induction before generalizing o with
  | nil => rfl
  | cons st rest ih => exact ih _

/-- The tree is that of a file, and the runs are numbered in the order of the sessions. -/
structure Ordered (o : Overlap) : Prop where
  keyed : o.tree.Keyed
  root : o.tree.key = .root
  numbered : ∀ s ∈ o.sessions, s.run < o.nextRun
  sorted : o.sessions.Pairwise fun a b => a.run < b.run

/-- What a step does to the tree and the sessions. -/
inductive Stepped (o : Overlap) : Step → Overlap → Prop
  | /-- A session begins. -/
    begun (scope : NodeKey) : Stepped o (.begin scope)
      ⟨o.tree.rebuild (preparing scope o.nextRun),
        o.sessions ++ [(start o.tree scope o.nextRun).1], o.nextRun + 1⟩
  | /-- A session makes a move. -/
    acted {i : Nat} {m : Move} {s : RunSession} {f : NodeChange}
      (hsession : o.sessions[i]? = some s) (hact : Act s o.tree m f) : Stepped o (.act i m)
      ⟨o.tree.rebuild f, o.sessions.set i (s.move o.tree m).1, o.nextRun⟩
  | /-- There is no such session. -/
    absent {i : Nat} {m : Move} (hnone : o.sessions[i]? = none) : Stepped o (.act i m) o

variable {o o' : Overlap}

theorem stepped (h : o.Ordered) (st : Step) : Stepped o st (o.step st) := by
  cases st with
  | begin scope =>
      rw [step, start_eq_rebuild h.keyed h.root]
      exact .begun scope
  | act i m =>
      rw [step]
      cases hsession : o.sessions[i]? with
      | none => exact .absent hsession
      | some s =>
          obtain ⟨f, hact, htree⟩ := exists_act h.keyed h.root s m
          dsimp only
          rw [htree]
          exact .acted hsession hact

/-- No step changes what comes from the outline. -/
theorem Stepped.frame_eq {st : Step} (h : Stepped o st o') : o'.tree.frame = o.tree.frame := by
  cases h with
  | begun scope => exact rebuild_frame (bare_preparing scope o.nextRun) o.tree
  | acted hsession hact => exact rebuild_frame hact.calm.bare o.tree
  | absent hnone => rfl

/-- After a move every session has the run and the scope that some session had before. -/
theorem exists_of_mem_set {ss : List RunSession} {i : Nat} {s : RunSession}
    (hsession : ss[i]? = some s) {t : TestTree} {m : Move} {q : RunSession}
    (hq : q ∈ ss.set i (s.move t m).1) : ∃ p ∈ ss, p.run = q.run ∧ p.scope = q.scope := by
  rcases List.mem_or_eq_of_mem_set hq with hq | rfl
  · exact ⟨q, hq, rfl, rfl⟩
  · exact ⟨s, List.mem_of_getElem? hsession, (move_run s t m).symm, (move_scope s t m).symm⟩

/-- A move of a session changes no run. -/
theorem map_run_set {ss : List RunSession} {i : Nat} {s : RunSession}
    (hsession : ss[i]? = some s) (t : TestTree) (m : Move) :
    (ss.set i (s.move t m).1).map (·.run) = ss.map (·.run) := by
  obtain ⟨hi, rfl⟩ := List.getElem?_eq_some_iff.mp hsession
  rw [List.map_set, move_run]
  refine List.ext_getElem? fun j => ?_
  rw [List.getElem?_set]
  split
  next heq =>
      subst heq
      simp [hi]
  next => rfl

namespace Ordered

theorem fresh {t : TestTree} (hkeyed : t.Keyed) (hroot : t.key = .root) (first : RunId) :
    (Overlap.fresh t first).Ordered :=
  ⟨hkeyed, hroot, nofun, .nil⟩

theorem of_stepped {st : Step} (h : o.Ordered) (hstep : Stepped o st o') : o'.Ordered := by
  have hkeyed := h.keyed.of_frame_eq hstep.frame_eq
  have hroot := (key_eq_of_frame_eq hstep.frame_eq).trans h.root
  cases hstep with
  | begun scope =>
      refine ⟨hkeyed, hroot, ?_, ?_⟩
      · intro s hs
        rcases List.mem_append.mp hs with hs | hs
        · exact Nat.lt_succ_of_lt (h.numbered s hs)
        · obtain rfl := List.mem_singleton.mp hs
          exact Nat.lt_succ_self _
      · refine List.pairwise_append.mpr ⟨h.sorted, List.pairwise_singleton _ _, ?_⟩
        intro s hs q hq
        obtain rfl := List.mem_singleton.mp hq
        exact h.numbered s hs
  | @acted i m s f hsession hact =>
      refine ⟨hkeyed, hroot, ?_, ?_⟩
      · intro q hq
        obtain ⟨p, hp, hrun, -⟩ := exists_of_mem_set hsession hq
        exact hrun ▸ h.numbered p hp
      · have hsorted := List.pairwise_map.mpr h.sorted
        rw [← map_run_set hsession o.tree m] at hsorted
        exact List.pairwise_map.mp hsorted
  | absent hnone => exact h

end Ordered

end Overlap

end SpecExplorer
