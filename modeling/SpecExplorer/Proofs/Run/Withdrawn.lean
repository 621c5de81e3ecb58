/-
# Sessions given up on later trees

A session that is given up looks its scope up in whatever tree there is by then, and takes back
what it has under way at and below it. That this reaches every node it has a claim on is an
invariant of all that may have happened since it began: a session is given a claim on the nodes of
its scope only, later sessions only take claims away, and a fresh outline hands a claim to the node
that has the key of the old one, which lies in the scope just as well.
-/
import SpecExplorer.Proofs.Run.Precedence
import SpecExplorer.Proofs.Run.Reparsed

namespace SpecExplorer

open TestTree RunSession

/-! ### What a session takes back -/

/-- Where a session has a claim in its scope alone, giving it up makes of every node what it makes
of the node by itself. -/
theorem RunSession.Act.info_withdrawn {s : RunSession} {t x : TestTree} {f : NodeChange}
    (h : Act s t .abort f) (hwithin : x.info.isClaimedBy s.run → s.scope.covers x.key) :
    (x.rebuild f).info = (x.info.revert? s.run).getD x.info := by
  cases h with
  | stay habort => exact absurd rfl habort
  | closed hcloses => cases hcloses
  | withdrawn =>
      rw [info_rebuild, around_kept]
      split
      next => rfl
      next hcovers =>
          have hnot : ¬ x.info.isClaimedBy s.run := fun hclaimed => hcovers (hwithin hclaimed)
          rw [TestNode.revert?_getD, if_neg (by simp [hnot])]

namespace Overlap

/-! ### Sessions and fresh outlines in turn -/

/-- What may happen to the tree of a file: a step of the sessions on it, or a fresh outline. -/
inductive Turn where
  | step (st : Step)
  | reparse (outline : Outline) (name : String)

/-- Takes a turn. -/
def turn (o : Overlap) : Turn → Overlap
  | .step st => o.step st
  | .reparse outline name => { o with tree := (TestTree.merge (some o.tree) outline name).1 }

/-- Takes turns one after the other. -/
def turns (o : Overlap) : List Turn → Overlap
  | [] => o
  | a :: rest => turns (o.turn a) rest

theorem turns_append (o : Overlap) (before after : List Turn) :
    o.turns (before ++ after) = (o.turns before).turns after := by
  induction before generalizing o with
  | nil => rfl
  | cons a rest ih => exact ih _

/-! ### Claims stay in scope -/

/-- A session has a claim on nodes of its scope only. -/
def Within (o : Overlap) : Prop :=
  ∀ s ∈ o.sessions, ∀ x ∈ o.tree.subtrees, x.info.isClaimedBy s.run → s.scope.covers x.key

variable {o o' : Overlap} {st : Step}

theorem Within.of_stepped (h : o.Within) (hordered : o.Ordered) (hbegun : o.Begun)
    (hstep : Stepped o st o') : o'.Within := by
  cases hstep with
  | absent _ => exact h
  | @acted i m s f hsession hact =>
      intro q hq
      obtain ⟨p, hp, hrun, hscope⟩ := exists_of_mem_set hsession hq
      refine forall_subtrees_rebuild.mpr fun x hx hclaimed => ?_
      rw [hact.calm.isClaimedBy, ← hrun] at hclaimed
      rw [key_rebuild hact.calm.bare, ← hscope]
      exact h p hp x hx hclaimed
  | begun scope =>
      intro q hq
      refine forall_subtrees_rebuild.mpr fun x hx hclaimed => ?_
      rw [isClaimedBy_preparing] at hclaimed
      rw [key_rebuild (bare_preparing scope o.nextRun)]
      rcases List.mem_append.mp hq with hq | hq
      · -- A session that was there has lost what lies in the new scope.
        split at hclaimed
        next => exact absurd hclaimed (Nat.ne_of_gt (hordered.numbered q hq))
        next => exact h q hq x hx hclaimed
      · -- The new session has a claim on what it has prepared, and nothing belonged to it before.
        obtain rfl := List.mem_singleton.mp hq
        split at hclaimed
        next hcovers => exact hcovers
        next =>
            have hlt := hbegun x hx o.nextRun (TestNode.isClaimedBy_iff.mp hclaimed)
            exact absurd hlt (Nat.lt_irrefl _)

/-- The runs are numbered as the sessions began, and each session has its claims in its scope. -/
structure Scoped (o : Overlap) : Prop where
  ordered : o.Ordered
  begun : o.Begun
  within : o.Within

namespace Scoped

theorem fresh {t : TestTree} (hkeyed : t.Keyed) (hroot : t.key = .root) {first : RunId}
    (hfirst : ∀ n ∈ t.nodes, ∀ r ∈ n.run, r < first) : (Overlap.fresh t first).Scoped :=
  ⟨.fresh hkeyed hroot first, fun _ hx => hfirst _ (info_mem_nodes hx), nofun⟩

/-- A fresh outline hands every claim on under its key, and makes none. -/
theorem reparse (h : o.Scoped) (outline : Outline) (name : String) :
    (o.turn (.reparse outline name)).Scoped where
  ordered := ⟨ofOutline_keyed _ outline name, ofOutline_key _ outline name, h.ordered.numbered,
    h.ordered.sorted⟩
  begun y hy r hr := by
    rcases exists_old_or_fresh h.ordered.root outline name hy with
      ⟨x, hx, -, -, hrun⟩ | ⟨-, -, hrun⟩
    · exact h.begun x hx r (hrun.trans hr)
    · rw [hrun] at hr
      cases hr
  within s hs y hy hclaimed := by
    rw [TestNode.isClaimedBy_iff] at hclaimed
    rcases exists_old_or_fresh h.ordered.root outline name hy with
      ⟨x, hx, hkey, -, hrun⟩ | ⟨-, -, hrun⟩
    · rw [← hkey]
      exact h.within s hs x hx (TestNode.isClaimedBy_iff.mpr (hrun.trans hclaimed))
    · rw [hrun] at hclaimed
      cases hclaimed

theorem turn (h : o.Scoped) (a : Turn) : (o.turn a).Scoped := by
  cases a with
  | reparse outline name => exact h.reparse outline name
  | step st =>
      have hstep := stepped h.ordered st
      exact ⟨h.ordered.of_stepped hstep, h.begun.of_stepped hstep,
        h.within.of_stepped h.ordered h.begun hstep⟩

theorem turns (h : o.Scoped) (all : List Turn) : (o.turns all).Scoped := by
  induction all generalizing o with
  | nil => exact h
  | cons a rest ih => exact ih (h.turn a)

/-- What the tree is after a session was given up. -/
theorem exists_withdrawn (h : o.Scoped) {i : Nat} {s : RunSession}
    (hs : o.sessions[i]? = some s) : ∃ f, Act s o.tree .abort f ∧
      (o.turns [.step (.act i .abort)]).tree = o.tree.rebuild f ∧
      ∀ x ∈ o.tree.subtrees, (x.rebuild f).info = (x.info.revert? s.run).getD x.info := by
  obtain ⟨f, hact, htree⟩ := exists_act h.ordered.keyed h.ordered.root s .abort
  refine ⟨f, hact, ?_, fun x hx => ?_⟩
  · simp only [Overlap.turns, Overlap.turn, step, hs]
    exact htree
  · exact hact.info_withdrawn (h.within s (List.mem_of_getElem? hs) x hx)

end Scoped

/-- However sessions overlap and the file is outlined anew meanwhile: a session has a claim on nodes
of its scope only. Given up at any point, it leaves none of the nodes that it has a claim on under
way, and every other node as it was. -/
theorem given_up_session_leaves_nothing_under_way {t : TestTree} (hkeyed : t.Keyed)
    (hroot : t.key = .root) {first : RunId} (hfirst : ∀ n ∈ t.nodes, ∀ r ∈ n.run, r < first)
    (past : List Turn) {i : Nat} {s : RunSession}
    (hs : ((fresh t first).turns past).sessions[i]? = some s) :
    (∀ n ∈ ((fresh t first).turns past).tree.nodes, n.isClaimedBy s.run → s.scope.covers n.key) ∧
    (∀ n ∈ ((fresh t first).turns (past ++ [.step (.act i .abort)])).tree.nodes,
      n.isClaimedBy s.run → ¬ n.isUnfinished) ∧
    ∀ n ∈ ((fresh t first).turns past).tree.nodes, ¬ (n.isClaimedBy s.run ∧ n.isUnfinished) →
      ((fresh t first).turns (past ++ [.step (.act i .abort)])).tree.node? n.key = some n := by
  have hscoped := (Scoped.fresh hkeyed hroot hfirst).turns past
  rw [turns_append]
  generalize (fresh t first).turns past = o at *
  obtain ⟨f, hact, htree, hinfo⟩ := hscoped.exists_withdrawn hs
  rw [htree]
  refine ⟨fun n hn hclaimed => ?_, fun n hn hclaimed => ?_, fun n hn hkept => ?_⟩
  · obtain ⟨x, hx, rfl⟩ := mem_nodes.mp hn
    exact hscoped.within s (List.mem_of_getElem? hs) x hx hclaimed
  · obtain ⟨y, hy, rfl⟩ := mem_nodes.mp hn
    revert y
    refine forall_subtrees_rebuild.mpr fun x hx _ hclaimed => ?_
    rw [hact.calm.isClaimedBy] at hclaimed
    rw [hinfo x hx, TestNode.isUnfinished_revert_iff]
    exact fun hopen => hopen.2 hclaimed
  · obtain ⟨x, hx, rfl⟩ := mem_nodes.mp hn
    have hfound : (o.tree.rebuild f).find? x.info.key = some (x.rebuild f) :=
      find?_rebuild hact.calm.bare hscoped.ordered.keyed (hscoped.ordered.keyed.find?_key hx)
    have hsame : (x.rebuild f).info = x.info := by
      rw [hinfo x hx, TestNode.revert?_getD, if_neg (by simpa using hkept)]
    rw [node?, hfound, Option.map_some, hsame]

/-- A run of a container whose file is outlined anew before and after a run of one of its specs
begins. -/
def overtakenRun : List Turn :=
  [.step (.begin (.ofNames ["cart"])), .step (.act 0 (.event .started)),
    .reparse (.cartOf ["removes", "adds"]) "cart_test.go",
    .step (.begin (.ofNames ["cart", "adds"])), .reparse (.cartOf ["adds"]) "cart_test.go"]

/-- The container is taken back, and its spec stays pending for the newer run. -/
theorem given_up_session_leaves_nothing_under_way_cart :
    (∀ n ∈ (TestTree.merge none (.cartOf ["adds"]) "cart_test.go").1.nodes,
        ∀ r ∈ n.run, r < 1) ∧
      ∃ s, ((fresh (TestTree.merge none (.cartOf ["adds"]) "cart_test.go").1 1).turns
          overtakenRun).sessions[0]? = some s ∧ s.run = 1 ∧
        (∀ n ∈ ((fresh (TestTree.merge none (.cartOf ["adds"]) "cart_test.go").1 1).turns
          (overtakenRun ++ [.step (.act 0 .abort)])).tree.nodes,
            n.isClaimedBy s.run → ¬ n.isUnfinished) ∧
        ∃ n, ((fresh (TestTree.merge none (.cartOf ["adds"]) "cart_test.go").1 1).turns
            (overtakenRun ++ [.step (.act 0 .abort)])).tree.node? (.ofNames ["cart", "adds"]) =
              some n ∧ n.isClaimedBy 2 ∧ n.status = some .pending := by
  have hfirst : ∀ n ∈ (TestTree.merge none (.cartOf ["adds"]) "cart_test.go").1.nodes,
      ∀ r ∈ n.run, r < 1 := by
    decide +kernel
  obtain ⟨s, hs⟩ : ∃ s, ((fresh (TestTree.merge none (.cartOf ["adds"]) "cart_test.go").1 1).turns
      overtakenRun).sessions[0]? = some s := ⟨_, rfl⟩
  have hrun : (((fresh (TestTree.merge none (.cartOf ["adds"]) "cart_test.go").1 1).turns
      overtakenRun).sessions[0]?).map (·.run) = some 1 := by
    decide +kernel
  rw [hs, Option.map_some, Option.some.injEq] at hrun
  have hadds : ∃ n ∈ ((fresh (TestTree.merge none (.cartOf ["adds"]) "cart_test.go").1 1).turns
      overtakenRun).tree.nodes, n.key = .ofNames ["cart", "adds"] ∧ n.isClaimedBy 2 ∧
        ¬ n.isClaimedBy 1 ∧ n.status = some .pending := by
    decide +kernel
  obtain ⟨n, hn, hkey, hnewer, hother, hpending⟩ := hadds
  obtain ⟨-, hquiet, hkept⟩ := given_up_session_leaves_nothing_under_way
    (ofOutline_keyed none _ _) (ofOutline_key none _ _) hfirst overtakenRun hs
  have hfound := hkept n hn fun h => hother (hrun ▸ h.1)
  rw [hkey] at hfound
  exact ⟨hfirst, s, hs, hrun, hquiet, n, hfound, hnewer, hpending⟩

end Overlap

end SpecExplorer
