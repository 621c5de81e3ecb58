/-
# What lies above the scopes

Sessions over scopes apart share nothing but the nodes above their scopes. Which session settles
such a node, and when, depends on the order of their steps, but not what the node shows once all of
them have ended. The argument looks ahead. `prospect` puts what the scopes will show at the end in
their places, and settles all that lies above them. No step of a session changes the prospect of
the tree: what it settles above the scopes, it settles from children that show something together,
and these show something in the prospect too. When all sessions have ended, the tree is its own
prospect.
-/
import SpecExplorer.Proofs.Run.Local
import SpecExplorer.Proofs.Run.Precedence

namespace SpecExplorer

open TestTree

namespace TestTree

variable {t x : TestTree}

/-! ### Settled nodes -/

/-- To settle the node anew would change nothing. -/
def IsSettled (t : TestTree) : Prop := settled t.info t.children = t.info

theorem isSettled_iff : t.IsSettled ↔ ∀ a, t.aggregate = some a → t.info.result = some a := by
  unfold IsSettled
  rcases settled_cases t.info t.children with ⟨hnone, heq⟩ | ⟨a, ha, heq⟩
  · refine iff_of_true heq fun a ha => ?_
    rw [aggregate, hnone] at ha
    cases ha
  · rw [heq]
    constructor
    · intro hsame b hb
      obtain rfl := Option.some.inj (ha.symm.trans hb)
      rw [← hsame]
    · intro hresult
      rw [← hresult a ha]

/-- A settled node stays settled if it is kept and its children have nothing new to show. -/
theorem IsSettled.rebuild (h : x.IsSettled) {f : NodeChange} (hinfo : (x.rebuild f).info = x.info)
    (hchildren : ∀ a, (x.rebuild f).aggregate = some a → x.aggregate = some a) :
    (x.rebuild f).IsSettled := by
  refine isSettled_iff.mpr fun a ha => ?_
  rw [hinfo]
  exact isSettled_iff.mp h a (hchildren a ha)

theorem isSettled_of_info {n : TestNode} (h : t.info = settled n t.children) : t.IsSettled := by
  rw [IsSettled, h]
  exact settled_settled id

end TestTree

/-! ### Changes within a scope -/

/-- A change of a tree is about one scope: nodes outside are kept, or lie above it and are settled,
and none of them that is settled is left unsettled. -/
structure Confined (scope : NodeKey) (t : TestTree) (f : NodeChange) : Prop where
  bare : ∀ info children, (f info children).bare = info.bare
  outside : ∀ info children, ¬ scope.covers info.key → f info children = info ∨
    t.contains scope ∧ info.key.covers scope ∧ f info children = settled info children
  isSettled : ∀ x ∈ t.subtrees, ¬ scope.covers x.key → x.IsSettled → (x.rebuild f).IsSettled

namespace Confined

variable {scope : NodeKey} {t x : TestTree} {f : NodeChange}

/-- A subtree that is apart from the scope stays as it is. -/
theorem rebuild_apart (h : Confined scope t f) (hkeyed : x.Keyed) (hbelow : ¬ scope.covers x.key)
    (habove : ¬ x.key.covers scope) : x.rebuild f = x :=
  hkeyed.rebuild_apart hbelow habove fun info children hb ha =>
    (h.outside info children hb).resolve_right fun hsettled => ha hsettled.2.1

theorem keeping (scope : NodeKey) (t : TestTree) : Confined scope t fun info _ => info where
  bare _ _ := rfl
  outside _ _ _ := .inl rfl
  isSettled x _ _ hsettled := by rwa [rebuild_eq_self fun _ _ => rfl]

/-- The start of a run is about its scope. -/
theorem preparing (scope : NodeKey) (run : RunId) (t : TestTree) :
    Confined scope t (RunSession.preparing scope run) where
  bare := RunSession.bare_preparing scope run
  outside _ children hbelow := .inl (RunSession.preparing_of_not_covers hbelow run children)
  isSettled x _ hbelow hsettled := by
    refine hsettled.rebuild ?_ fun a ha =>
      RunSession.aggregate_of_rebuild (fun c _ => RunSession.preparing_cases scope run c) ha
    rw [info_rebuild, RunSession.preparing_of_not_covers hbelow]

end Confined

namespace RunSession

variable {s : RunSession} {t x : TestTree} {m : Move} {f : NodeChange}

/-- Above its scope a session shows no log, so a close settles the nodes there. -/
theorem closure_above {n : TestNode} (hbelow : ¬ s.scope.covers n.key)
    (habove : n.key.covers s.scope) (children : List TestTree) :
    s.closure n children = settled n children := by
  rw [closure, around_above hbelow habove, logged, if_neg]
  intro hkey
  rw [TestNode.key_eq_of_bare_eq (bare_settled n children)] at hkey
  exact hbelow (hkey ▸ NodeKey.covers_refl _)

/-- What an act makes of a node outside the scope. -/
theorem Act.outside (h : Act s t m f) (hkeyed : t.Keyed) (hroot : t.key = .root) {n : TestNode}
    (hbelow : ¬ s.scope.covers n.key) (children : List TestTree) :
    f n children = n ∨
      t.contains s.scope ∧ n.key.covers s.scope ∧ f n children = settled n children := by
  cases h with
  | stay _ _ => exact .inl rfl
  | started | withdrawn => exact .inl (by rw [around_kept, if_neg hbelow])
  | @recorded r status x hstatus hx hspec hscope hclaimed =>
      have hnot : ¬ x.key.covers n.key := fun hcovers =>
        hbelow (NodeKey.covers_trans hscope hcovers)
      by_cases habove : n.key.covers x.key
      · refine .inr ⟨hkeyed.contains_above hroot hx hscope, ?_, around_above hnot habove children⟩
        exact (NodeKey.covers_or_covers hscope habove).resolve_left hbelow
      · exact .inl (around_apart hnot habove children)
  | closed _ _ hscope =>
      by_cases habove : n.key.covers s.scope
      · exact .inr ⟨hscope, habove, closure_above hbelow habove children⟩
      · exact .inl (closure_apart s hbelow habove children)

theorem isSettled_closure (hbelow : ¬ s.scope.covers x.key) (habove : x.key.covers s.scope) :
    (x.rebuild s.closure).IsSettled := by
  refine isSettled_of_info (n := x.info) ?_
  rw [info_rebuild, children_rebuild]
  exact closure_above hbelow habove _

/-- No act but that of an abort leaves a node outside the scope unsettled. -/
theorem Act.isSettled (h : Act s t m f) (hkeyed : t.Keyed) (hx : x ∈ t.subtrees)
    (hbelow : ¬ s.scope.covers x.key) (habort : m ≠ .abort) (hsettled : x.IsSettled) :
    (x.rebuild f).IsSettled := by
  have hxkeyed := hkeyed.of_mem_subtrees hx
  cases h with
  | stay _ _ => rwa [rebuild_eq_self fun _ _ => rfl]
  | withdrawn => exact absurd rfl habort
  | started =>
      refine hsettled.rebuild ?_ fun a ha =>
        aggregate_of_rebuild (fun c _ => starting_cases s.scope s.run c) ha
      rw [info_rebuild, around_kept]
      exact if_neg hbelow
  | @recorded r status z hstatus hz hspec hscope hclaimed =>
      rcases rebuild_recording_cases hxkeyed z.key (r.result status) with heq | ⟨hkey, -⟩ |
        ⟨-, hinfo⟩
      · rwa [heq]
      · exact absurd (hkey ▸ hscope) hbelow
      · exact isSettled_of_info hinfo
  | closed _ _ _ =>
      by_cases habove : x.key.covers s.scope
      · exact isSettled_closure hbelow habove
      · rwa [hxkeyed.rebuild_apart hbelow habove fun _ children hb ha =>
          closure_apart s hb ha children]

/-- What a session does is about its scope, unless it is given up. -/
theorem Act.confined (h : Act s t m f) (hkeyed : t.Keyed) (hroot : t.key = .root)
    (habort : m ≠ .abort) : Confined s.scope t f where
  bare := h.calm.bare
  outside _ children hbelow := h.outside hkeyed hroot hbelow children
  isSettled _ hx hbelow hsettled := h.isSettled hkeyed hx hbelow habort hsettled

/-- The close of a run settles what lies above its scope. -/
theorem Act.isSettled_of_closes (h : Act s t m f) (hcloses : m.closes) (hopen : s.finished = false)
    (hscope : t.contains s.scope) (hbelow : ¬ s.scope.covers x.key)
    (habove : x.key.covers s.scope) : (x.rebuild f).IsSettled := by
  cases h with
  | closed _ _ _ => exact isSettled_closure hbelow habove
  | stay _ hstays =>
      rcases hstays hcloses with hfinished | hgone
      · rw [hopen] at hfinished
        cases hfinished
      · exact absurd hscope hgone
  | started | recorded | withdrawn => cases hcloses

end RunSession

/-! ### The prospect of a tree -/

/-- Puts what will be there at last in the places inside some scope, and settles the places above
one. -/
def TestTree.prospect (Inside Above : NodeKey → Prop) [DecidablePred Inside]
    [DecidablePred Above] (last : NodeKey → TestNode) : NodeChange := fun info children =>
  if Inside info.key then last info.key
  else if Above info.key then settled info children
  else info

section Prospect

variable {Inside Above : NodeKey → Prop} [DecidablePred Inside] [DecidablePred Above]
  {last : NodeKey → TestNode} {t x : TestTree} {children : List TestTree}

namespace TestTree

/-- Children that have something to show together, have so in the prospect as well, as all scopes
are finished there. -/
theorem combined_of_prospect
    (hlast : ∀ c ∈ children, Inside c.key → (last c.key).isFinished)
    (h : combined (children.map (rebuild (prospect Inside Above last))) = none) :
    combined children = none := by
  have hidle : ∀ c ∈ children,
      (c.rebuild (prospect Inside Above last)).info.result = none → c.info.result = none := by
    intro c hc hnone
    rw [info_rebuild, prospect] at hnone
    split at hnone
    next hinside =>
        have hfinished := hlast c hc hinside
        simp [TestNode.isFinished, TestNode.status, show (last c.key).result = none from hnone]
          at hfinished
    next =>
        split at hnone
        · rcases settled_cases c.info (c.children.map (rebuild (prospect Inside Above last))) with
            ⟨-, heq⟩ | ⟨a, -, heq⟩
          · rwa [heq] at hnone
          · rw [heq] at hnone
            cases hnone
        · exact hnone
  have hopen : ∀ c ∈ children,
      (c.rebuild (prospect Inside Above last)).info.isUnfinished → c.info.isUnfinished := by
    intro c hc hunfinished
    rw [info_rebuild, prospect] at hunfinished
    split at hunfinished
    next hinside =>
        exact absurd hunfinished (TestNode.not_isUnfinished_of_isFinished (hlast c hc hinside))
    next =>
        split at hunfinished
        · exact (isUnfinished_settled_iff.mp hunfinished).2
        · exact hunfinished
  rw [combined_eq_none_iff] at h ⊢
  refine h.imp (fun hall c hc => hidle c hc (hall _ (List.mem_map_of_mem hc))) ?_
  rintro ⟨c', hc', hunfinished⟩
  obtain ⟨c, hc, rfl⟩ := List.mem_map.mp hc'
  exact ⟨c, hc, hopen c hc hunfinished⟩

/-- A tree that has what will be there at last inside the scopes, but for the runs, and is settled
above them, is its own prospect but for the runs. -/
theorem withRun_rebuild_prospect {run : Option RunId}
    (hlast : ∀ y ∈ t.subtrees, Inside y.key → (last y.key).withRun run = y.info.withRun run)
    (hsettled : ∀ y ∈ t.subtrees, ¬ Inside y.key → Above y.key → y.IsSettled) :
    (t.rebuild (prospect Inside Above last)).withRun run = t.withRun run := by
  have hinsensitive : ∀ (info : TestNode) (children : List TestTree),
      prospect Inside Above last info (children.map (rebuild fun n _ => n.withRun run)) =
        prospect Inside Above last info children := by
    intro info children
    have hcombined : combined (children.map (rebuild fun n _ => n.withRun run)) =
      combined children := combined_withRun children
    simp only [prospect, settled, hcombined]
  rw [withRun, withRun, rebuild_rebuild hinsensitive]
  refine rebuild_congr fun y hy => ?_
  rw [hinsensitive, prospect]
  split
  next hin => exact hlast y hy hin
  next hin =>
      split
      next hup => exact congrArg (TestNode.withRun run) (hsettled y hy hin hup)
      next => rfl

end TestTree

/-- A change within a scope leaves the prospect. -/
theorem Confined.rebuild_prospect {scope : NodeKey} {f : NodeChange} (hf : Confined scope t f)
    (hinside : ∀ key, scope.covers key → Inside key)
    (habove : ∀ key, t.contains scope → key.covers scope → Above key)
    (hlast : ∀ y ∈ x.subtrees, ¬ Inside y.key → ∀ c ∈ y.children, Inside c.key →
      (last c.key).isFinished) :
    (x.rebuild f).rebuild (prospect Inside Above last) =
      x.rebuild (prospect Inside Above last) := by
  induction x with
  | node info children ih =>
      obtain ⟨hroot, hchildren⟩ := forall_subtrees_node.mp hlast
      have hmap : (children.map (rebuild f)).map (rebuild (prospect Inside Above last)) =
          children.map (rebuild (prospect Inside Above last)) := by
        rw [List.map_map]
        exact List.map_congr_left fun c hc => ih c hc (hchildren c hc)
      have hkey : (f info (children.map (rebuild f))).key = info.key :=
        TestNode.key_eq_of_bare_eq (hf.bare _ _)
      rw [rebuild_node, rebuild_node, rebuild_node, hmap]
      refine congrArg (node · _) ?_
      by_cases hin : Inside info.key
      · rw [prospect, prospect, hkey, if_pos hin, if_pos hin]
      rcases hf.outside info (children.map (rebuild f)) fun hcovers => hin (hinside _ hcovers) with
        heq | ⟨hcontains, hcovers, heq⟩
      · rw [heq]
      · -- The node lies above the scope, and is settled again in the prospect.
        have hup : Above info.key := habove _ hcontains hcovers
        rw [prospect, prospect, hkey, if_neg hin, if_neg hin, if_pos hup, if_pos hup, heq]
        refine settled_settled fun hnone => ?_
        rw [← hmap] at hnone
        refine combined_of_prospect (List.forall_mem_map.mpr fun c hc hcin => ?_) hnone
        rw [key_rebuild hf.bare] at hcin ⊢
        exact hroot hin c hc hcin

end Prospect

end SpecExplorer
