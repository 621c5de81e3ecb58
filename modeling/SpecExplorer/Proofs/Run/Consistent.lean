/-
# Containers never disagree with their children

A container is combined from its children at certain moments only: when a result is recorded below
it, and when a run is closed over it or below it. At all other moments it is left as it is, and
then its children have nothing to show together, or show what they showed before. So however
sessions overlap on a fresh tree, what the children of a node show together is what the node shows.
The law says nothing about sessions that are given up, which leave what lies above them unsettled.
-/
import SpecExplorer.Proofs.Run.Precedence
import SpecExplorer.Proofs.Run.Reparsed

namespace SpecExplorer

open TestTree RunSession

namespace TestTree

/-- A tree of an outline alone is idle. -/
theorem idle_ofOutline_none (o : Outline) (name : String) : (ofOutline none o name).Idle := by
  refine idle_node.mpr ⟨rfl, fun c hc => idle_iff.mpr fun s hs => ?_⟩
  obtain ⟨m, -, ordinal, -, rfl⟩ := exists_of_mem_ofOutlineNodes hc
  exact (ofOutlineNode_fresh m s hs rfl).1

/-- Idle children have nothing to show. -/
theorem Idle.agrees {t x : TestTree} (h : t.Idle) (hx : x ∈ t.subtrees) : x.Agrees := by
  have hnone : x.aggregate = none := combined_eq_none_iff.mpr <| .inl fun c hc =>
    idle_iff.mp h c (mem_subtrees_trans (mem_subtrees_of_mem_children hc) hx)
  intro a ha
  rw [hnone] at ha
  cases ha

end TestTree

namespace Overlap

variable {o o' : Overlap} {st : Step}

/-- No step but an abort makes a node disagree with its children. -/
theorem Stepped.agrees (hstep : Stepped o st o') (hordered : o.Ordered)
    (hleaves : o.tree.SpecsAreLeaves) (habort : ∀ k, st ≠ .act k .abort)
    (h : ∀ x ∈ o.tree.subtrees, x.Agrees) : ∀ x ∈ o'.tree.subtrees, x.Agrees := by
  cases hstep with
  | absent _ => exact h
  | begun scope =>
      exact forall_subtrees_rebuild.mpr fun x hx =>
        agrees_preparing (hordered.keyed.of_mem_subtrees hx) (h x hx) scope o.nextRun
  | @acted i m s f hsession hact =>
      have hm : m ≠ .abort := fun hm => habort i (hm ▸ rfl)
      exact forall_subtrees_rebuild.mpr fun x hx =>
        hact.agrees hordered.keyed hleaves hm hx (h x hx)

theorem agrees_steps (hordered : o.Ordered) (hleaves : o.tree.SpecsAreLeaves)
    (h : ∀ x ∈ o.tree.subtrees, x.Agrees) {all : List Step} (habort : ∀ k, .act k .abort ∉ all) :
    ∀ x ∈ (o.steps all).tree.subtrees, x.Agrees := by
  induction all generalizing o with
  | nil => exact h
  | cons st rest ih =>
      have hstep := stepped hordered st
      have hst : ∀ k, st ≠ .act k .abort := by
        rintro k rfl
        exact habort k List.mem_cons_self
      exact ih (hordered.of_stepped hstep) (hleaves.of_frame_eq hstep.frame_eq)
        (hstep.agrees hordered hleaves hst h) fun k hk => habort k (List.mem_cons_of_mem _ hk)

/-- However sessions overlap on a fresh tree whose specs are leaves, as long as none is given up:
after every step a node whose children have something to show together has a result with their
status and their time. -/
theorem containers_agree_with_children {o : Outline} (hleaves : o.SpecsAreLeaves) (name : String)
    (first : RunId) {all : List Step} (habort : ∀ k, .act k .abort ∉ all) {x : TestTree}
    (hx : x ∈ ((fresh (TestTree.merge none o name).1 first).steps all).tree.subtrees)
    {a : RunResult} (ha : x.aggregate = some a) :
    ∃ r, x.info.result = some r ∧ r.status = a.status ∧ r.nanos = a.nanos := by
  have hordered : (fresh (TestTree.merge none o name).1 first).Ordered :=
    .fresh (ofOutline_keyed none o name) (ofOutline_key none o name) first
  have hagrees := agrees_steps hordered (ofOutline_specsAreLeaves none hleaves name)
    (fun y hy => (idle_ofOutline_none o name).agrees hy) habort x hx
  obtain ⟨hstatus, hnanos⟩ := hagrees a ha
  obtain ⟨r, hr, hrstatus⟩ := Option.map_eq_some_iff.mp hstatus
  rw [TestNode.nanos?_of_result hr] at hnanos
  exact ⟨r, hr, hrstatus, hnanos⟩

theorem containers_agree_with_children_cart :
    (Outline.cartOf ["adds"]).SpecsAreLeaves ∧ (∀ k, .act k .abort ∉ newerFirst) ∧
      ∃ x ∈ ((fresh (TestTree.merge none (.cartOf ["adds"]) "cart_test.go").1 1).steps
          newerFirst).tree.subtrees, x.key = .ofNames ["cart"] ∧
        ∃ a r, x.aggregate = some a ∧ x.info.result = some r ∧ r.status = a.status ∧
          r.nanos = a.nanos := by
  have hleaves := Outline.cartOf_specsAreLeaves ["adds"]
  have habort : ∀ k, .act k .abort ∉ newerFirst := by simp [newerFirst]
  have hcart : ∃ x ∈ ((fresh (TestTree.merge none (.cartOf ["adds"]) "cart_test.go").1 1).steps
      newerFirst).tree.subtrees, x.key = .ofNames ["cart"] ∧ x.aggregate.isSome := by
    decide +kernel
  obtain ⟨x, hx, hkey, hsome⟩ := hcart
  obtain ⟨a, ha⟩ := Option.isSome_iff_exists.mp hsome
  obtain ⟨r, hresult⟩ := containers_agree_with_children hleaves "cart_test.go" 1 habort hx ha
  exact ⟨hleaves, habort, x, hx, hkey, a, r, ha, hresult⟩

end Overlap

end SpecExplorer
