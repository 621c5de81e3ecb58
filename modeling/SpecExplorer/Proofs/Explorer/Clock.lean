/-
# The clock goes on

Where a clock stops for everybody who has to look first, it still gets to every later time, as long
as each look leaves fewer who have to. That is said here of any moves at all, with what else the
moves are to keep.
-/
import Mathlib.Data.List.Basic

namespace SpecExplorer

/-- If in every state some allowed move either leaves less to look at or moves the clock on by one,
then allowed moves lead to every later time. -/
theorem exists_moves_to {σ ι κ : Type} {step : σ → ι → σ} {allowed : ι → Prop}
    {now pending : σ → Nat} {kept : σ → κ}
    (hmove : ∀ x, ∃ st, allowed st ∧ kept (step x st) = kept x ∧
      (now (step x st) = now x ∧ pending (step x st) < pending x ∨ now (step x st) = now x + 1))
    (x : σ) {time : Nat} (hle : now x ≤ time) :
    ∃ more : List ι, (∀ st ∈ more, allowed st) ∧ kept (more.foldl step x) = kept x ∧
      now (more.foldl step x) = time := by
  rcases Nat.eq_or_lt_of_le hle with hnow | hlt
  · exact ⟨[], List.forall_mem_nil _, rfl, hnow⟩
  · obtain ⟨st, hst, hkept, hmoved⟩ := hmove x
    have hle' : now (step x st) ≤ time := by omega
    obtain ⟨more, hmore, hkept', hnow'⟩ := exists_moves_to hmove (step x st) hle'
    exact ⟨st :: more, List.forall_mem_cons.mpr ⟨hst, hmore⟩, hkept'.trans hkept, hnow'⟩
termination_by (time - now x, pending x)
decreasing_by
  rcases hmoved with ⟨hsame, hless⟩ | hnext
  · rw [hsame]
    exact Prod.Lex.right _ hless
  · exact Prod.Lex.left _ _ (by omega)

end SpecExplorer
