/-
# Blocks and their lines

Several lines of a profile may be about one block. Going over the lines keeps the blocks all
different: each has the statements of one of its lines and the highest count that any of them has.
Where lines about one block agree in its statements, the statements of the blocks add up to what
the lines list when every block is counted once, and the same holds of the blocks that ran. Such
sums are of natural numbers. Adding up words one after the other gives their exact sum as a word if
it is one, and breaks off otherwise.
-/
import Mathlib.Algebra.BigOperators.Group.Finset.Basic
import Mathlib.Algebra.Order.BigOperators.Group.List
import Mathlib.Algebra.Order.Group.Nat
import Mathlib.Algebra.GroupWithZero.Nat
import Mathlib.Data.List.Induction
import SpecExplorer.Coverage

namespace SpecExplorer

/-! ### Words -/

namespace Width

theorem toNat_lt (w : UInt64) : w.toNat < count 64 := w.toNat_lt_size

end Width

theorem wordOf_of_lt {n : Nat} (h : n < Width.count 64) : wordOf n = .ok (.ofNat n) := if_pos h

theorem wordOf_eq_ok_iff {n : Nat} {w : UInt64} : wordOf n = .ok w ↔ w.toNat = n := by
  unfold wordOf
  split
  next hfits => rw [Except.ok.injEq, ← UInt64.toNat_inj, UInt64.toNat_ofNat_of_lt' hfits, eq_comm]
  next hlarge =>
      refine iff_of_false nofun fun heq => hlarge ?_
      rw [← heq]
      exact Width.toNat_lt w

theorem wordOf_eq_overflow_iff {n : Nat} : wordOf n = .error .overflow ↔ Width.count 64 ≤ n := by
  unfold wordOf
  split <;> simp_all

theorem wordOf_toNat (w : UInt64) : wordOf w.toNat = .ok w := wordOf_eq_ok_iff.mpr rfl

/-- From any sum on, adding words one after the other comes to their exact sum, or breaks off just
if no word holds that. -/
theorem foldlM_addWords (sum : UInt64) (words : List UInt64) :
    words.foldlM addWords sum = wordOf (sum.toNat + (words.map UInt64.toNat).sum) := by
  induction words generalizing sum with
  | nil => exact (wordOf_toNat sum).symm
  | cons w rest ih =>
      rw [List.foldlM_cons, List.map_cons, List.sum_cons, ← Nat.add_assoc, addWords]
      cases hsum : wordOf (sum.toNat + w.toNat) with
      | ok next =>
          rw [← wordOf_eq_ok_iff.mp hsum]
          exact ih next
      | error fault =>
          have hlarge : ¬ sum.toNat + w.toNat < Width.count 64 := fun hfits => by
            simp [wordOf, hfits] at hsum
          obtain rfl : .overflow = fault := by simpa [wordOf, hlarge] using hsum
          exact (wordOf_eq_overflow_iff.mpr (by omega)).symm

theorem wordSum_eq (words : List UInt64) :
    wordSum words = wordOf (words.map UInt64.toNat).sum := by
  rw [wordSum, foldlM_addWords, UInt64.toNat_zero, Nat.zero_add]

namespace CoverBlock

/-- Where a block stands. Lines with one place are about one block. -/
def place (b : CoverBlock) : String × String := (b.file, b.extent)

/-- The exact number of statements in some blocks. -/
def exactTotal (blocks : List CoverBlock) : Nat := (blocks.map (·.statements.toNat)).sum

theorem total_eq (blocks : List CoverBlock) : total blocks = wordOf (exactTotal blocks) := by
  rw [total, wordSum_eq, List.map_map]
  rfl

theorem exactTotal_filter_le (blocks : List CoverBlock) (p : CoverBlock → Bool) :
    exactTotal (blocks.filter p) ≤ exactTotal blocks :=
  (List.filter_sublist.map _).sum_le_sum fun _ _ => Nat.zero_le _

/-! ### Adding a line -/

/-- A block after one more line about it. -/
def joined (a b : CoverBlock) : CoverBlock := { a with count := max a.count b.count }

@[simp] theorem place_joined (a b : CoverBlock) : (a.joined b).place = a.place := rfl

@[simp] theorem file_joined (a b : CoverBlock) : (a.joined b).file = a.file := rfl

@[simp] theorem statements_joined (a b : CoverBlock) :
    (a.joined b).statements = a.statements := rfl

@[simp] theorem count_joined (a b : CoverBlock) : (a.joined b).count = max a.count b.count := rfl

theorem file_eq_of_place_eq {a b : CoverBlock} (h : a.place = b.place) : a.file = b.file :=
  congrArg Prod.fst h

theorem addTo_cons (b a : CoverBlock) (rest : List CoverBlock) :
    b.addTo (a :: rest) = if a.place = b.place then a.joined b :: rest else a :: b.addTo rest := by
  simp only [addTo, sameBlock, place, joined, Prod.mk.injEq, Bool.and_eq_true, beq_iff_eq]

theorem map_place_addTo (b : CoverBlock) (blocks : List CoverBlock) :
    (b.addTo blocks).map place =
      if b.place ∈ blocks.map place then blocks.map place else blocks.map place ++ [b.place] := by
  induction blocks with
  | nil => rfl
  | cons a rest ih =>
      rw [addTo_cons]
      by_cases h : a.place = b.place
      · simp [h]
      · rw [if_neg h, List.map_cons, ih]
        simp only [List.map_cons, List.mem_cons, Ne.symm h, false_or]
        split <;> rfl

/-- Adding a line leaves all other blocks alone. -/
theorem mem_addTo {a b : CoverBlock} {blocks : List CoverBlock} (h : (blocks.map place).Nodup) :
    a ∈ b.addTo blocks ↔ (a ∈ blocks ∧ a.place ≠ b.place) ∨
      (a = b ∧ b.place ∉ blocks.map place) ∨ ∃ c ∈ blocks, c.place = b.place ∧ a = c.joined b := by
  induction blocks with
  | nil => simp [addTo]
  | cons c rest ih =>
      obtain ⟨hnew, hrest⟩ := List.nodup_cons.mp h
      rw [addTo_cons]
      by_cases hc : c.place = b.place
      · -- No other block has the place of the line.
        have hother : ∀ d ∈ rest, d.place ≠ b.place := fun d hd hd' =>
          hnew (List.mem_map.mpr ⟨d, hd, hd'.trans hc.symm⟩)
        grind
      · rw [if_neg hc, List.mem_cons, ih hrest]
        grind

/-! ### Going over lines -/

/-- Blocks that are all different and that some lines are about. -/
structure Represents (lines blocks : List CoverBlock) : Prop where
  distinct : (blocks.map place).Nodup
  /-- Every block has the statements of one of its lines. -/
  listed : ∀ a ∈ blocks, ∃ b ∈ lines, b.place = a.place ∧ b.statements = a.statements
  /-- Every line is about one of the blocks. -/
  counted : ∀ b ∈ lines, ∃ a ∈ blocks, a.place = b.place

/-- What going over some lines has come to. -/
structure Merges (lines blocks : List CoverBlock) : Prop extends Represents lines blocks where
  /-- No line has a higher count than its block. -/
  highest : ∀ b ∈ lines, ∀ a ∈ blocks, a.place = b.place → b.count ≤ a.count
  /-- Every block has the count of one of its lines. -/
  attained : ∀ a ∈ blocks, ∃ b ∈ lines, b.place = a.place ∧ b.count = a.count

theorem merges_nil : Merges [] [] where
  distinct := List.nodup_nil
  listed := nofun
  counted := nofun
  highest := nofun
  attained := nofun

theorem Merges.step {lines blocks : List CoverBlock} (h : Merges lines blocks) (b : CoverBlock) :
    Merges (lines ++ [b]) (b.addTo blocks) where
  distinct := by
    rw [map_place_addTo]
    split
    next => exact h.distinct
    next hnew =>
        refine List.nodup_append.mpr ⟨h.distinct, List.nodup_singleton _, ?_⟩
        rintro p hp q hq rfl
        exact hnew (List.mem_singleton.mp hq ▸ hp)
  listed a ha := by
    rcases (mem_addTo h.distinct).mp ha with ⟨ha, -⟩ | ⟨rfl, -⟩ | ⟨c, hc, hplace, rfl⟩
    · obtain ⟨d, hd, heq⟩ := h.listed a ha
      exact ⟨d, List.mem_append_left _ hd, heq⟩
    · exact ⟨a, by simp, rfl, rfl⟩
    · obtain ⟨d, hd, heq⟩ := h.listed c hc
      exact ⟨d, List.mem_append_left _ hd, heq⟩
  counted d hd := by
    have hplaces : d.place ∈ (b.addTo blocks).map place := by
      rw [map_place_addTo]
      rcases List.mem_append.mp hd with hd | hd
      · obtain ⟨a, ha, heq⟩ := h.counted d hd
        have hmem : d.place ∈ blocks.map place := heq ▸ List.mem_map_of_mem ha
        split
        · exact hmem
        · exact List.mem_append_left _ hmem
      · obtain rfl := List.mem_singleton.mp hd
        split <;> simp_all
    exact List.mem_map.mp hplaces
  highest d hd a ha heq := by
    rcases List.mem_append.mp hd with hold | hlast
    · rcases (mem_addTo h.distinct).mp ha with ⟨ha, -⟩ | ⟨rfl, hnew⟩ | ⟨c, hc, hplace, rfl⟩
      · exact h.highest d hold a ha heq
      · obtain ⟨c, hc, hplace⟩ := h.counted d hold
        exact absurd (List.mem_map.mpr ⟨c, hc, hplace.trans heq.symm⟩) hnew
      · exact Nat.le_trans (h.highest d hold c hc heq) (Nat.le_max_left _ _)
    · obtain rfl := List.mem_singleton.mp hlast
      rcases (mem_addTo h.distinct).mp ha with ⟨ha, hne⟩ | ⟨rfl, -⟩ | ⟨c, hc, hplace, rfl⟩
      · exact absurd heq hne
      · exact Nat.le_refl _
      · exact Nat.le_max_right _ _
  attained a ha := by
    rcases (mem_addTo h.distinct).mp ha with ⟨ha, -⟩ | ⟨rfl, -⟩ | ⟨c, hc, hplace, rfl⟩
    · obtain ⟨d, hd, heq⟩ := h.attained a ha
      exact ⟨d, List.mem_append_left _ hd, heq⟩
    · exact ⟨a, by simp, rfl, rfl⟩
    · obtain ⟨d, hd, hdplace, hdcount⟩ := h.attained c hc
      rcases Nat.le_total c.count b.count with hle | hle
      · exact ⟨b, by simp, hplace.symm, (Nat.max_eq_right hle).symm⟩
      · exact ⟨d, List.mem_append_left _ hd, hdplace,
          hdcount.trans (Nat.max_eq_left hle).symm⟩

theorem merges_merge (lines : List CoverBlock) : Merges lines (merge lines) := by
  induction lines using List.reverseRecOn with
  | nil => exact merges_nil
  | append_singleton lines b ih =>
      rw [merge, List.foldl_append]
      exact ih.step b

/-! ### Counting every block once -/

/-- Lines about one block agree in its statements. -/
def Agree (lines : List CoverBlock) : Prop :=
  ∀ a ∈ lines, ∀ b ∈ lines, a.place = b.place → a.statements = b.statements

/-- The statements that some lines list for a file when every block is counted once. -/
def statementsIn (lines : List CoverBlock) (file : String) : Nat :=
  ∑ b ∈ ((lines.filter (·.file == file)).map fun b => (b.extent, b.statements)).toFinset, b.2.toNat

/-- Which lines there are decides what they list, not their order or how often they come. -/
theorem statementsIn_congr {lines lines' : List CoverBlock} (h : ∀ b, b ∈ lines ↔ b ∈ lines')
    (file : String) : statementsIn lines file = statementsIn lines' file := by
  have hset : ((lines.filter (·.file == file)).map fun b => (b.extent, b.statements)).toFinset =
      ((lines'.filter (·.file == file)).map fun b => (b.extent, b.statements)).toFinset := by
    ext p
    simp [h]
  rw [statementsIn, hset, statementsIn]

namespace Represents

variable {lines blocks : List CoverBlock} (h : Represents lines blocks)

include h

theorem eq_of_place_eq {a b : CoverBlock} (ha : a ∈ blocks) (hb : b ∈ blocks)
    (heq : a.place = b.place) : a = b :=
  List.inj_on_of_nodup_map h.distinct ha hb heq

/-- Where lines about one block agree, a block has the statements of each of its lines. -/
theorem statements_eq (hagree : Agree lines) {a b : CoverBlock} (ha : a ∈ blocks) (hb : b ∈ lines)
    (heq : a.place = b.place) : a.statements = b.statements := by
  obtain ⟨c, hc, hplace, hstatements⟩ := h.listed a ha
  exact hstatements.symm.trans (hagree c hc b hb (hplace.trans heq))

/-- The statements of the blocks of a file add up to what the lines list for it. -/
theorem exactTotal_file (hagree : Agree lines) (file : String) :
    exactTotal (blocks.filter (·.file == file)) = statementsIn lines file := by
  have hnodup : ((blocks.filter (·.file == file)).map fun b => (b.extent, b.statements)).Nodup := by
    refine (h.distinct.of_map.filter _).map_on ?_
    intro a ha b hb heq
    obtain ⟨ha, hafile⟩ := List.mem_filter.mp ha
    obtain ⟨hb, hbfile⟩ := List.mem_filter.mp hb
    refine h.eq_of_place_eq ha hb (Prod.ext ?_ (Prod.mk.inj heq).1)
    exact (beq_iff_eq.mp hafile).trans (beq_iff_eq.mp hbfile).symm
  have hset : ((lines.filter (·.file == file)).map fun b => (b.extent, b.statements)).toFinset =
      ((blocks.filter (·.file == file)).map fun b => (b.extent, b.statements)).toFinset := by
    ext ⟨extent, statements⟩
    simp only [List.mem_toFinset, List.mem_map, List.mem_filter, Prod.mk.injEq]
    constructor
    · rintro ⟨b, ⟨hb, hfile⟩, rfl, rfl⟩
      obtain ⟨a, ha, heq⟩ := h.counted b hb
      exact ⟨a, ⟨ha, by rwa [file_eq_of_place_eq heq]⟩, congrArg Prod.snd heq,
        h.statements_eq hagree ha hb heq⟩
    · rintro ⟨a, ⟨ha, hfile⟩, rfl, rfl⟩
      obtain ⟨b, hb, hplace, hstatements⟩ := h.listed a ha
      exact ⟨b, ⟨hb, by rwa [file_eq_of_place_eq hplace]⟩, congrArg Prod.snd hplace, hstatements⟩
  rw [statementsIn, hset, List.sum_toFinset _ hnodup, exactTotal, List.map_map]
  rfl

end Represents

/-- The blocks that ran are those with a line that says so. -/
theorem Merges.ran {lines blocks : List CoverBlock} (h : Merges lines blocks)
    (hagree : Agree lines) :
    Represents (lines.filter (0 < ·.count)) (blocks.filter (0 < ·.count)) where
  distinct := h.distinct.sublist (List.filter_sublist.map _)
  listed a ha := by
    obtain ⟨ha, hran⟩ := List.mem_filter.mp ha
    obtain ⟨b, hb, hplace, hcount⟩ := h.attained a ha
    exact ⟨b, List.mem_filter.mpr ⟨hb, by rwa [hcount]⟩, hplace,
      (h.statements_eq hagree ha hb hplace.symm).symm⟩
  counted b hb := by
    obtain ⟨hb, hran⟩ := List.mem_filter.mp hb
    obtain ⟨a, ha, hplace⟩ := h.counted b hb
    have hle := h.highest b hb a ha hplace
    rw [decide_eq_true_eq] at hran
    exact ⟨a, List.mem_filter.mpr ⟨ha, decide_eq_true (Nat.lt_of_lt_of_le hran hle)⟩, hplace⟩

theorem Agree.filter {lines : List CoverBlock} (h : Agree lines) (p : CoverBlock → Bool) :
    Agree (lines.filter p) :=
  fun a ha b hb => h a (List.mem_of_mem_filter ha) b (List.mem_of_mem_filter hb)

end CoverBlock

end SpecExplorer
