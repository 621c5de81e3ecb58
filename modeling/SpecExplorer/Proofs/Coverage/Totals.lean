/-
# Statements that outgrow a word

Every count of a line fits into a 64-bit word, their sum need not, and nothing in reading a profile
keeps it from that. Reading breaks off just if the different blocks of some file have more
statements together than a word holds. If those of each file fit there is a report, but its totals
still break off just if those of all files do not fit. Wherever there are sums, for a file or for
the report, no more is covered than there is.
-/
import Mathlib.Algebra.BigOperators.Group.List.Lemmas
import SpecExplorer.Proofs.Coverage.Profile

namespace SpecExplorer

namespace CoverBlock

/-! ### Totals of blocks -/

theorem exactTotal_cons (b : CoverBlock) (rest : List CoverBlock) :
    exactTotal (b :: rest) = b.statements.toNat + exactTotal rest := rfl

/-- Blocks can be counted file by file. -/
theorem sum_exactTotal_files {blocks : List CoverBlock} {names : List String} (hnodup : names.Nodup)
    (h : ∀ b ∈ blocks, b.file ∈ names) :
    (names.map fun file => exactTotal (blocks.filter (·.file == file))).sum =
      exactTotal blocks := by
  induction blocks with
  | nil => simp [exactTotal]
  | cons b rest ih =>
      obtain ⟨hb, hrest⟩ := List.forall_mem_cons.mp h
      -- The block counts for its own file, which is one of the names.
      have hown : (names.map fun file => if b.file = file then b.statements.toNat else 0).sum =
          b.statements.toNat := by
        rw [List.sum_map_eq_nsmul_single b.file _ fun file hne _ => if_neg (Ne.symm hne),
          List.count_eq_one_of_mem hnodup hb, one_nsmul, if_pos rfl]
      have hsplit : ∀ file, exactTotal ((b :: rest).filter (·.file == file)) =
          (if b.file = file then b.statements.toNat else 0) +
            exactTotal (rest.filter (·.file == file)) := by
        intro file
        by_cases hfile : b.file = file
        · rw [List.filter_cons_of_pos (by simpa using hfile), exactTotal_cons, if_pos hfile]
        · rw [List.filter_cons_of_neg (by simpa using hfile), if_neg hfile, Nat.zero_add]
      rw [List.map_congr_left fun file _ => hsplit file, List.sum_map_add, hown, ih hrest,
        exactTotal_cons]

end CoverBlock

namespace CoverageReport

open CoverBlock

/-! ### Reports -/

section Exact

variable (mode : String) {lines : List CoverBlock}
  (h : ∀ file, FileCoverage.Fits (merge lines) file)

include h

/-- The statements of all files are those of all blocks. -/
theorem statements_exact :
    (exact mode lines).statements = wordOf (exactTotal (merge lines)) := by
  have hnamed : ∀ b ∈ merge lines, b.file ∈ fileNames (merge lines) := fun b hb =>
    mem_fileNames.mpr ⟨b, hb, rfl⟩
  rw [statements, wordSum_eq, ← sum_exactTotal_files (nodup_fileNames _) hnamed, exact,
    List.map_map, List.map_map]
  exact congrArg (fun sums => wordOf (List.sum sums)) (List.map_congr_left fun file _ =>
    FileCoverage.toNat_statements_exact (h file))

/-- The covered statements of all files are those of all blocks that ran. -/
theorem covered_exact : (exact mode lines).covered =
    wordOf (exactTotal ((merge lines).filter (0 < ·.count))) := by
  have hnamed : ∀ b ∈ (merge lines).filter (0 < ·.count), b.file ∈ fileNames (merge lines) :=
    fun b hb => mem_fileNames.mpr ⟨b, List.mem_of_mem_filter hb, rfl⟩
  rw [covered, wordSum_eq, ← sum_exactTotal_files (nodup_fileNames _) hnamed, exact,
    List.map_map, List.map_map]
  refine congrArg (fun sums => wordOf (List.sum sums)) (List.map_congr_left fun file _ => ?_)
  rw [List.filter_comm]
  exact FileCoverage.toNat_covered_exact (h file)

theorem covered_le_statements : ∀ f ∈ (exact mode lines).files, f.covered ≤ f.statements := by
  intro f hf
  obtain ⟨file, -, rfl⟩ := List.mem_map.mp hf
  rw [UInt64.le_iff_toNat_le, FileCoverage.toNat_covered_exact (h file),
    FileCoverage.toNat_statements_exact (h file)]
  exact exactTotal_filter_le _ _

end Exact

/-- What adding up statements comes to, for a text that lists some blocks. -/
structure AddsUp (text : String) (lines : List CoverBlock) : Prop where
  /-- There is a report just if the statements of each file fit into a word. -/
  accepted : (∃ r, parse text = .ok r) ↔ ∀ file, FileCoverage.Fits (merge lines) file
  /-- Otherwise reading breaks off. -/
  refused : parse text = .error .overflow ↔ ∃ file, ¬ FileCoverage.Fits (merge lines) file
  /-- No file of a report covers more than it has. -/
  files : ∀ r, parse text = .ok r → ∀ f ∈ r.files, f.covered ≤ f.statements
  /-- The totals of a report break off just if the statements of all files do not fit. -/
  overflow : ∀ r, parse text = .ok r →
    (r.statements = .error .overflow ↔ Width.count 64 ≤ exactTotal (merge lines))
  /-- Otherwise they are exact, and no more is covered than there is. -/
  totals : ∀ r, parse text = .ok r → exactTotal (merge lines) < Width.count 64 →
    ∃ statements covered, r.statements = .ok statements ∧ r.covered = .ok covered ∧
      statements.toNat = exactTotal (merge lines) ∧ covered ≤ statements

theorem Lists.addsUp {text mode : String} {lines : List CoverBlock} (h : Lists text mode lines) :
    AddsUp text lines where
  accepted := by
    simp only [h.parse_eq, ofBlocks_eq_ok_iff, exists_and_left, exists_eq', and_true]
  refused := by rw [h.parse_eq, ofBlocks_eq_overflow_iff]
  files r hr := by
    obtain ⟨hfits, rfl⟩ := ofBlocks_eq_ok_iff.mp (h.parse_eq.symm.trans hr)
    exact covered_le_statements mode hfits
  overflow r hr := by
    obtain ⟨hfits, rfl⟩ := ofBlocks_eq_ok_iff.mp (h.parse_eq.symm.trans hr)
    rw [statements_exact mode hfits, wordOf_eq_overflow_iff]
  totals r hr hsum := by
    obtain ⟨hfits, rfl⟩ := ofBlocks_eq_ok_iff.mp (h.parse_eq.symm.trans hr)
    have hran := Nat.lt_of_le_of_lt (exactTotal_filter_le (merge lines) (0 < ·.count)) hsum
    refine ⟨_, _, (statements_exact mode hfits).trans (wordOf_of_lt hsum),
      (covered_exact mode hfits).trans (wordOf_of_lt hran), UInt64.toNat_ofNat_of_lt' hsum, ?_⟩
    rw [UInt64.le_iff_toNat_le, UInt64.toNat_ofNat_of_lt' hran, UInt64.toNat_ofNat_of_lt' hsum]
    exact exactTotal_filter_le _ _

/-- Adding up the statements of a profile breaks off just where they do not fit into a word: for a
file while the profile is read, for all files when the totals are asked for. What there is of sums
is exact, and no more is covered than there is. Any other text is refused for its header or for a
line. -/
theorem additions_break_off_iff (text : String) :
    (∀ mode lines, Lists text mode lines → AddsUp text lines) ∧
      ((∃ mode lines, Lists text mode lines) ∨ parse text = .error .noHeader ∨
        ∃ line, parse text = .error (.unreadableLine line)) :=
  ⟨fun _ _ h => h.addsUp, lists_or_refused text⟩

/-! ### Two blocks -/

/-- A profile of a block of `a.go` that has not run and one of two statements that has. -/
def pairProfile (statements : UInt64) (file : String) : String :=
  "mode: set\na.go:1.1,2.2 " ++ Nat.repr statements.toNat ++ " 0\n" ++ file ++ ":3.1,4.2 2 1\n"

def pairBlocks (statements : UInt64) (file : String) : List CoverBlock :=
  [⟨"a.go", "1.1,2.2", statements, 0⟩, ⟨file, "3.1,4.2", 2, 1⟩]

theorem merge_pairBlocks (statements : UInt64) (file : String) :
    merge (pairBlocks statements file) = pairBlocks statements file := by
  simp [merge, pairBlocks, addTo, sameBlock]

theorem additions_break_off_iff_largest :
    Lists (pairProfile 18446744073709551613 "a.go") "set" (pairBlocks 18446744073709551613 "a.go") ∧
      ∃ r, parse (pairProfile 18446744073709551613 "a.go") = .ok r ∧
        ∃ covered, r.statements = .ok 18446744073709551615 ∧ r.covered = .ok covered ∧
          covered ≤ 18446744073709551615 := by
  have hlists : Lists (pairProfile 18446744073709551613 "a.go") "set"
      (pairBlocks 18446744073709551613 "a.go") :=
    ⟨"mode: set", ["a.go:1.1,2.2 18446744073709551613 0", "a.go:3.1,4.2 2 1"],
      by decide +kernel, by decide +kernel, by decide +kernel⟩
  have hadds := (additions_break_off_iff _).1 _ _ hlists
  have hsum : exactTotal (merge (pairBlocks 18446744073709551613 "a.go")) < Width.count 64 := by
    rw [merge_pairBlocks]
    decide
  obtain ⟨r, hr⟩ := hadds.accepted.mpr fun file =>
    Nat.lt_of_le_of_lt (exactTotal_filter_le _ _) hsum
  obtain ⟨statements, covered, hstatements, hcovered, hexact, hle⟩ := hadds.totals r hr hsum
  obtain rfl : statements = 18446744073709551615 := by
    rw [← UInt64.toNat_inj, hexact, merge_pairBlocks]
    decide
  exact ⟨hlists, r, hr, covered, hstatements, hcovered, hle⟩

/-- Beside a block with as many statements as a word holds, two more are too many. In one file there
is no report then, in two files there is one that has no totals. -/
theorem pairProfile_breaks_off :
    parse (pairProfile 18446744073709551615 "a.go") = .error .overflow ∧
      ∃ r, parse (pairProfile 18446744073709551615 "b.go") = .ok r ∧
        r.statements = .error .overflow := by
  have hone : Lists (pairProfile 18446744073709551615 "a.go") "set"
      (pairBlocks 18446744073709551615 "a.go") :=
    ⟨"mode: set", ["a.go:1.1,2.2 18446744073709551615 0", "a.go:3.1,4.2 2 1"],
      by decide +kernel, by decide +kernel, by decide +kernel⟩
  have htwo : Lists (pairProfile 18446744073709551615 "b.go") "set"
      (pairBlocks 18446744073709551615 "b.go") :=
    ⟨"mode: set", ["a.go:1.1,2.2 18446744073709551615 0", "b.go:3.1,4.2 2 1"],
      by decide +kernel, by decide +kernel, by decide +kernel⟩
  have hlarge : ¬ FileCoverage.Fits (merge (pairBlocks 18446744073709551615 "a.go")) "a.go" := by
    rw [merge_pairBlocks]
    decide
  have hfits : ∀ file,
      FileCoverage.Fits (merge (pairBlocks 18446744073709551615 "b.go")) file := by
    intro file
    rw [merge_pairBlocks]
    by_cases ha : "a.go" = file
    · subst ha
      decide
    by_cases hb : "b.go" = file
    · subst hb
      decide
    · simp [FileCoverage.Fits, exactTotal, pairBlocks, ha, hb, Width.count]
  have hsum : Width.count 64 ≤ exactTotal (merge (pairBlocks 18446744073709551615 "b.go")) := by
    rw [merge_pairBlocks]
    decide
  exact ⟨hone.parse_eq.trans (ofBlocks_eq_overflow_iff.mpr ⟨_, hlarge⟩), _,
    htwo.parse_eq.trans (ofBlocks_eq_ok_iff.mpr ⟨hfits, rfl⟩),
    (statements_exact "set" hfits).trans (wordOf_eq_overflow_iff.mpr hsum)⟩

end CoverageReport

end SpecExplorer
