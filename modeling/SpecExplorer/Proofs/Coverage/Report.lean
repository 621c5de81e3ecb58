/-
# What a report tells of its lines

A report has one entry for each file that the lines are about, in the order of the names' bytes,
with the statements of its blocks and of those that ran. There is no report if the statements of
some file do not fit into a word. All of that depends on which lines there are, not on their order
or on how often they come, so two reports that tell the same lines in one mode are the same report.
-/
import Mathlib.Algebra.Order.BigOperators.Group.Finset
import SpecExplorer.Proofs.Coverage.Blocks
import SpecExplorer.Proofs.Text.ByteOrder

namespace SpecExplorer

/-- Where every element either has a value or fails in one way, so has a whole list. -/
theorem mapM_eq_ite {α β ε : Type} {f : α → Except ε β} {g : α → β} {p : α → Prop}
    [DecidablePred p] {fault : ε} (h : ∀ a, f a = if p a then .ok (g a) else .error fault)
    (l : List α) : l.mapM f = if ∀ a ∈ l, p a then .ok (l.map g) else .error fault := by
  induction l with
  | nil => rfl
  | cons a rest ih =>
      rw [List.mapM_cons, h, ih]
      by_cases ha : p a
      · by_cases hrest : ∀ b ∈ rest, p b
        · rw [if_pos ha, if_pos hrest, if_pos (List.forall_mem_cons.mpr ⟨ha, hrest⟩)]
          rfl
        · rw [if_pos ha, if_neg hrest, if_neg fun hall => hrest (List.forall_mem_cons.mp hall).2]
          rfl
      · rw [if_neg ha, if_neg fun hall => ha (List.forall_mem_cons.mp hall).1]
        rfl

namespace FileCoverage

open CoverBlock

/-- The statements of the blocks of a file fit into a word. -/
def Fits (blocks : List CoverBlock) (file : String) : Prop :=
  exactTotal (blocks.filter (·.file == file)) < Width.count 64

instance (blocks : List CoverBlock) : DecidablePred (Fits blocks) :=
  fun file => inferInstanceAs (Decidable (exactTotal (blocks.filter (·.file == file)) < _))

/-- The coverage of a file by exact sums, each of them as a word. -/
def exact (blocks : List CoverBlock) (file : String) : FileCoverage where
  file := file
  statements := .ofNat (exactTotal (blocks.filter (·.file == file)))
  covered := .ofNat (exactTotal ((blocks.filter (·.file == file)).filter (0 < ·.count)))

/-- The statements that ran are some of all, so they fit into a word if these do. -/
theorem Fits.ran {blocks : List CoverBlock} {file : String} (h : Fits blocks file) :
    exactTotal ((blocks.filter (·.file == file)).filter (0 < ·.count)) < Width.count 64 :=
  Nat.lt_of_le_of_lt (exactTotal_filter_le _ _) h

theorem ofBlocks_eq (blocks : List CoverBlock) (file : String) :
    ofBlocks blocks file = if Fits blocks file then .ok (exact blocks file)
      else .error .overflow := by
  rw [ofBlocks, total_eq, total_eq]
  split
  next hfits =>
      rw [wordOf_of_lt hfits, wordOf_of_lt hfits.ran]
      rfl
  next hlarge =>
      rw [wordOf_eq_overflow_iff.mpr (Nat.le_of_not_lt hlarge)]
      rfl

variable {blocks : List CoverBlock} {file : String} (h : Fits blocks file)

include h

theorem toNat_statements_exact :
    (exact blocks file).statements.toNat = exactTotal (blocks.filter (·.file == file)) :=
  UInt64.toNat_ofNat_of_lt' h

theorem toNat_covered_exact : (exact blocks file).covered.toNat =
    exactTotal ((blocks.filter (·.file == file)).filter (0 < ·.count)) :=
  UInt64.toNat_ofNat_of_lt' h.ran

end FileCoverage

namespace CoverageReport

open CoverBlock

/-! ### The names of the files -/

theorem nodup_eraseDups (names : List String) : names.eraseDups.Nodup := by
  match names with
  | [] => exact List.nodup_nil
  | name :: rest =>
      rw [List.eraseDups_cons, List.nodup_cons]
      refine ⟨fun hmem => ?_, nodup_eraseDups _⟩
      simpa using List.mem_eraseDups.mp hmem
termination_by names.length
decreasing_by exact Nat.lt_succ_of_le (List.length_filter_le _ _)

theorem mem_fileNames {blocks : List CoverBlock} {file : String} :
    file ∈ fileNames blocks ↔ ∃ b ∈ blocks, b.file = file := by
  rw [fileNames, List.mem_mergeSort, List.mem_eraseDups, List.mem_map]

theorem nodup_fileNames (blocks : List CoverBlock) : (fileNames blocks).Nodup :=
  (List.mergeSort_perm _ _).nodup_iff.mpr (nodup_eraseDups _)

/-- The names stand in order, each once. -/
theorem pairwise_fileNames (blocks : List CoverBlock) : (fileNames blocks).Pairwise (· < ·) := by
  have hordered : (fileNames blocks).Pairwise fun a b => (!decide (b < a)) = true := by
    refine List.pairwise_mergeSort (fun a b c hab hbc => ?_) (fun a b => ?_) _
    · simp only [Bool.not_eq_true', decide_eq_false_iff_not, String.not_lt] at hab hbc ⊢
      exact String.le_trans hab hbc
    · simp only [Bool.or_eq_true, Bool.not_eq_true', decide_eq_false_iff_not, String.not_lt]
      exact String.le_total a b
  refine (hordered.and (nodup_fileNames blocks)).imp fun {a b} h => ?_
  simp only [Bool.not_eq_true', decide_eq_false_iff_not] at h
  by_contra hlt
  exact h.2 (String.le_antisymm (String.not_lt.mp h.1) (String.not_lt.mp hlt))

/-! ### Reports and lines -/

/-- What a report says of the blocks that some lines list. -/
structure Tells (r : CoverageReport) (lines : List CoverBlock) : Prop where
  /-- Every file comes once, in the order of the bytes of its name. -/
  ordered : (r.files.map (·.file)).Pairwise fun a b => Text.toUtf8 a < Text.toUtf8 b
  /-- The files are those of the lines. -/
  files : ∀ file, file ∈ r.files.map (·.file) ↔ ∃ b ∈ lines, b.file = file
  /-- The statements of a file are those of its blocks, each counted once. -/
  statements : ∀ f ∈ r.files, f.statements.toNat = statementsIn lines f.file
  /-- Its covered statements are those of the blocks that some line says have run. -/
  covered : ∀ f ∈ r.files, f.covered.toNat = statementsIn (lines.filter (0 < ·.count)) f.file

/-- The report of some lines by exact sums. -/
def exact (mode : String) (lines : List CoverBlock) : CoverageReport :=
  ⟨mode, (fileNames (merge lines)).map (FileCoverage.exact (merge lines))⟩

theorem fits_of_not_mem_fileNames {blocks : List CoverBlock} {file : String}
    (h : file ∉ fileNames blocks) : FileCoverage.Fits blocks file := by
  have hnone : blocks.filter (·.file == file) = [] := List.filter_eq_nil_iff.mpr fun b hb heq =>
    h (mem_fileNames.mpr ⟨b, hb, beq_iff_eq.mp heq⟩)
  rw [FileCoverage.Fits, hnone]
  decide

/-- There is a report just if the statements of each file fit into a word. -/
theorem ofBlocks_eq_ok_iff {mode : String} {lines : List CoverBlock} {r : CoverageReport} :
    ofBlocks mode lines = .ok r ↔
      (∀ file, FileCoverage.Fits (merge lines) file) ∧ exact mode lines = r := by
  rw [ofBlocks, mapM_eq_ite (FileCoverage.ofBlocks_eq _)]
  by_cases hfits : ∀ file ∈ fileNames (merge lines), FileCoverage.Fits (merge lines) file
  · have hall : ∀ file, FileCoverage.Fits (merge lines) file := fun file =>
      if hfile : file ∈ fileNames (merge lines) then hfits file hfile
      else fits_of_not_mem_fileNames hfile
    rw [if_pos hfits, and_iff_right hall]
    exact ⟨Except.ok.inj, congrArg Except.ok⟩
  · rw [if_neg hfits]
    exact iff_of_false nofun fun h => hfits fun file _ => h.1 file

theorem ofBlocks_eq_overflow_iff {mode : String} {lines : List CoverBlock} :
    ofBlocks mode lines = .error .overflow ↔ ∃ file, ¬ FileCoverage.Fits (merge lines) file := by
  rw [ofBlocks, mapM_eq_ite (FileCoverage.ofBlocks_eq _)]
  split
  next hfits =>
      refine iff_of_false nofun fun ⟨file, hlarge⟩ => hlarge ?_
      by_cases hfile : file ∈ fileNames (merge lines)
      exacts [hfits file hfile, fits_of_not_mem_fileNames hfile]
  next hlarge =>
      push Not at hlarge
      obtain ⟨file, -, hlarge⟩ := hlarge
      exact iff_of_true rfl ⟨file, hlarge⟩

theorem map_file_exact (mode : String) (lines : List CoverBlock) :
    (exact mode lines).files.map (·.file) = fileNames (merge lines) := by
  rw [exact, List.map_map]
  exact List.map_id _

theorem fits_merge_iff {lines : List CoverBlock} (hagree : Agree lines) {file : String} :
    FileCoverage.Fits (merge lines) file ↔ statementsIn lines file < Width.count 64 := by
  rw [FileCoverage.Fits, (merges_merge lines).exactTotal_file hagree]

/-- Lines that agree about their blocks are told, as long as the statements of every file fit into
a word. -/
theorem tells_exact (mode : String) {lines : List CoverBlock} (hagree : Agree lines)
    (hfits : ∀ file, FileCoverage.Fits (merge lines) file) : (exact mode lines).Tells lines where
  ordered := by
    rw [map_file_exact]
    exact (pairwise_fileNames _).imp fun h => Text.toUtf8_lt_toUtf8 h
  files file := by
    rw [map_file_exact, mem_fileNames]
    constructor
    · rintro ⟨a, ha, rfl⟩
      obtain ⟨b, hb, hplace, -⟩ := (merges_merge lines).listed a ha
      exact ⟨b, hb, file_eq_of_place_eq hplace⟩
    · rintro ⟨b, hb, rfl⟩
      obtain ⟨a, ha, hplace⟩ := (merges_merge lines).counted b hb
      exact ⟨a, ha, file_eq_of_place_eq hplace⟩
  statements f hf := by
    obtain ⟨file, -, rfl⟩ := List.mem_map.mp hf
    rw [FileCoverage.toNat_statements_exact (hfits file),
      (merges_merge lines).exactTotal_file hagree]
    rfl
  covered f hf := by
    obtain ⟨file, -, rfl⟩ := List.mem_map.mp hf
    have hran := ((merges_merge lines).ran hagree).exactTotal_file (hagree.filter _) file
    rw [FileCoverage.toNat_covered_exact (hfits file), List.filter_comm, hran]
    rfl

/-- What a report tells depends on which lines there are. -/
theorem Tells.congr {r : CoverageReport} {lines lines' : List CoverBlock}
    (h : r.Tells lines) (hsame : ∀ b, b ∈ lines ↔ b ∈ lines') : r.Tells lines' where
  ordered := h.ordered
  files file := by
    rw [h.files]
    simp only [hsame]
  statements f hf := (h.statements f hf).trans (statementsIn_congr hsame f.file)
  covered f hf := by
    rw [h.covered f hf]
    refine statementsIn_congr (fun b => ?_) f.file
    simp only [List.mem_filter, hsame]

theorem Tells.nodup {r : CoverageReport} {lines : List CoverBlock} (h : r.Tells lines) :
    (r.files.map (·.file)).Nodup := by
  refine h.ordered.imp fun {a b} hlt heq => ?_
  rw [heq] at hlt
  exact List.lt_irrefl _ hlt

/-- One mode and the same lines make one report. -/
theorem Tells.eq {r r' : CoverageReport} {lines : List CoverBlock} (h : r.Tells lines)
    (h' : r'.Tells lines) (hmode : r.mode = r'.mode) : r = r' := by
  have hnames : r.files.map (·.file) = r'.files.map (·.file) := by
    have hperm : (r.files.map (·.file)).Perm (r'.files.map (·.file)) :=
      (List.perm_ext_iff_of_nodup h.nodup h'.nodup).mpr fun file => by rw [h.files, h'.files]
    refine hperm.eq_of_pairwise (fun a b _ _ hab hba => ?_) h.ordered h'.ordered
    exact absurd (List.lt_trans hab hba) (List.lt_irrefl _)
  -- An entry is what the lines say about its file.
  have hentry : ∀ r : CoverageReport, r.Tells lines → r.files = (r.files.map (·.file)).map
      fun file => ⟨file, .ofNat (statementsIn lines file),
        .ofNat (statementsIn (lines.filter (0 < ·.count)) file)⟩ := by
    intro r h
    rw [List.map_map]
    refine (List.map_id _).symm.trans (List.map_congr_left fun f hf => ?_)
    simp [← h.statements f hf, ← h.covered f hf]
  have hfiles : r.files = r'.files := by
    rw [hentry r h, hentry r' h', hnames]
  obtain ⟨mode, files⟩ := r
  obtain ⟨mode', files'⟩ := r'
  exact congrArg₂ CoverageReport.mk hmode hfiles

end CoverageReport

end SpecExplorer
