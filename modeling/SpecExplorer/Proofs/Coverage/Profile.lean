/-
# Profiles in writing

A profile is its header and a line for each of some blocks, in any order, any number of times, and
with blank lines anywhere after the header. A line is cut from the right: its two numbers have no
blanks and the extent of its block has no colon, so whatever else the name of the file holds, the
last two blanks and the last colon before them are those that were written. Reading therefore gives
back the blocks that were listed, and the report tells just these.
-/
import SpecExplorer.Proofs.Coverage.Report
import SpecExplorer.Proofs.Text.Digits
import SpecExplorer.Proofs.Text.Lines
import SpecExplorer.Proofs.Text.Trimmed

namespace SpecExplorer

/-! ### Cutting at the last occurrence -/

theorem splitLast_append {c : Char} {after : List Char} (h : c ∉ after) (before : List Char) :
    splitLast c (before ++ c :: after) = some (before, after) := by
  have hafter : ∀ d ∈ after.reverse, decide (d ≠ c) = true := fun d hd => by
    rw [decide_eq_true_eq]
    rintro rfl
    exact h (List.mem_reverse.mp hd)
  have hback : (before ++ c :: after).reverse = after.reverse ++ c :: before.reverse := by simp
  have hdrop : (before ++ c :: after).reverse.dropWhile (· ≠ c) = c :: before.reverse := by
    rw [hback, List.dropWhile_append_of_pos hafter, List.dropWhile_cons_of_neg (by simp)]
  have htake : (before ++ c :: after).reverse.takeWhile (· ≠ c) = after.reverse := by
    rw [hback, List.takeWhile_append_of_pos hafter, List.takeWhile_cons_of_neg (by simp),
      List.append_nil]
  simp only [splitLast, hdrop, htake, List.reverse_reverse]

namespace CoverBlock

/-! ### Lines of blocks -/

/-- What a line can say of a block. -/
structure Writable (b : CoverBlock) : Prop where
  file : '\n' ∉ b.file.toList
  /-- The name of the file does not start with a blank. -/
  start : ∀ c ∈ b.file.toList.head?, ¬ Text.isBlank c
  extent : '\n' ∉ b.extent.toList
  colon : ':' ∉ b.extent.toList
  /-- The count is a 64-bit word. -/
  count : b.count ≤ Width.largest 64

instance (b : CoverBlock) : Decidable b.Writable :=
  decidable_of_iff ('\n' ∉ b.file.toList ∧ (b.file.toList.head?.all fun c => !Text.isBlank c) ∧
      '\n' ∉ b.extent.toList ∧ ':' ∉ b.extent.toList ∧ b.count ≤ Width.largest 64) <| by
    rw [Option.all_eq_true]
    simp only [Bool.not_eq_true', ← Bool.not_eq_true]
    exact ⟨fun ⟨hfile, hstart, hextent, hcolon, hcount⟩ => ⟨hfile, hstart, hextent, hcolon, hcount⟩,
      fun h => ⟨h.file, h.start, h.extent, h.colon, h.count⟩⟩

/-- The line of a profile for a block. -/
def line (b : CoverBlock) : String :=
  b.file ++ ":" ++ b.extent ++ " " ++ Nat.repr b.statements.toNat ++ " " ++ Nat.repr b.count

/-- Lines that are all lines of some blocks list some of these. -/
theorem exists_map_line {lines : List String} {blocks : List CoverBlock}
    (h : ∀ l ∈ lines, ∃ b ∈ blocks, b.line = l) :
    ∃ listed : List CoverBlock, (∀ b ∈ listed, b ∈ blocks) ∧ listed.map line = lines := by
  induction lines with
  | nil => exact ⟨[], nofun, rfl⟩
  | cons l lines ih =>
      obtain ⟨⟨b, hb, rfl⟩, hlines⟩ := List.forall_mem_cons.mp h
      obtain ⟨listed, hlisted, rfl⟩ := ih hlines
      exact ⟨b :: listed, List.forall_mem_cons.mpr ⟨hb, hlisted⟩, rfl⟩

theorem toList_line (b : CoverBlock) :
    b.line.toList = (b.file.toList ++ ':' :: b.extent.toList ++
      ' ' :: Nat.toDigits 10 b.statements.toNat) ++ ' ' :: Nat.toDigits 10 b.count := by
  simp [line, String.toList_append]

theorem blank_not_mem_toDigits (n : Nat) : ' ' ∉ Nat.toDigits 10 n := fun h =>
  absurd (Text.isDigit_of_mem_toDigits h) (by decide)

theorem Writable.newline {b : CoverBlock} (h : b.Writable) : '\n' ∉ b.line.toList := by
  have hdigits : ∀ n, '\n' ∉ Nat.toDigits 10 n := fun n hn =>
    absurd (Text.isDigit_of_mem_toDigits hn) (by decide)
  simp [toList_line, h.file, h.extent, hdigits]

/-- There is nothing to trim from the line of a block. -/
theorem Writable.trim_line {b : CoverBlock} (h : b.Writable) : Text.trim b.line = b.line := by
  refine Text.trim_eq_self (fun c hc => ?_) fun c hc hblank => ?_
  · rw [toList_line] at hc
    cases hfile : b.file.toList with
    | nil =>
        rw [hfile] at hc
        obtain rfl := Option.some.inj hc
        decide
    | cons d rest =>
        rw [hfile] at hc
        exact h.start c (by rw [hfile]; exact hc)
  · have hdigit : c ∈ Nat.toDigits 10 b.count := by
      rw [toList_line, List.getLast?_append_cons,
        List.getLast?_cons_of_ne_nil Nat.toDigits_ne_nil] at hc
      exact List.mem_of_getLast? hc
    exact Text.not_isDigit_of_isBlank hblank (Text.isDigit_of_mem_toDigits hdigit)

/-- The line of a block is read back. -/
theorem Writable.ofLine?_line {b : CoverBlock} (h : b.Writable) : ofLine? b.line = some b := by
  have hstatements : b.statements.toNat ≤ Width.largest 64 :=
    Nat.le_sub_one_of_lt (Width.toNat_lt b.statements)
  rw [ofLine?, h.trim_line, toList_line, splitLast_append (blank_not_mem_toDigits _)]
  simp only [Option.bind_eq_bind, Option.bind_some]
  rw [splitLast_append (blank_not_mem_toDigits _)]
  simp only [Option.bind_some]
  rw [splitLast_append h.colon]
  simp only [Option.bind_some, Text.word?_toDigits hstatements, Text.word?_toDigits h.count,
    String.ofList_toList]
  simp

/-- Two blocks have different lines. -/
theorem Writable.eq_of_line_eq {a b : CoverBlock} (ha : a.Writable) (hb : b.Writable)
    (h : a.line = b.line) : a = b := by
  have hread := ha.ofLine?_line
  rw [h, hb.ofLine?_line] at hread
  exact (Option.some.inj hread).symm

theorem Writable.line_ne_empty {b : CoverBlock} (h : b.Writable) : b.line ≠ "" := by
  intro hempty
  have hread := h.ofLine?_line
  rw [hempty] at hread
  exact absurd hread (by simp [ofLine?, splitLast, Text.trim, Text.dropEndBlanks])

theorem ofLine?_trim (line : String) : ofLine? (Text.trim line) = ofLine? line := by
  rw [ofLine?, ofLine?, Text.trim_trim]

end CoverBlock

/-! ### Lines of a profile -/

namespace Text

/-- A text put together from lines is cut into these, but for blanks at their ends and blank
lines. -/
theorem trim_lines_intercalate (line : String) (rest : List String)
    (h : ∀ l ∈ line :: rest, '\n' ∉ l.toList) :
    ((lines ("\n".intercalate (line :: rest))).map trim).filter (!·.isEmpty) =
      ((line :: rest).map trim).filter (!·.isEmpty) := by
  induction rest generalizing line with
  | nil =>
      have hline : '\n' ∉ line.toList := h line List.mem_cons_self
      rw [String.intercalate_singleton, lines, linesBy_last hline]
      split
      next hempty =>
          rw [String.toList_eq_nil_iff.mp hempty]
          decide
      next => rw [List.map_singleton, String.ofList_toList]
  | cons next rest ih =>
      have hline : '\n' ∉ line.toList := h line List.mem_cons_self
      have htext : ("\n".intercalate (line :: next :: rest)).toList =
          line.toList ++ '\n' :: ("\n".intercalate (next :: rest)).toList := by
        simp
      have hrest := ih next fun l hl => h l (List.mem_cons_of_mem _ hl)
      rw [lines] at hrest ⊢
      rw [htext, linesBy_line hline, List.map_cons, List.map_cons, trim_dropReturn,
        String.ofList_toList, List.map_cons, List.filter_cons, List.filter_cons, hrest]

end Text

namespace CoverageReport

open CoverBlock

/-- The lines of a text that are not blank. -/
def contents (text : String) : List String :=
  (Text.lines text).filter fun line => !(Text.trim line).isEmpty

/-- A text lists blocks in a mode: its first line is a header with the mode, and each of the others
says one of the blocks. -/
def Lists (text mode : String) (blocks : List CoverBlock) : Prop :=
  ∃ header lines, contents text = header :: lines ∧ modeOf? header = some mode ∧
    lines.mapM blockOf = .ok blocks

theorem parse_of_contents {text header : String} {lines : List String}
    (h : contents text = header :: lines) :
    parse text = (modeOf? header).elim (.error .noHeader) fun mode =>
      lines.mapM blockOf >>= ofBlocks mode := by
  rw [contents] at h
  simp only [parse, h]
  cases modeOf? header <;> rfl

/-- A text that lists blocks is read as their report, if there is one. -/
theorem Lists.parse_eq {text mode : String} {blocks : List CoverBlock}
    (h : Lists text mode blocks) : parse text = ofBlocks mode blocks := by
  obtain ⟨header, lines, hcontents, hmode, hread⟩ := h
  rw [parse_of_contents hcontents, hmode, Option.elim_some, hread]
  rfl

theorem exists_unreadable {lines : List String} {fault : CoverageFault}
    (h : lines.mapM blockOf = .error fault) : ∃ line, fault = .unreadableLine line := by
  induction lines with
  | nil => cases h
  | cons line rest ih =>
      rw [List.mapM_cons, blockOf] at h
      cases hline : CoverBlock.ofLine? line with
      | none =>
          rw [hline] at h
          exact ⟨line, (Except.error.inj h).symm⟩
      | some b =>
          rw [hline] at h
          cases hrest : rest.mapM blockOf with
          | error fault' =>
              rw [hrest] at h
              exact ih (hrest.trans h)
          | ok blocks =>
              rw [hrest] at h
              cases h

/-- A text that does not list blocks is refused for its header or for a line. -/
theorem lists_or_refused (text : String) :
    (∃ mode blocks, Lists text mode blocks) ∨ parse text = .error .noHeader ∨
      ∃ line, parse text = .error (.unreadableLine line) := by
  cases hcontents : contents text with
  | nil =>
      rw [contents] at hcontents
      exact .inr (.inl (by rw [parse, hcontents]))
  | cons header lines =>
      have hparse := parse_of_contents hcontents
      cases hmode : modeOf? header with
      | none => exact .inr (.inl (by rw [hparse, hmode, Option.elim_none]))
      | some mode =>
          cases hread : lines.mapM blockOf with
          | ok blocks => exact .inl ⟨mode, blocks, header, lines, hcontents, hmode, hread⟩
          | error fault =>
              obtain ⟨line, rfl⟩ := exists_unreadable hread
              refine .inr (.inr ⟨line, ?_⟩)
              rw [hparse, hmode, Option.elim_some, hread]
              rfl

theorem modeOf?_trim (line : String) : modeOf? (Text.trim line) = modeOf? line := by
  rw [modeOf?, modeOf?, Text.trim_trim]

theorem toList_trim_header (mode : String) : (Text.trim ("mode: " ++ mode)).toList =
    ['m', 'o', 'd', 'e', ':'] ++ (' ' :: mode.toList).rdropWhile Text.isBlank := by
  have hcolon : ¬ Text.isBlank ':' := by decide
  have hchars : ("mode: " ++ mode).toList = 'm' :: (['o', 'd', 'e', ':', ' '] ++ mode.toList) := by
    rw [String.toList_append, show "mode: ".toList = ['m', 'o', 'd', 'e', ':', ' '] by simp]
    rfl
  rw [Text.toList_trim, hchars, List.dropWhile_cons_of_neg (by decide)]
  exact Text.rdropWhile_append_cons_of_neg hcolon ['m', 'o', 'd', 'e'] (' ' :: mode.toList)

/-- The header states its mode. -/
theorem modeOf?_header (mode : String) : modeOf? ("mode: " ++ mode) = some (Text.trim mode) := by
  have hkey : "mode:".toList = ['m', 'o', 'd', 'e', ':'] := by simp
  have hpart : "mode:".toList.isPrefixOf (Text.trim ("mode: " ++ mode)).toList := by
    rw [toList_trim_header, hkey]
    exact List.isPrefixOf_iff_prefix.mpr (List.prefix_append _ _)
  have hrest : (Text.trim ("mode: " ++ mode)).toList.drop 5 =
      (' ' :: mode.toList).rdropWhile Text.isBlank := by
    rw [toList_trim_header]
    rfl
  rw [modeOf?, if_pos hpart, hrest, Text.trim_rdropWhile, Text.trim_cons_of_blank (by decide),
    String.ofList_toList]

/-- Lines that are those of some blocks, but for blanks at their ends, say these blocks. -/
theorem mapM_blockOf {lines : List String} {blocks : List CoverBlock}
    (hwritable : ∀ b ∈ blocks, b.Writable) (h : lines.map Text.trim = blocks.map line) :
    lines.mapM blockOf = .ok blocks := by
  induction blocks generalizing lines with
  | nil =>
      rw [List.map_eq_nil_iff.mp h]
      rfl
  | cons b rest ih =>
      obtain ⟨hb, hrest⟩ := List.forall_mem_cons.mp hwritable
      obtain ⟨l, lines, rfl, hl, hlines⟩ := List.map_eq_cons_iff.mp h
      have hread : blockOf l = .ok b := by
        rw [blockOf, ← ofLine?_trim, hl, hb.ofLine?_line]
      rw [List.mapM_cons, hread, ih hrest hlines]
      rfl

/-! ### Profiles of blocks -/

/-- A text is a profile of some blocks: a header with a mode, and after it a line for each of the
blocks, in any order, any number of times, and blank lines anywhere. -/
def IsProfile (mode : String) (blocks : List CoverBlock) (text : String) : Prop :=
  ∃ lines : List String, text = "\n".intercalate (("mode: " ++ mode) :: lines) ∧
    (∀ l ∈ lines, ('\n' ∉ l.toList ∧ Text.trim l = "") ∨ ∃ b ∈ blocks, b.line = l) ∧
    ∀ b ∈ blocks, b.line ∈ lines

/-- The lines of a profile that are not blank are its header and lines of its blocks. -/
theorem IsProfile.exists_contents {mode text : String} {blocks : List CoverBlock}
    (h : IsProfile mode blocks text) (hmode : '\n' ∉ mode.toList)
    (hwritable : ∀ b ∈ blocks, b.Writable) :
    ∃ listed : List CoverBlock, (∀ b, b ∈ listed ↔ b ∈ blocks) ∧
      (contents text).map Text.trim = Text.trim ("mode: " ++ mode) :: listed.map line := by
  obtain ⟨lines, rfl, hlines, hevery⟩ := h
  have hnewline : ∀ l ∈ ("mode: " ++ mode) :: lines, '\n' ∉ l.toList := by
    intro l hl
    rcases List.mem_cons.mp hl with rfl | hl
    · simp [String.toList_append, hmode]
    · rcases hlines l hl with ⟨hl, -⟩ | ⟨b, hb, rfl⟩
      exacts [hl, (hwritable b hb).newline]
  have hheader : (Text.trim ("mode: " ++ mode)).isEmpty = false := by
    rw [← Bool.not_eq_true, String.isEmpty_iff, ← String.toList_eq_nil_iff, toList_trim_header]
    simp
  -- What is left of the lines after the header are lines of blocks.
  have hblocks : ∀ l ∈ (lines.map Text.trim).filter (!·.isEmpty), ∃ b ∈ blocks, b.line = l := by
    intro trimmed htrimmed
    obtain ⟨hmem, hsome⟩ := List.mem_filter.mp htrimmed
    obtain ⟨l, hl, rfl⟩ := List.mem_map.mp hmem
    rcases hlines l hl with ⟨-, hblank⟩ | ⟨b, hb, rfl⟩
    · simp [hblank] at hsome
    · exact ⟨b, hb, (hwritable b hb).trim_line.symm⟩
  obtain ⟨listed, hlisted, hmap⟩ := exists_map_line hblocks
  refine ⟨listed, fun b => ⟨hlisted b, fun hb => ?_⟩, ?_⟩
  · have hline : b.line ∈ listed.map line := by
      rw [hmap, List.mem_filter, ← (hwritable b hb).trim_line]
      refine ⟨List.mem_map_of_mem (hevery b hb), ?_⟩
      simpa [(hwritable b hb).trim_line] using (hwritable b hb).line_ne_empty
    obtain ⟨a, ha, heq⟩ := List.mem_map.mp hline
    rwa [← (hwritable a (hlisted a ha)).eq_of_line_eq (hwritable b hb) heq]
  · have hcut := Text.trim_lines_intercalate _ _ hnewline
    rw [List.filter_map, List.map_cons, List.filter_cons, hheader, ← hmap] at hcut
    exact hcut

/-- A profile of some blocks is read as a report that tells these blocks. -/
theorem IsProfile.parse {mode text : String} {blocks : List CoverBlock}
    (h : IsProfile mode blocks text) (hmode : '\n' ∉ mode.toList)
    (hwritable : ∀ b ∈ blocks, b.Writable) (hagree : Agree blocks)
    (hfits : ∀ file, statementsIn blocks file < Width.count 64) :
    ∃ r, CoverageReport.parse text = .ok r ∧ r.mode = Text.trim mode ∧ r.Tells blocks := by
  obtain ⟨listed, hsame, hcontents⟩ := h.exists_contents hmode hwritable
  obtain ⟨header, lines, heq, hheader, hlines⟩ := List.map_eq_cons_iff.mp hcontents
  have hread : modeOf? header = some (Text.trim mode) := by
    rw [← modeOf?_trim, hheader, modeOf?_trim, modeOf?_header]
  have hblocks := mapM_blockOf (fun b hb => hwritable b ((hsame b).mp hb)) hlines
  have hlists : Lists text (Text.trim mode) listed := ⟨header, lines, heq, hread, hblocks⟩
  have hagree' : Agree listed := fun a ha b hb =>
    hagree a ((hsame a).mp ha) b ((hsame b).mp hb)
  have hfits' : ∀ file, FileCoverage.Fits (merge listed) file := by
    intro file
    rw [fits_merge_iff hagree', statementsIn_congr hsame]
    exact hfits file
  exact ⟨_, hlists.parse_eq.trans (ofBlocks_eq_ok_iff.mpr ⟨hfits', rfl⟩), rfl,
    (tells_exact _ hagree' hfits').congr hsame⟩

/-- Every profile of some blocks is accepted and reported as what its blocks come to, and all
profiles of the same blocks have one report, whatever the order of their lines, however often these
come, and wherever blank lines stand. -/
theorem parse_profile_of_blocks {mode : String} (hmode : '\n' ∉ mode.toList)
    {blocks : List CoverBlock} (hwritable : ∀ b ∈ blocks, b.Writable) (hagree : Agree blocks)
    (hfits : ∀ file, statementsIn blocks file < Width.count 64) {text : String}
    (h : IsProfile mode blocks text) :
    ∃ r, parse text = .ok r ∧ r.mode = Text.trim mode ∧ r.Tells blocks ∧
      ∀ text', IsProfile mode blocks text' → parse text' = .ok r := by
  obtain ⟨r, hread, hrmode, htells⟩ := h.parse hmode hwritable hagree hfits
  refine ⟨r, hread, hrmode, htells, fun text' h' => ?_⟩
  obtain ⟨r', hread', hrmode', htells'⟩ := h'.parse hmode hwritable hagree hfits
  rwa [htells.eq htells' (hrmode.trans hrmode'.symm)]

/-- A block that one test binary has run and another has not, and a block that none has run. -/
def checkoutBlocks : List CoverBlock :=
  [⟨"shop: cart.go", "1.1,4.2", 3, 0⟩, ⟨"shop: cart.go", "1.1,4.2", 3, 2⟩,
    ⟨"pay.go", "7.1,8.2", 1, 0⟩]

/-- A profile of these, with a line that comes twice and with blank lines. -/
def checkoutProfile : String :=
  "mode: set\nshop: cart.go:1.1,4.2 3 2\n \npay.go:7.1,8.2 1 0\n" ++
    "shop: cart.go:1.1,4.2 3 0\npay.go:7.1,8.2 1 0\n"

theorem parse_profile_of_blocks_checkout :
    IsProfile "set" checkoutBlocks checkoutProfile ∧
      parse checkoutProfile = .ok ⟨"set", [⟨"pay.go", 1, 0⟩, ⟨"shop: cart.go", 3, 3⟩]⟩ := by
  have hprofile : IsProfile "set" checkoutBlocks checkoutProfile :=
    ⟨["shop: cart.go:1.1,4.2 3 2", " ", "pay.go:7.1,8.2 1 0", "shop: cart.go:1.1,4.2 3 0",
      "pay.go:7.1,8.2 1 0", ""], by decide +kernel, by decide +kernel, by decide +kernel⟩
  have hagree : Agree checkoutBlocks := by
    unfold Agree
    decide
  have hfits : ∀ file, statementsIn checkoutBlocks file < Width.count 64 := by
    intro file
    by_cases hshop : "shop: cart.go" = file
    · subst hshop
      decide
    by_cases hpay : "pay.go" = file
    · subst hpay
      decide
    · simp [statementsIn, checkoutBlocks, hshop, hpay, Width.count]
  have htells : (⟨"set", [⟨"pay.go", 1, 0⟩, ⟨"shop: cart.go", 3, 3⟩]⟩ : CoverageReport).Tells
      checkoutBlocks :=
    { ordered := by decide +kernel
      files := fun file => by
        simp [checkoutBlocks]
        tauto
      statements := by decide +kernel
      covered := by decide +kernel }
  obtain ⟨r, hread, hmode, hr, -⟩ := parse_profile_of_blocks
    (show '\n' ∉ "set".toList by decide) (by decide +kernel) hagree hfits hprofile
  refine ⟨hprofile, ?_⟩
  rw [hread, hr.eq htells (hmode.trans (by decide +kernel))]

end CoverageReport

end SpecExplorer
