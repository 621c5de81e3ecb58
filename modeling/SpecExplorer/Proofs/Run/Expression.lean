/-
# Focus expressions as they are read

The test tool reads the written form of a focus as a regular expression and searches every full text
for it. This module reads the part of the syntax that is written here: characters that stand for
themselves, as they are or after a backslash, blanks, the two ends of the text, groups, and
alternatives. The name in a focus is read back as that name and nothing else, so a text is found
exactly when the focus selects it.
-/
import Mathlib.Data.List.Infix
import SpecExplorer.Run.Focus

namespace SpecExplorer

/-- The focus of a container selects its text, and what goes on from there with a blank. -/
theorem Focus.selects_startingWith_iff {text full : String} :
    (startingWith text).selects full ↔ full = text ∨
      ∃ c rest, Text.isBlank c ∧ full.toList = text.toList ++ c :: rest := by
  rw [selects, Bool.and_eq_true, List.isPrefixOf_iff_prefix, ← String.toList_inj]
  constructor
  · rintro ⟨⟨rest, hfull⟩, hblank⟩
    rw [← hfull, List.drop_left] at hblank
    cases rest with
    | nil => exact .inl (by rw [← hfull, List.append_nil])
    | cons c rest => exact .inr ⟨c, rest, hblank, hfull.symm⟩
  · rintro (hfull | ⟨c, rest, hc, hfull⟩)
    · rw [hfull, List.drop_length]
      exact ⟨List.prefix_rfl, rfl⟩
    · rw [hfull, List.drop_left]
      exact ⟨List.prefix_append _ _, hc⟩

/-- A regular expression. -/
inductive Expression where
  /-- Matches nothing at all, anywhere. -/
  | empty
  | start
  | finish
  | char (c : Char)
  | blank
  | seq (first second : Expression)
  | either (one other : Expression)

namespace Expression

/-- Whether an expression matches `found` in a text where `before` comes before it and `after`
after it. -/
def Matches : Expression → List Char → List Char → List Char → Prop
  | .empty, _, found, _ => found = []
  | .start, before, found, _ => found = [] ∧ before = []
  | .finish, _, found, after => found = [] ∧ after = []
  | .char c, _, found, _ => found = [c]
  | .blank, _, found, _ => ∃ c, found = [c] ∧ Text.isBlank c
  | .seq e e', before, found, after => ∃ x y, found = x ++ y ∧
      e.Matches before x (y ++ after) ∧ e'.Matches (before ++ x) y after
  | .either e e', before, found, after =>
      e.Matches before found after ∨ e'.Matches before found after

/-- Whether a match is found anywhere in a text. -/
def FoundIn (e : Expression) (text : String) : Prop :=
  ∃ before found after, text.toList = before ++ found ++ after ∧ e.Matches before found after

/-! ### Reading -/

/-- What a written expression is made of. -/
inductive Token where
  | part (e : Expression)
  | opening
  | closing
  | bar

/-- Characters that would need more of the syntax than is read here. -/
def operators : List Char := ['\\', '.', '+', '*', '?', '[', ']', '\x7b', '\x7d']

/-- A character by itself. -/
def bare? (c : Char) : Option Token :=
  match c with
  | '^' => some (.part .start)
  | '$' => some (.part .finish)
  | '(' => some .opening
  | ')' => some .closing
  | '|' => some .bar
  | c => if operators.contains c then none else some (.part (.char c))

/-- A character after a backslash. Letters and digits have meanings of their own there, of which
one is read. -/
def escaped? (c : Char) : Option Token :=
  if c = 's' then some (.part .blank)
  else if c.isAlphanum || 0x80 ≤ c.toNat then none
  else some (.part (.char c))

def tokens? : List Char → Option (List Token)
  | [] => some []
  | '\\' :: c :: rest => (escaped? c).bind fun token => (tokens? rest).map (token :: ·)
  | c :: rest => (bare? c).bind fun token => (tokens? rest).map (token :: ·)

/-- A group that is being read: the alternatives before the last bar, and what comes after it. -/
structure Group where
  earlier : Option Expression
  current : Expression

namespace Group

def new : Group := ⟨none, .empty⟩

def whole (g : Group) : Expression :=
  match g.earlier with
  | none => g.current
  | some e => .either e g.current

def add (g : Group) (e : Expression) : Group := ⟨g.earlier, .seq g.current e⟩

end Group

/-- Puts an expression together. `outer` holds the groups around the one that is being read. -/
def assemble? : List Group → Group → List Token → Option Expression
  | [], g, [] => some g.whole
  | _ :: _, _, [] => none
  | outer, g, .part e :: rest => assemble? outer (g.add e) rest
  | outer, g, .bar :: rest => assemble? outer ⟨some g.whole, .empty⟩ rest
  | outer, g, .opening :: rest => assemble? (g :: outer) .new rest
  | [], _, .closing :: _ => none
  | g' :: outer, g, .closing :: rest => assemble? outer (g'.add g.whole) rest

/-- Reads a written expression. -/
def read? (text : String) : Option Expression :=
  (tokens? text.toList).bind (assemble? [] .new)

/-! ### Text that stands for itself -/

/-- An expression and then some characters. -/
def literal (e : Expression) (cs : List Char) : Expression :=
  cs.foldl (fun e c => .seq e (.char c)) e

theorem matches_literal {e : Expression} {cs before found after : List Char} :
    (literal e cs).Matches before found after ↔
      ∃ x, found = x ++ cs ∧ e.Matches before x (cs ++ after) := by
  induction cs generalizing e found with
  | nil => simp [literal]
  | cons c cs ih =>
      have hcons : literal e (c :: cs) = literal (.seq e (.char c)) cs := rfl
      rw [hcons, ih]
      constructor
      · rintro ⟨x, rfl, y, z, rfl, he, rfl⟩
        exact ⟨y, by simp, he⟩
      · rintro ⟨x, rfl, he⟩
        exact ⟨x ++ [c], by simp, x, [c], rfl, he, rfl⟩

theorem escaped?_of_special {c : Char} (h : Focus.special.contains c) :
    escaped? c = some (.part (.char c)) := by
  have hall : (Focus.special.all fun c => c ≠ 's' ∧ ¬ (c.isAlphanum || 0x80 ≤ c.toNat)) := by
    decide +kernel
  obtain ⟨hs, hplain⟩ := of_decide_eq_true
    (List.all_eq_true.mp hall c (List.contains_iff_mem.mp h))
  rw [escaped?, if_neg hs, if_neg hplain]

/-- Every character with a meaning of its own in an expression is special. -/
theorem bare?_of_not_special {c : Char} (h : ¬ Focus.special.contains c) :
    bare? c = some (.part (.char c)) := by
  have hother : ∀ d ∈ Focus.special, c ≠ d := by
    rintro d hd rfl
    exact h (List.contains_iff_mem.mpr hd)
  have hoperator : ¬ operators.contains c := by
    have hall : operators.all Focus.special.contains := by decide +kernel
    intro hc
    exact h (List.all_eq_true.mp hall c (List.contains_iff_mem.mp hc))
  unfold bare?
  split
  all_goals first
    | exact absurd rfl (hother _ (by decide))
    | rw [if_neg hoperator]

theorem tokens?_bare {c : Char} (h : c ≠ '\\') (rest : List Char) :
    tokens? (c :: rest) = (bare? c).bind fun token => (tokens? rest).map (token :: ·) := by
  rw [tokens?]
  rintro d rest' rfl
  exact absurd rfl h

/-- An escaped text is read character by character, whatever comes after it. -/
theorem tokens?_escape (cs rest : List Char) :
    tokens? (cs.flatMap Focus.escapeChar ++ rest) =
      (tokens? rest).map (cs.map (fun c => .part (.char c)) ++ ·) := by
  induction cs with
  | nil => simp
  | cons c cs ih =>
      rw [List.flatMap_cons, List.append_assoc, Focus.escapeChar]
      by_cases h : Focus.special.contains c
      · rw [if_pos h, List.cons_append, List.singleton_append, tokens?, escaped?_of_special h, ih,
          Option.bind_some, Option.map_map]
        rfl
      · have hc : c ≠ '\\' := by
          rintro rfl
          exact h rfl
        rw [if_neg h, List.singleton_append, tokens?_bare hc, bare?_of_not_special h, ih,
          Option.bind_some, Option.map_map]
        rfl

theorem assemble?_literal (outer : List Group) (g : Group) (cs : List Char) (rest : List Token) :
    assemble? outer g (cs.map (fun c => .part (.char c)) ++ rest) =
      assemble? outer ⟨g.earlier, literal g.current cs⟩ rest := by
  induction cs generalizing g with
  | nil => rfl
  | cons c cs ih =>
      rw [List.map_cons, List.cons_append]
      cases outer with
      | nil => exact ih _
      | cons => exact ih _

/-! ### The expression of a focus -/

/-- A text at the start and then a tail. Nothing can come before them. -/
theorem foundIn_from_start {cs : List Char} {tail : Expression} {full : String} :
    (Expression.seq (literal (.seq .empty .start) cs) tail).FoundIn full ↔
      ∃ found after, full.toList = cs ++ found ++ after ∧ tail.Matches cs found after := by
  constructor
  · rintro ⟨before, found, after, hfull, x, y, rfl, hx, hy⟩
    obtain ⟨-, rfl, -, -, rfl, rfl, rfl, hbefore⟩ := matches_literal.mp hx
    obtain rfl : before = [] := by simpa using hbefore
    exact ⟨y, after, by simpa using hfull, hy⟩
  · rintro ⟨found, after, hfull, htail⟩
    have hcs : (literal (.seq .empty .start) cs).Matches [] cs (found ++ after) :=
      matches_literal.mpr ⟨[], rfl, [], [], rfl, rfl, rfl, rfl⟩
    exact ⟨[], cs ++ found, after, by simpa using hfull, cs, found, rfl, hcs, htail⟩

/-- What a focus is read as. -/
def ofFocus : Focus → Expression
  | .exactly text => .seq (literal (.seq .empty .start) text.toList) .finish
  | .startingWith text => .seq (literal (.seq .empty .start) text.toList)
      (.either (.seq .empty .blank) (.seq .empty .finish))

/-- An escaped text between the start and some tail is read as that text. -/
theorem read?_from_start (text : String) {tail : String} {tokens : List Token}
    (htail : tokens? tail.toList = some tokens) :
    read? ("^" ++ Focus.escape text ++ tail) =
      assemble? [] ⟨none, literal (.seq .empty .start) text.toList⟩ tokens := by
  have hcaret : "^".toList = ['^'] := rfl
  rw [read?, String.toList_append, String.toList_append, hcaret, Focus.escape,
    String.toList_ofList, List.append_assoc, List.singleton_append, tokens?_bare (by decide),
    tokens?_escape, htail]
  exact assemble?_literal [] ⟨none, .seq .empty .start⟩ text.toList tokens

theorem read?_expression (f : Focus) : read? f.expression = some (ofFocus f) := by
  cases f with
  | exactly text =>
      have htail : tokens? "$".toList = some [.part .finish] := rfl
      exact read?_from_start text htail
  | startingWith text =>
      have htail : tokens? "(\\s|$)".toList =
          some [.opening, .part .blank, .bar, .part .finish, .closing] := rfl
      exact read?_from_start text htail

/-- The expression of a focus is found in a text exactly when the focus selects the text. -/
theorem foundIn_ofFocus {f : Focus} {full : String} :
    (ofFocus f).FoundIn full ↔ f.selects full := by
  cases f with
  | exactly text =>
      rw [ofFocus, foundIn_from_start, Focus.selects, beq_iff_eq, ← String.toList_inj]
      simp [Matches]
  | startingWith text =>
      rw [ofFocus, foundIn_from_start, Focus.selects_startingWith_iff, ← String.toList_inj]
      constructor
      · rintro ⟨found, after, hfull, ⟨x, y, rfl, rfl, c, rfl, hc⟩ | ⟨x, y, rfl, rfl, rfl, rfl⟩⟩
        · exact .inr ⟨c, after, hc, by simpa using hfull⟩
        · exact .inl (by simpa using hfull)
      · rintro (hfull | ⟨c, rest, hc, hfull⟩)
        · exact ⟨[], [], by simpa using hfull, .inr ⟨[], [], rfl, rfl, rfl, rfl⟩⟩
        · exact ⟨[c], rest, by simpa using hfull, .inl ⟨[], [c], rfl, rfl, c, rfl, hc⟩⟩

end Expression

end SpecExplorer
