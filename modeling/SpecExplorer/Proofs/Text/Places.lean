/-
# Places in their order

Places are ordered by line and then by column. A walk never goes back, so the further it goes, the
later the place, wherever in a character, between the two parts of a line ending, or past the end
of the text it stops. What an editor is sent are words of 32 bits. They keep the order as long as
lines and columns fit in them, as they do in any text below four gigabytes.
-/
import Mathlib.Data.String.Basic
import SpecExplorer.Position

namespace SpecExplorer

namespace Text

namespace Place

variable {p q : Place} {c : Char} {rest cs : List Char}

/-- Line by line, and from left to right in a line. -/
instance : LE Place where
  le p q := p.line < q.line ∨ p.line = q.line ∧ p.column ≤ q.column

theorem le_iff : p ≤ q ↔ p.line < q.line ∨ p.line = q.line ∧ p.column ≤ q.column := Iff.rfl

theorem le_refl (p : Place) : p ≤ p := .inr ⟨rfl, Nat.le_refl _⟩

theorem le_trans {p q r : Place} (hpq : p ≤ q) (hqr : q ≤ r) : p ≤ r := by
  rw [le_iff] at *
  omega

theorem le_after (p : Place) (c : Char) (rest : List Char) : p ≤ p.after c rest := by
  unfold after
  split
  · exact .inl (Nat.lt_succ_self _)
  · exact .inr ⟨rfl, Nat.le_add_right _ _⟩

theorem le_walk (p : Place) (offset : Nat) (cs : List Char) : p ≤ p.walk offset cs := by
  induction cs generalizing p offset with
  | nil => exact le_refl p
  | cons c rest ih =>
      rw [walk]
      split
      · exact le_refl p
      · exact le_trans (le_after p c rest) (ih _ _)

/-- The further a walk goes, the later the place. -/
theorem walk_le_walk (p : Place) {offset offset' : Nat} (h : offset ≤ offset') (cs : List Char) :
    p.walk offset cs ≤ p.walk offset' cs := by
  induction cs generalizing p offset offset' with
  | nil => exact le_refl p
  | cons c rest ih =>
      rw [walk]
      split
      · exact le_walk p offset' (c :: rest)
      · rw [walk, if_neg (by omega)]
        exact ih _ (by omega)

/-! ### Words -/

/-- Both numbers are below 2^32. -/
structure Fits (p : Place) : Prop where
  line : p.line < 2 ^ 32
  column : p.column < 2 ^ 32

theorem units_le_utf8Size (c : Char) : units c ≤ c.utf8Size := by
  have hval : c.toNat = c.val.toNat := rfl
  unfold units Char.utf8Size
  simp only [UInt32.le_iff_toNat_le]
  grind

/-- A character takes a place no further than its bytes. -/
theorem after_sum_le (p : Place) (c : Char) (rest : List Char) :
    (p.after c rest).line + (p.after c rest).column ≤ p.line + p.column + c.utf8Size := by
  have hpos := c.utf8Size_pos
  have hunits := units_le_utf8Size c
  unfold after
  split <;> dsimp only <;> omega

theorem walk_sum_le (p : Place) (offset : Nat) (cs : List Char) :
    (p.walk offset cs).line + (p.walk offset cs).column ≤
      p.line + p.column + String.utf8Len cs := by
  induction cs generalizing p offset with
  | nil => exact Nat.le_add_right _ _
  | cons c rest ih =>
      have hafter := after_sum_le p c rest
      rw [walk, String.utf8Len_cons]
      split
      · omega
      · have hrest := ih (p.after c rest) (offset - c.utf8Size)
        omega

end Place

/-- All places of a text below four gigabytes fit. -/
theorem fits_of_size_lt {content : String} (h : content.utf8ByteSize < 2 ^ 32) (offset : Nat) :
    (placeOf content offset).Fits := by
  have hsum := Place.walk_sum_le ⟨0, 0⟩ offset content.toList
  rw [← String.utf8ByteSize_ofList, String.ofList_toList] at hsum
  dsimp only at hsum
  constructor <;> unfold placeOf <;> omega

end Text

namespace Position

open Text

/-- Line by line, and from left to right in a line. -/
instance : LE Position where
  le p q := p.line < q.line ∨ p.line = q.line ∧ p.character ≤ q.character

theorem toNat_line_ofPlace {p : Place} (h : p.Fits) : (ofPlace p).line.toNat = p.line :=
  UInt32.toNat_ofNat_of_lt' h.line

theorem toNat_character_ofPlace {p : Place} (h : p.Fits) :
    (ofPlace p).character.toNat = p.column :=
  UInt32.toNat_ofNat_of_lt' h.column

theorem ofPlace_le_ofPlace {p q : Place} (hp : p.Fits) (hq : q.Fits) (h : p ≤ q) :
    ofPlace p ≤ ofPlace q := by
  rcases Place.le_iff.mp h with hlt | ⟨heq, hle⟩
  · refine .inl (UInt32.lt_iff_toNat_lt.mpr ?_)
    rwa [toNat_line_ofPlace hp, toNat_line_ofPlace hq]
  · refine .inr ⟨congrArg Nat.toUInt32 heq, UInt32.le_iff_toNat_le.mpr ?_⟩
    rwa [toNat_character_ofPlace hp, toNat_character_ofPlace hq]

/-- Later offsets have later positions. -/
theorem ofOffset_le_ofOffset {content : String} (hfits : ∀ offset, (placeOf content offset).Fits)
    {offset offset' : Nat} (h : offset ≤ offset') :
    ofOffset content offset ≤ ofOffset content offset' :=
  ofPlace_le_ofPlace (hfits _) (hfits _) (Place.walk_le_walk _ h _)

end Position

end SpecExplorer
