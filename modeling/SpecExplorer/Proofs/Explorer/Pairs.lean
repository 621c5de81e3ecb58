/-
# Pairs of clicks

A click that waits and was not used up is the last one on its target, and in the pairing of the
clicks so far it is alone. So one that comes while it waits makes a pair with it, and one that comes
later is alone in turn. Since the clock stops for every call that has to look, the answers are those
of the pairing, at the times it says, whatever is clicked elsewhere.
-/
import Mathlib.Data.List.Induction
import SpecExplorer.Proofs.Explorer.Clock
import SpecExplorer.Proofs.Explorer.TimedClicks

namespace SpecExplorer

namespace TimedClicks

open ClickFate (pairing)

/-! ### The clicks on one target -/

/-- The clicks on a target: their places, and when they came. -/
def clicksOn (x : TimedClicks) (target : ClickTarget) : List (Nat × Nat) :=
  (x.clicks.zipIdx.filter (·.1.2 = target)).map fun c => (c.2, c.1.1)

/-- When a target was clicked. -/
def timesOn (x : TimedClicks) (target : ClickTarget) : List Nat := (x.clicksOn target).map (·.2)

/-- What the click at a place has come to, if it has been answered. -/
def fate? (x : TimedClicks) (i : Nat) : Option ClickFate :=
  (⟨x.fates⟩ : Table Nat ClickFate).get? i

/-- What the clicks on a target have come to. -/
def fatesOn (x : TimedClicks) (target : ClickTarget) : List (Option ClickFate) :=
  (x.clicksOn target).map fun c => x.fate? c.1

/-- No click on a target comes just when the time of another one is over. -/
def Clear (x : TimedClicks) (d : Nat) : Prop :=
  x.clicks.Pairwise fun c c' => c.2 = c'.2 → c'.1 ≠ c.1 + d

section Clicks

variable {x y : TimedClicks} {target other : ClickTarget} {i a d : Nat}

theorem mem_clicksOn : (i, a) ∈ x.clicksOn target ↔ x.clicks[i]? = some (a, target) := by
  simp only [clicksOn, List.mem_map, List.mem_filter, decide_eq_true_eq, Prod.mk.injEq, Prod.exists,
    List.mem_zipIdx_iff_getElem?]
  constructor
  · rintro ⟨b, other, j, ⟨hget, rfl⟩, rfl, rfl⟩
    exact hget
  · exact fun hget => ⟨a, target, i, ⟨hget, rfl⟩, rfl, rfl⟩

/-- A click is listed once. -/
theorem nodup_places (x : TimedClicks) (target : ClickTarget) :
    ((x.clicksOn target).map (·.1)).Nodup := by
  have hplaces : (x.clicks.zipIdx.map (·.2)).Nodup := by
    rw [List.zipIdx_map_snd]
    exact List.nodup_range'
  rw [clicksOn, List.map_map]
  exact hplaces.sublist (List.filter_sublist.map _)

theorem clicksOn_congr (h : y.clicks = x.clicks) (target : ClickTarget) :
    y.clicksOn target = x.clicksOn target := by
  rw [clicksOn, clicksOn, h]

theorem Clear.of_concat (h : y.clicks = x.clicks ++ [(x.now, target)]) (hclear : y.Clear d) :
    x.Clear d ∧ ∀ i a, (i, a) ∈ x.clicksOn target → x.now ≠ a + d := by
  rw [Clear, h, List.pairwise_append] at hclear
  refine ⟨hclear.1, fun i a hmem => ?_⟩
  exact hclear.2.2 _ (List.mem_of_getElem? (mem_clicksOn.mp hmem)) _ (List.mem_singleton_self _) rfl

end Clicks

/-! ### Calls and the pairing so far -/

/-- A call has come to what the pairing makes of its click, or waits for it. One that was used up
looks before its time would be up. -/
inductive Fits (x : TimedClicks) (d : Nat) (target : ClickTarget) (c : Nat × Nat)
    (fate : ClickFate) : Prop
  | answered (hmem : (c.1, fate) ∈ x.fates)
      (hpast : ∀ action time, fate = .act action time → time ≤ x.now)
  | alone (id : Nat) (hwaits : x.Waits c.1 target id (c.2 + d)) (hkept : ¬ x.isUsedUp id)
      (hahead : x.now ≤ c.2 + d) (hfate : fate = .act .expand (c.2 + d))
  | usedUp (id : Nat) (hwaits : x.Waits c.1 target id (c.2 + d)) (hused : x.isUsedUp id)
      (hearly : x.now < c.2 + d) (hfate : fate = .nothing)

/-- The calls are in order, and each answer is noted. -/
structure Noted (x : TimedClicks) : Prop where
  traffic : x.traffic.Sound
  places : x.fates.map (·.1) = x.traffic.answers.map (·.1)

/-- Every click has a call, the one that waits on a target is the last one there, and all fit the
pairing of the clicks so far. -/
structure Sound (x : TimedClicks) (d : Nat) : Prop extends Noted x where
  begun : x.traffic.calls.length = x.clicks.length
  last : ∀ target id, x.waiting? target = some id → ∃ before i a,
    x.clicksOn target = before ++ [(i, a)] ∧ x.Waits i target id (a + d)
  fits : ∀ target, List.Forall₂ (x.Fits d target) (x.clicksOn target)
    (pairing d (x.timesOn target))

section Sound

variable {x y : TimedClicks} {target other : ClickTarget} {d i a id due : Nat} {c : Nat × Nat}
  {fate : ClickFate}

theorem Waits.unique {id' due' : Nat} (h : x.Waits i target id due)
    (h' : x.Waits i other id' due') : target = other ∧ id = id' ∧ due = due' := by
  cases Option.some.inj (h.symm.trans h')
  exact ⟨rfl, rfl, rfl⟩

theorem Fits.keep (h : x.Fits d target c fate) (hnow : y.now = x.now) (hfates : x.fates ⊆ y.fates)
    (hwaits : ∀ id due, x.Waits c.1 target id due →
      y.Waits c.1 target id due ∧ (y.isUsedUp id ↔ x.isUsedUp id)) : y.Fits d target c fate := by
  cases h with
  | answered hmem hpast => exact .answered (hfates hmem) (hnow ▸ hpast)
  | alone id hi hkept hahead hfate =>
      obtain ⟨hi', hused⟩ := hwaits id _ hi
      exact .alone id hi' (mt hused.mp hkept) (hnow ▸ hahead) hfate
  | usedUp id hi hused hearly hfate =>
      obtain ⟨hi', hused'⟩ := hwaits id _ hi
      exact .usedUp id hi' (hused'.mpr hused) (hnow ▸ hearly) hfate

/-- What a call answers is what the pairing makes of its click. -/
theorem Fits.answer {fate' : ClickFate} (h : x.Fits d other c fate)
    (ha : Answered x y i target id due fate') : y.Fits d other c fate := by
  have hsubset : x.fates ⊆ y.fates := ha.fates ▸ List.subset_append_left _ _
  by_cases hi : i = c.1
  · subst hi
    have hnew : (c.1, fate') ∈ y.fates := by
      rw [ha.fates]
      exact List.mem_append_right _ (List.mem_singleton_self _)
    cases h with
    | answered hmem hpast => exact .answered (hsubset hmem) (ha.now ▸ hpast)
    | alone k hk hkept hahead hfate =>
        obtain ⟨rfl, rfl, rfl⟩ := hk.unique ha.waits
        rcases ha.reason with ⟨-, hdropped⟩ | ⟨rfl, hdue⟩
        · exact absurd hdropped hkept
        · obtain rfl : fate = .act .expand x.now := by rw [hfate, Nat.le_antisymm hahead hdue]
          refine .answered hnew ?_
          rintro _ _ ⟨⟩
          exact Nat.le_of_eq ha.now.symm
    | usedUp k hk hdropped hearly hfate =>
        obtain ⟨rfl, rfl, rfl⟩ := hk.unique ha.waits
        rcases ha.reason with ⟨rfl, -⟩ | ⟨-, hdue⟩
        · exact .answered (hfate ▸ hnew) (by rw [hfate]; exact nofun)
        · exact absurd hearly (Nat.not_lt_of_le hdue)
  · exact h.keep ha.now hsubset fun k due' hk =>
      ⟨(ClickTraffic.waits_set ha.waits ha.calls).mpr ⟨hi, hk⟩, ha.usedUp k⟩

theorem Ticked.waits_iff (ht : Ticked x y) :
    y.Waits i target id due ↔ x.Waits i target id due := by
  rw [Waits, ClickTraffic.Waits, ClickTraffic.at?, ht.calls]
  rfl

/-- The clock leaves its time to every call. -/
theorem Fits.tick (h : x.Fits d target c fate) (ht : Ticked x y) : y.Fits d target c fate := by
  have hused : ∀ k, y.isUsedUp k = x.isUsedUp k := fun k => by
    rw [isUsedUp, ht.explorer]
    rfl
  cases h with
  | answered hmem hpast =>
      exact .answered (ht.fates ▸ hmem) fun action time hf =>
        Nat.le_trans (hpast action time hf) ht.le
  | alone id hi hkept hahead hfate =>
      have hrest := ht.rests _ _ _ _ hi
      rw [if_neg hkept] at hrest
      exact .alone id (ht.waits_iff.mpr hi) (hused id ▸ hkept) hrest.2 hfate
  | usedUp id hi hdropped hearly hfate =>
      have hrest := ht.rests _ _ _ _ hi
      rw [if_pos hdropped] at hrest
      exact .usedUp id (ht.waits_iff.mpr hi) (hused id ▸ hdropped) hrest hfate

/-! ### One move -/

namespace Clicked

variable {call : Option Activity} {fates : List (Nat × ClickFate)}

/-- Whoever waited before one more click waits after it. -/
theorem waits_iff (hc : Clicked x y target call fates) : y.Waits i other id due ↔
    x.Waits i other id due ∨ i = x.traffic.calls.length ∧ call = some (.pressed other id due) :=
  ClickTraffic.waits_append hc.calls

theorem clicksOn_self (hc : Clicked x y target call fates) :
    y.clicksOn target = x.clicksOn target ++ [(x.clicks.length, x.now)] := by
  rw [clicksOn, clicksOn, hc.clicks, List.zipIdx_append, List.filter_append, List.map_append]
  simp

theorem clicksOn_of_ne (hc : Clicked x y target call fates) (hne : other ≠ target) :
    y.clicksOn other = x.clicksOn other := by
  rw [clicksOn, clicksOn, hc.clicks, List.zipIdx_append, List.filter_append, List.map_append]
  simp [hne.symm]

theorem timesOn_self (hc : Clicked x y target call fates) :
    y.timesOn target = x.timesOn target ++ [x.now] := by
  rw [timesOn, hc.clicksOn_self, List.map_append]
  rfl

theorem begun (hc : Clicked x y target call fates) (h : x.Sound d) :
    y.traffic.calls.length = y.clicks.length := by
  rw [hc.calls, hc.clicks, List.length_append, List.length_append, h.begun]
  rfl

/-- What waits on another target is still the last click there. -/
theorem last_of_ne (hc : Clicked x y target call fates) (h : x.Sound d)
    (hwaiting : x.waiting? other = some id) (hne : other ≠ target) :
    ∃ before i a, y.clicksOn other = before ++ [(i, a)] ∧ y.Waits i other id (a + d) := by
  obtain ⟨before, i, a, hclicks, hi⟩ := h.last other id hwaiting
  exact ⟨before, i, a, (hc.clicksOn_of_ne hne).trans hclicks, hc.waits_iff.mpr (.inl hi)⟩

/-- The clicks on another target fit as before. -/
theorem fits_of_ne (hc : Clicked x y target call fates) (h : x.Sound d) (hne : other ≠ target)
    (hkeep : ∀ c fate, x.Fits d other c fate → y.Fits d other c fate) :
    List.Forall₂ (y.Fits d other) (y.clicksOn other) (pairing d (y.timesOn other)) := by
  rw [timesOn, hc.clicksOn_of_ne hne]
  exact (h.fits other).imp hkeep

end Clicked

/-- A call that waits has come to nothing yet. -/
theorem Sound.not_mem_fates (h : x.Sound d) (hwaits : x.Waits i target id due)
    (fate : ClickFate) : (i, fate) ∉ x.fates := by
  intro hmem
  have hplace : i ∈ x.traffic.answers.map (·.1) := h.places ▸ List.mem_map_of_mem hmem
  obtain ⟨⟨j, action⟩, hanswer, rfl⟩ := List.mem_map.mp hplace
  exact h.traffic.not_answered hwaits action hanswer

theorem exists_of_forall₂_concat {α β : Type} {R : α → β → Prop} {l : List α} {a : α}
    {u : List β} (h : List.Forall₂ R (l ++ [a]) u) :
    ∃ v b, u = v ++ [b] ∧ List.Forall₂ R l v ∧ R a b := by
  have hreverse := List.forall₂_reverse_iff.mpr h
  rw [List.reverse_append, List.reverse_singleton, List.singleton_append] at hreverse
  obtain ⟨b, v, hab, hv, heq⟩ := List.forall₂_cons_left_iff.mp hreverse
  refine ⟨v.reverse, b, ?_, ?_, hab⟩
  · rw [← List.reverse_cons, ← heq, List.reverse_reverse]
  · rw [← List.forall₂_reverse_iff, List.reverse_reverse]
    exact hv

/-- The click that waits on a target is the last one there, and alone in the pairing so far. -/
theorem Sound.exists_alone (h : x.Sound d) (hwaiting : x.waiting? target = some id) :
    ∃ before i a fates, x.clicksOn target = before ++ [(i, a)] ∧ x.Waits i target id (a + d) ∧
      x.now ≤ a + d ∧ List.Forall₂ (x.Fits d target) before fates ∧
      pairing d (before.map (·.2) ++ [a]) = fates ++ [.act .expand (a + d)] := by
  obtain ⟨before, i, a, hclicks, hi⟩ := h.last target id hwaiting
  have hfits := h.fits target
  rw [timesOn, hclicks, List.map_append] at hfits
  obtain ⟨fates, fate, hpairing, hbefore, hlast⟩ := exists_of_forall₂_concat hfits
  refine ⟨before, i, a, fates, hclicks, hi, ?_⟩
  cases hlast with
  | answered hmem => exact absurd hmem (h.not_mem_fates hi fate)
  | alone k hk hkept hahead hfate => exact ⟨hahead, hbefore, hfate ▸ hpairing⟩
  | usedUp k hk hused =>
      obtain ⟨-, rfl, -⟩ := hk.unique hi
      exact absurd hused (h.traffic.regular.kept target k hwaiting)

/-- Calls that do not wait under the number that is used up fit as before. -/
theorem Fits.double (h : x.Fits d other c fate) (hd : Doubled x y target id)
    (hnot : ∀ due, ¬ x.Waits c.1 other id due) : y.Fits d other c fate := by
  refine h.keep hd.now (hd.fates ▸ List.subset_append_left _ _) fun k due hk => ?_
  refine ⟨hd.waits_iff.mpr (.inl hk), (hd.usedUp k).trans (or_iff_left ?_)⟩
  rintro rfl
  exact hnot due hk

/-- Two clicks in time fit a pair, and those before them on their target fit as before. -/
theorem Sound.fits_doubled (h : x.Sound d) (hd : Doubled x y target id) (hclear : y.Clear d) :
    List.Forall₂ (y.Fits d target) (y.clicksOn target) (pairing d (y.timesOn target)) := by
  obtain ⟨before, i, a, fates, hclicks, hi, hahead, hbefore, hpairing⟩ := h.exists_alone hd.first
  have hmem : (i, a) ∈ x.clicksOn target := hclicks ▸ List.mem_concat_self
  have hlt : x.now < a + d :=
    Nat.lt_of_le_of_ne hahead ((Clear.of_concat hd.clicks hclear).2 i a hmem)
  have hunique : ∀ c ∈ before, ∀ due, ¬ x.Waits c.1 target id due := by
    intro c hc due hwaits
    have hplaces := x.nodup_places target
    rw [hclicks, List.map_append, List.nodup_append] at hplaces
    exact hplaces.2.2 _ (List.mem_map_of_mem hc) _ (List.mem_singleton_self _)
      (h.traffic.own _ _ _ _ _ _ _ hwaits hi)
  have htimes : x.timesOn target = before.map (·.2) ++ [a] := by
    rw [timesOn, hclicks, List.map_append]
    rfl
  rw [hd.clicksOn_self, hd.timesOn_self, hclicks, htimes,
    ClickFate.pairing_concat_of_alone hpairing hlt, List.append_assoc]
  refine List.rel_append ?_ (.cons ?_ (.cons ?_ .nil))
  · exact ((List.forall₂_and_left _ _).mpr ⟨hunique, hbefore⟩).imp fun c fate hc =>
      hc.2.double hd hc.1
  · exact .usedUp id (hd.waits_iff.mpr (.inl hi)) ((hd.usedUp id).mpr (.inr rfl)) (hd.now ▸ hlt) rfl
  · refine .answered ?_ ?_
    · rw [hd.fates, h.begun]
      exact List.mem_append_right _ (List.mem_singleton_self _)
    · rintro _ _ ⟨⟩
      exact Nat.le_of_eq hd.now.symm

/-- A click that comes while another one waits on its target makes a pair with it. -/
theorem Sound.double (h : x.Sound d) (hd : Doubled x y target id) (hclear : y.Clear d)
    (hy : y.Noted) : y.Sound d where
  toNoted := hy
  begun := hd.begun h
  last other k hk := by
    rw [hd.waiting] at hk
    split at hk
    next => cases hk
    next hne => exact hd.last_of_ne h hk hne
  fits other := by
    by_cases hother : other = target
    · exact hother ▸ h.fits_doubled hd hclear
    · refine hd.fits_of_ne h hother fun c fate hfits => hfits.double hd fun due hwaits => ?_
      -- What waits under the number stands on the target that was clicked.
      obtain ⟨before, i, a, -, hi⟩ := h.last target id hd.first
      have heq := h.traffic.own _ _ _ _ _ _ _ hwaits hi
      exact hother (Waits.unique hwaits (heq ▸ hi)).1

/-- A click that finds nobody waiting is alone in the pairing so far. -/
theorem Sound.pairing_free (h : x.Sound d) (hfree : x.waiting? target = none) :
    pairing d (x.timesOn target ++ [x.now]) =
      pairing d (x.timesOn target) ++ [.act .expand (x.now + d)] := by
  rcases ClickFate.pairing_concat d (x.timesOn target) x.now with
    halone | ⟨times, a, htimes, hlt, hpairing⟩
  · exact halone
  -- The last click would be alone, and its time would not be up yet, so it would wait.
  obtain ⟨before, last, hclicks, rfl, hlast⟩ := List.map_eq_append_iff.mp htimes
  obtain ⟨⟨i, a⟩, rfl, rfl⟩ := List.map_eq_singleton_iff.mp hlast
  have hfits := h.fits target
  rw [hclicks, hpairing] at hfits
  obtain ⟨fates, fate, heq, -, hfit⟩ := exists_of_forall₂_concat hfits
  obtain ⟨rfl, -⟩ := List.cons.inj (List.append_inj' heq rfl).2
  cases hfit with
  | answered hmem hpast => exact absurd hlt (Nat.not_lt_of_le (hpast _ _ rfl))
  | alone id hi hkept =>
      rcases h.traffic.stands _ _ _ _ hi with hget | hdropped
      · exact absurd (hget.symm.trans hfree) (Option.some_ne_none id)
      · exact absurd hdropped hkept
  | usedUp id hi hused hearly hfate => cases hfate

/-- A click on a target where nobody waits is alone. -/
theorem Sound.begin (h : x.Sound d) (hb : Begun d x y target id) (hy : y.Noted) : y.Sound d where
  toNoted := hy
  begun := hb.begun h
  last other k hk := by
    rw [hb.waiting] at hk
    split at hk
    next heq =>
        obtain rfl := Option.some.inj hk
        subst heq
        exact ⟨x.clicksOn other, x.clicks.length, x.now, hb.clicksOn_self,
          hb.waits_iff.mpr (.inr ⟨h.begun.symm, rfl⟩)⟩
    next hne => exact hb.last_of_ne h hk hne
  fits other := by
    have hkeep : ∀ other c fate, x.Fits d other c fate → y.Fits d other c fate :=
      fun other c fate hfits =>
        hfits.keep hb.now (hb.fates ▸ List.subset_append_left _ _) fun k due hk =>
          ⟨hb.waits_iff.mpr (.inl hk), hb.usedUp k⟩
    by_cases hother : other = target
    · subst hother
      have hfresh : ¬ x.isUsedUp id := fun hused =>
        Nat.lt_irrefl _ (hb.next ▸ h.traffic.regular.dropped id hused)
      rw [hb.clicksOn_self, hb.timesOn_self, h.pairing_free hb.free]
      refine List.rel_append ((h.fits other).imp (hkeep other)) (.cons ?_ .nil)
      refine .alone id ?_ (mt (hb.usedUp id).mp hfresh) (hb.now ▸ Nat.le_add_right _ _) rfl
      exact hb.waits_iff.mpr (.inr ⟨h.begun.symm, rfl⟩)
    · exact hb.fits_of_ne h hother (hkeep other)

/-- A call that is answered leaves all others as they were. -/
theorem Sound.answer (h : x.Sound d) (ha : Answered x y i target id due fate) (hy : y.Noted) :
    y.Sound d where
  toNoted := hy
  begun := by rw [ha.calls, ha.clicks, List.length_set, h.begun]
  last other k hk := by
    obtain ⟨before, j, a, hclicks, hj⟩ := h.last other k (ha.waiting other k hk)
    obtain ⟨j', due', hj'⟩ := hy.traffic.held other k hk
    obtain ⟨hne, hold⟩ := (ClickTraffic.waits_set ha.waits ha.calls).mp hj'
    obtain rfl := h.traffic.own _ _ _ _ _ _ _ hold hj
    refine ⟨before, j', a, (clicksOn_congr ha.clicks other).trans hclicks, ?_⟩
    exact (ClickTraffic.waits_set ha.waits ha.calls).mpr ⟨hne, hj⟩
  fits other := by
    rw [timesOn, clicksOn_congr ha.clicks]
    exact (h.fits other).imp fun c fate hfits => hfits.answer ha

theorem Sound.tick (h : x.Sound d) (ht : Ticked x y) (hy : y.Noted) : y.Sound d where
  toNoted := hy
  begun := by rw [ht.calls, ht.clicks, h.begun]
  last other k hk := by
    rw [waiting?, ht.explorer] at hk
    obtain ⟨before, i, a, hclicks, hi⟩ := h.last other k hk
    exact ⟨before, i, a, (clicksOn_congr ht.clicks other).trans hclicks, ht.waits_iff.mpr hi⟩
  fits other := by
    rw [timesOn, clicksOn_congr ht.clicks]
    exact (h.fits other).imp fun c fate hfits => hfits.tick ht

theorem Noted.note (h : x.Noted) (st : ClickStep) (clicks : List (Nat × ClickTarget)) :
    (x.note (x.traffic.step st) clicks).Noted := by
  have hmoves := ClickTraffic.moves h.traffic.called st
  refine ⟨h.traffic.moves hmoves, ?_⟩
  obtain ⟨new, hnew⟩ := hmoves.answers_prefix
  rw [TimedClicks.note, ← hnew, List.drop_left, List.map_append, List.map_append, h.places,
    List.map_map]
  rfl

/-- The calls are in order after a move, and its answers are noted. -/
theorem Noted.step (h : x.Noted) (d : Nat) (st : TimedClickStep) : (x.step d st).Noted := by
  cases st with
  | press | poll | lapse => exact h.note _ _
  | tick time =>
      rw [TimedClicks.step]
      split
      next => exact h.note _ _
      next => exact h

theorem Sound.step (h : x.Sound d) {st : TimedClickStep} (hclear : (x.step d st).Clear d) :
    (x.step d st).Sound d := by
  have hy := h.toNoted.step d st
  cases moves h.traffic.called st with
  | idle heq =>
      rw [heq]
      exact h
  | doubled hd => exact h.double hd hclear hy
  | begun hb => exact h.begin hb hy
  | answered ha => exact h.answer ha hy
  | ticked ht => exact h.tick ht hy

theorem clear_of_step {st : TimedClickStep} (hclear : (x.step d st).Clear d) : x.Clear d := by
  cases st with
  | press target s => exact (hclear.of_concat rfl).1
  | poll | lapse => exact hclear
  | tick time =>
      rw [TimedClicks.step] at hclear
      split at hclear <;> exact hclear

theorem sound_start (settings : Settings) (provider : OutlineProvider) (d : Nat) :
    (start settings provider).Sound d where
  traffic := ClickTraffic.sound_start settings provider
  begun := rfl
  places := rfl
  last target id hwaiting := by cases hwaiting
  fits target := .nil

theorem sound_run {settings : Settings} {provider : OutlineProvider} {steps : List TimedClickStep}
    (hclear : (run settings provider d steps).Clear d) :
    (run settings provider d steps).Sound d := by
  induction steps using List.reverseRecOn with
  | nil => exact sound_start settings provider d
  | append_singleton before st ih =>
      rw [run_append_singleton] at hclear ⊢
      exact (ih (clear_of_step hclear)).step hclear

/-! ### What the clicks have come to -/

theorem Sound.nodup_fates (h : x.Sound d) : (x.fates.map (·.1)).Nodup :=
  h.places ▸ h.traffic.once

theorem Sound.fate?_eq_some (h : x.Sound d) : x.fate? i = some fate ↔ (i, fate) ∈ x.fates :=
  Table.get?_eq_some_iff_mem (t := ⟨x.fates⟩) h.nodup_fates i fate

/-- What a call has come to is what the pairing makes of its click. -/
theorem Fits.eq_of_fate? (hfits : x.Fits d target c fate) (h : x.Sound d) {fate' : ClickFate}
    (hfate : x.fate? c.1 = some fate') : fate' = fate := by
  cases hfits with
  | answered hmem => exact Option.some.inj (hfate.symm.trans (h.fate?_eq_some.mpr hmem))
  | alone id hi | usedUp id hi => exact absurd (h.fate?_eq_some.mp hfate) (h.not_mem_fates hi _)

/-- When its time is over it has come to that. -/
theorem Fits.fate?_eq (hfits : x.Fits d target c fate) (h : x.Sound d) (hpast : c.2 + d < x.now) :
    x.fate? c.1 = some fate := by
  cases hfits with
  | answered hmem => exact h.fate?_eq_some.mpr hmem
  | alone id hi hkept hahead => exact absurd hpast (Nat.not_lt_of_le hahead)
  | usedUp id hi hused hearly => exact absurd hpast (Nat.lt_asymm hearly)

end Sound

/-! ### Time goes on -/

section Time

variable {x y : TimedClicks} {target : ClickTarget} {d i id due : Nat}

/-- How many calls wait. -/
def pending (x : TimedClicks) : Nat := x.traffic.calls.countP (·.isSome)

/-- A call has to look, since it was used up or its time is up. -/
def Over (x : TimedClicks) (i : Nat) : Prop :=
  ∃ target id due, x.Waits i target id due ∧ (x.isUsedUp id ∨ due ≤ x.now)

/-- A call that is answered is one less. -/
theorem Answered.pending_lt {fate : ClickFate} (ha : Answered x y i target id due fate) :
    y.pending < x.pending := by
  obtain ⟨hlt, heq⟩ := List.getElem?_eq_some_iff.mp (Option.join_eq_some_iff.mp ha.waits)
  have hpos : 0 < x.pending := List.countP_pos_iff.mpr ⟨_, heq ▸ List.getElem_mem hlt, rfl⟩
  have hset : y.pending = x.pending - 1 := by
    rw [pending, ha.calls, List.countP_set hlt, heq]
    simp [pending]
  omega

/-- If no call has to look the clock may go on. -/
theorem mayTick_of_not_over (h : ∀ i, ¬ x.Over i) : x.mayTick (x.now + 1) := by
  simp only [mayTick, Bool.and_eq_true, List.all_eq_true, decide_eq_true_eq]
  refine ⟨Nat.le_succ _, ?_⟩
  intro a? hmem
  obtain ⟨i, hlt, hcall⟩ := List.mem_iff_getElem.mp hmem
  split
  next target id due =>
      have hwaits : x.Waits i target id due :=
        Option.join_eq_some_iff.mpr (List.getElem?_eq_some_iff.mpr ⟨hlt, hcall⟩)
      obtain ⟨hkept, hahead⟩ := not_or.mp fun hover => h i ⟨target, id, due, hwaits, hover⟩
      have hdue : x.now < due := Nat.lt_of_not_le hahead
      simp [hkept, hdue, Nat.succ_le_of_lt hdue]
  next => rfl

/-- A call that has to look does, or the clock moves on by one. -/
theorem exists_move_of_clock (d : Nat) (s : Surroundings) (x : TimedClicks) :
    ∃ st, TimedClickStep.OfClock s st ∧ (x.step d st).clicks = x.clicks ∧
      ((x.step d st).now = x.now ∧ (x.step d st).pending < x.pending ∨
        (x.step d st).now = x.now + 1) := by
  by_cases hover : ∃ i, x.Over i
  · obtain ⟨i, target, id, due, hwaits, hover⟩ := hover
    obtain ⟨fate, ha⟩ := exists_answered_poll hwaits hover d s
    exact ⟨.poll i s, .poll i, ha.clicks, .inl ⟨ha.now, ha.pending_lt⟩⟩
  · have hmay := mayTick_of_not_over fun i hi => hover ⟨i, hi⟩
    have htick : x.traffic.step (.tick (x.now + 1)) = { x.traffic with now := x.now + 1 } :=
      if_pos (Nat.le_succ _)
    refine ⟨.tick (x.now + 1), .tick _, ?_⟩
    rw [step, if_pos hmay, htick]
    exact ⟨rfl, .inr rfl⟩

end Time

/-! ### Which clicks make pairs -/

/-- What clicks come to when none comes just a threshold after another one on its target. -/
structure PairsUp (x : TimedClicks) (d : Nat) : Prop where
  /-- A click comes to something but once. -/
  once : (x.fates.map (·.1)).Nodup
  /-- What has been answered so far is as in the pairing of the clicks so far, on each target. -/
  soFar : ∀ target, List.Forall₂ (fun fate? fate => ∀ fate', fate? = some fate' → fate' = fate)
    (x.fatesOn target) (pairing d (x.timesOn target))
  /-- Once the time of all clicks on a target is over, they have come to what the pairing says. -/
  settled : ∀ target, (∀ a ∈ x.timesOn target, a + d < x.now) →
    x.fatesOn target = (pairing d (x.timesOn target)).map some
  /-- Nothing keeps the clock from any later time. -/
  goesOn : ∀ (s : Surroundings) (time : Nat), x.now ≤ time →
    ∃ more : List TimedClickStep, (∀ st ∈ more, st.OfClock s) ∧
      (more.foldl (step d) x).clicks = x.clicks ∧ (more.foldl (step d) x).now = time

/-- On each target, going from the left, a click makes a pair with the next one if that comes within
the threshold: the first of them then does nothing and the second runs when it comes. A click that
makes no pair expands exactly a threshold after it came. Other targets make no difference. -/
theorem clicks_pair_up (settings : Settings) (provider : OutlineProvider) {d : Nat}
    {steps : List TimedClickStep} (hclear : (run settings provider d steps).Clear d) :
    (run settings provider d steps).PairsUp d := by
  have hsound := sound_run hclear
  refine ⟨hsound.nodup_fates, ?_, ?_, ?_⟩
  · intro target
    rw [fatesOn, List.forall₂_map_left_iff]
    refine (hsound.fits target).imp ?_
    exact fun c fate hfits fate' hfate => hfits.eq_of_fate? hsound hfate
  · intro target hpast
    have hover : ∀ c ∈ (run settings provider d steps).clicksOn target,
        c.2 + d < (run settings provider d steps).now :=
      fun c hc => hpast c.2 (List.mem_map_of_mem hc)
    rw [← List.forall₂_eq_eq_eq, fatesOn, List.forall₂_map_left_iff, List.forall₂_map_right_iff]
    exact ((List.forall₂_and_left _ _).mpr ⟨hover, hsound.fits target⟩).imp fun c fate hc =>
      hc.2.fate?_eq hsound hc.1
  · exact fun s time hle => exists_moves_to (exists_move_of_clock d s) _ hle

open RefreshTraffic (cartDocument answering)

/-- A file and one of its tests. -/
def fileTarget : ClickTarget := ⟨cartDocument, .root⟩

def testTarget : ClickTarget := ⟨cartDocument, .ofNames ["cart", "adds"]⟩

/-- The test is clicked at 0, 100 and 200, and the file in between at 50. -/
def threeClicks : List TimedClickStep :=
  let s := answering 0 ⟨[]⟩
  [.press testTarget s, .tick 50, .press fileTarget s, .tick 100, .press testTarget s, .poll 0 s,
    .tick 200, .press testTarget s, .tick 450, .poll 1 s, .tick 600, .lapse 3, .tick 601]

theorem threeClicks_clear :
    (run .default (.tool Settings.default.toolPath) 400 threeClicks).Clear 400 := by
  have hclicks : (run .default (.tool Settings.default.toolPath) 400 threeClicks).clicks =
      [(0, testTarget), (50, fileTarget), (100, testTarget), (200, testTarget)] := by
    decide +kernel
  rw [Clear, hclicks]
  decide +kernel

/-- The first two clicks on the test are a pair, and the third one is alone. -/
theorem clicks_pair_up_threeClicks :
    (run .default (.tool Settings.default.toolPath) 400 threeClicks).Clear 400 ∧
      (run .default (.tool Settings.default.toolPath) 400 threeClicks).PairsUp 400 ∧
      (run .default (.tool Settings.default.toolPath) 400 threeClicks).fatesOn testTarget =
        [some .nothing, some (.act .run 100), some (.act .expand 600)] ∧
      (run .default (.tool Settings.default.toolPath) 400 threeClicks).fatesOn fileTarget =
        [some (.act .expand 450)] :=
  ⟨threeClicks_clear, clicks_pair_up _ _ threeClicks_clear, by decide +kernel, by decide +kernel⟩

end TimedClicks

end SpecExplorer
