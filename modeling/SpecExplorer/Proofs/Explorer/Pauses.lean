/-
# Pauses in typing

Every edit takes a ticket that overtakes the one before of its document. A refresh that waits thus
holds the ticket of the last edit of its document, or it was overtaken while its time was not up
yet. Since the clock stops for every wait that is over, this decides which edits lead to an outline:
those that no edit of the same document follows within the delay. It also takes that the clock is
never stopped for good.
-/
import Mathlib.Data.List.Induction
import SpecExplorer.Proofs.Explorer.Clock
import SpecExplorer.Proofs.Explorer.Typing

namespace SpecExplorer

namespace TypingTraffic

/-! ### Edits and their tickets -/

/-- When an edit came, and to which document. -/
def Edited (x : TypingTraffic) (i a : Nat) (uri : Uri) : Prop := x.edits[i]? = some (a, uri)

/-- A later edit of a document came at a time. -/
def Followed (x : TypingTraffic) (i b : Nat) (uri : Uri) : Prop := ∃ j, i < j ∧ x.Edited j b uri

/-- No edit comes just when the delay of the edit before it, in the same document, is over. -/
def Clear (x : TypingTraffic) (d : Nat) : Prop :=
  ∀ i j a b uri, i < j → x.Edited i a uri → x.Edited j b uri →
    (∀ k c, i < k → k < j → ¬ x.Edited k c uri) → b ≠ a + d

/-- Every edit has issued a ticket. The one that counts for a document is that of its last edit,
and one was cancelled only if another edit of the document followed. -/
structure Ticketed (x : TypingTraffic) : Prop where
  begun : x.refreshes.length = x.edits.length
  issued : x.explorer.tickets.next = x.edits.length
  past : ∀ i a uri, x.Edited i a uri → a ≤ x.now
  newest : ∀ uri k, x.explorer.tickets.pending.get? uri = some k →
    (∃ a, x.Edited k a uri) ∧ ∀ b, ¬ x.Followed k b uri
  overtaken : ∀ k, x.explorer.tickets.isCancelled k →
    ∃ a b uri, x.Edited k a uri ∧ x.Followed k b uri

section Ticketed

variable {x y : TypingTraffic} {uri other : Uri} {i j a b : Nat}

theorem Edited.lt (h : x.Edited i a uri) : i < x.edits.length :=
  (List.getElem?_eq_some_iff.mp h).1

theorem Edited.unique (h : x.Edited i a uri) (h' : x.Edited i b other) : a = b ∧ uri = other := by
  cases Option.some.inj (h.symm.trans h')
  exact ⟨rfl, rfl⟩

theorem edited_concat (h : y.edits = x.edits ++ [(x.now, uri)]) :
    y.Edited i a other ↔ x.Edited i a other ∨ i = x.edits.length ∧ a = x.now ∧ other = uri := by
  rw [Edited, Edited, h]
  rcases Nat.lt_trichotomy i x.edits.length with hlt | rfl | hgt
  · simp [List.getElem?_append_left hlt, Nat.ne_of_lt hlt]
  · simp [eq_comm]
  · have hnone : x.edits[i]? = none := List.getElem?_eq_none_iff.mpr (Nat.le_of_lt hgt)
    have hnone' : (x.edits ++ [(x.now, uri)])[i]? = none :=
      List.getElem?_eq_none_iff.mpr (by simpa [Nat.succ_le_iff] using hgt)
    simp [hnone, hnone', Nat.ne_of_gt hgt]

/-- Who is followed after one more edit was followed before, or is followed by that edit. -/
theorem followed_concat (h : y.edits = x.edits ++ [(x.now, uri)]) (hi : x.Edited i a other) :
    y.Followed i b other ↔ x.Followed i b other ∨ b = x.now ∧ other = uri := by
  constructor
  · rintro ⟨j, hlt, hj⟩
    rcases (edited_concat h).mp hj with hj | ⟨-, hb, huri⟩
    · exact .inl ⟨j, hlt, hj⟩
    · exact .inr ⟨hb, huri⟩
  · rintro (⟨j, hlt, hj⟩ | ⟨rfl, rfl⟩)
    · exact ⟨j, hlt, (edited_concat h).mpr (.inl hj)⟩
    · exact ⟨_, hi.lt, (edited_concat h).mpr (.inr ⟨rfl, rfl, rfl⟩)⟩

/-- What is clear was so before the last edit. -/
theorem Clear.of_concat {d : Nat} (h : y.edits = x.edits ++ [(x.now, uri)]) (hclear : y.Clear d) :
    x.Clear d := by
  intro i j a b other hlt hi hj hbetween
  refine hclear i j a b other hlt ((edited_concat h).mpr (.inl hi))
    ((edited_concat h).mpr (.inl hj)) ?_
  intro k c hik hkj hk
  rcases (edited_concat h).mp hk with hk | ⟨rfl, -⟩
  · exact hbetween k c hik hkj hk
  · exact Nat.lt_irrefl _ (Nat.lt_trans hkj hj.lt)

/-- An edit does not come just at the end of the delay of the last one. -/
theorem Clear.now_ne {d : Nat} (h : y.edits = x.edits ++ [(x.now, uri)]) (hclear : y.Clear d)
    (hi : x.Edited i a uri) (hlast : ∀ b, ¬ x.Followed i b uri) : x.now ≠ a + d := by
  refine hclear i x.edits.length a x.now uri hi.lt ((edited_concat h).mpr (.inl hi))
    ((edited_concat h).mpr (.inr ⟨rfl, rfl, rfl⟩)) ?_
  intro k c hik hkj hk
  rcases (edited_concat h).mp hk with hk | ⟨rfl, -⟩
  · exact hlast c ⟨k, hik, hk⟩
  · exact Nat.lt_irrefl _ hkj

theorem Ticketed.edited (ht : x.Ticketed) (hedits : y.edits = x.edits ++ [(x.now, uri)])
    (hnow : y.now = x.now) (hlength : y.refreshes.length = x.refreshes.length + 1)
    (htickets : y.explorer.tickets = (x.explorer.tickets.schedule uri).1) : y.Ticketed where
  begun := by rw [hlength, hedits, List.length_append, ht.begun, List.length_singleton]
  issued := by
    rw [htickets, RefreshTickets.next_schedule, hedits, List.length_append, ht.issued,
      List.length_singleton]
  past i a other hi := by
    rw [hnow]
    rcases (edited_concat hedits).mp hi with hi | ⟨-, rfl, -⟩
    · exact ht.past i a other hi
    · exact Nat.le_refl _
  newest other k hpending := by
    rw [htickets, RefreshTickets.get?_schedule] at hpending
    split at hpending
    next heq =>
        obtain rfl := Option.some.inj hpending
        rw [ht.issued, heq]
        refine ⟨⟨x.now, (edited_concat hedits).mpr (.inr ⟨rfl, rfl, rfl⟩)⟩, ?_⟩
        rintro b ⟨j, hlt, hj⟩
        have hle := hj.lt
        rw [hedits, List.length_append, List.length_singleton] at hle
        omega
    next hne =>
        obtain ⟨⟨a, ha⟩, hlast⟩ := ht.newest other k hpending
        refine ⟨⟨a, (edited_concat hedits).mpr (.inl ha)⟩, ?_⟩
        intro b hb
        rcases (followed_concat hedits ha).mp hb with hb | ⟨-, heq⟩
        · exact hlast b hb
        · exact hne heq
  overtaken k hcancelled := by
    rw [htickets, RefreshTickets.isCancelled_schedule] at hcancelled
    rcases hcancelled with hbefore | hpending
    · obtain ⟨a, b, other, hk, hfollowed⟩ := ht.overtaken k hbefore
      exact ⟨a, b, other, (edited_concat hedits).mpr (.inl hk),
        (followed_concat hedits hk).mpr (.inl hfollowed)⟩
    · obtain ⟨⟨a, hk⟩, -⟩ := ht.newest uri k hpending
      exact ⟨a, x.now, uri, (edited_concat hedits).mpr (.inl hk),
        (followed_concat hedits hk).mpr (.inr ⟨rfl, rfl⟩)⟩

/-- Without an edit nothing changes if no ticket is issued or cancelled. -/
theorem Ticketed.kept (ht : x.Ticketed) (hedits : y.edits = x.edits) (hnow : x.now ≤ y.now)
    (hlength : y.refreshes.length = x.refreshes.length)
    (hnext : y.explorer.tickets.next = x.explorer.tickets.next)
    (hpending : ∀ uri k, y.explorer.tickets.pending.get? uri = some k →
      x.explorer.tickets.pending.get? uri = some k)
    (hcancelled : ∀ k, y.explorer.tickets.isCancelled k → x.explorer.tickets.isCancelled k) :
    y.Ticketed where
  begun := by rw [hlength, hedits, ht.begun]
  issued := by rw [hnext, hedits, ht.issued]
  past i a uri hi := by
    rw [Edited, hedits] at hi
    exact Nat.le_trans (ht.past i a uri hi) hnow
  newest uri k hk := by
    simp only [Followed, Edited, hedits]
    exact ht.newest uri k (hpending uri k hk)
  overtaken k hk := by
    simp only [Followed, Edited, hedits]
    exact ht.overtaken k (hcancelled k hk)

end Ticketed

/-! ### Refreshes that wait -/

/-- What is known of the refresh that an edit has begun. While it waits, its ticket counts or was
cancelled, and in the latter case its time is not up yet, since it is looked at before the clock
moves. -/
structure Pausing (x : TypingTraffic) (d i : Nat) (r : Refresh) : Prop where
  begun : r.phase ≠ .start
  edited : ∃ a, x.Edited i a r.uri
  own : ∀ k, r.phase.ticket? = some k → k = i
  due : ∀ k due, r.phase = .debouncing k due → ∀ a, x.Edited i a r.uri → due = a + d
  ahead : ∀ k due, r.phase = .debouncing k due → x.now ≤ due
  early : ∀ k due, r.phase = .debouncing k due → x.explorer.tickets.isCancelled i → x.now < due
  stands : ∀ k due, r.phase = .debouncing k due → x.explorer.tickets.Stands r.uri i

/-- What has become of the waits so far. -/
structure Decided (x : TypingTraffic) (d : Nat) : Prop where
  once : (x.passed.map (·.1)).Nodup
  passed : ∀ i t, (i, t) ∈ x.passed → t ≤ x.now ∧
    (∀ r, x.at? i = some r → r.phase.wait? = none) ∧
    ∃ a uri, x.Edited i a uri ∧ t = a + d ∧ ∀ b, x.Followed i b uri → a + d < b
  settled : ∀ i a uri, x.Edited i a uri →
    (∃ r k due, x.at? i = some r ∧ r.phase = .debouncing k due) ∨ (i, a + d) ∈ x.passed ∨
      ∃ b, x.Followed i b uri ∧ b ≤ a + d

structure Sound (x : TypingTraffic) (d : Nat) : Prop where
  delay : x.explorer.settings.debounce = d
  ticketed : x.Ticketed
  pausing : ∀ i r, x.at? i = some r → x.Pausing d i r
  decided : x.Decided d

section Sound

variable {x y : TypingTraffic} {uri other : Uri} {d i j a b ticket due : Nat} {r : Refresh}

theorem at?_set (hat : x.at? i = some r) {v : Option Refresh}
    (h : y.refreshes = x.refreshes.set i v) (j : Nat) : y.at? j = if i = j then v else x.at? j := by
  rw [at?, h, RefreshTraffic.join_getElem?_set hat]
  rfl

theorem at?_concat {v : Refresh} (h : y.refreshes = x.refreshes ++ [some v])
    (hj : y.at? j = some r) : x.at? j = some r ∨ j = x.refreshes.length ∧ r = v := by
  rw [at?, h] at hj
  rcases RefreshTraffic.join_getElem?_concat hj with hat | ⟨hplace, hr⟩
  · exact .inl hat
  · exact .inr ⟨hplace, (Option.some.inj hr).symm⟩

theorem edited_congr (hedits : y.edits = x.edits) : y.Edited i a uri ↔ x.Edited i a uri := by
  rw [Edited, hedits]
  rfl

theorem followed_congr (hedits : y.edits = x.edits) :
    y.Followed i b uri ↔ x.Followed i b uri := by
  simp only [Followed, edited_congr hedits]

/-- The ticket of the last edit counts when its time is up. -/
theorem Pausing.last (ht : x.Ticketed) (hp : x.Pausing d i r)
    (hphase : r.phase = .debouncing ticket due) (hdue : due ≤ x.now) :
    due = x.now ∧ ∀ b, ¬ x.Followed i b r.uri := by
  have hle := hp.ahead ticket due hphase
  refine ⟨Nat.le_antisymm hdue hle, ?_⟩
  rcases hp.stands ticket due hphase with hpending | hcancelled
  · exact (ht.newest r.uri i hpending).2
  · exact absurd (hp.early ticket due hphase hcancelled) (Nat.not_lt_of_le hdue)

/-- A refresh that is dropped has been followed in time. -/
theorem Pausing.followed (ht : x.Ticketed) (hp : x.Pausing d i r)
    (hphase : r.phase = .debouncing ticket due) (hcancelled : x.explorer.tickets.isCancelled i)
    (ha : x.Edited i a r.uri) : ∃ b, x.Followed i b r.uri ∧ b ≤ a + d := by
  obtain ⟨a', b, other, hi, hfollowed⟩ := ht.overtaken i hcancelled
  obtain ⟨-, rfl⟩ := hi.unique ha
  refine ⟨b, hfollowed, ?_⟩
  obtain ⟨j, -, hj⟩ := hfollowed
  rw [← hp.due ticket due hphase a ha]
  exact Nat.le_trans (ht.past j b _ hj) (hp.ahead ticket due hphase)

/-! ### One move -/

/-- An edit leaves the refreshes before it as they were, and one that it overtakes is early. -/
theorem Pausing.concat (ht : x.Ticketed) (hp : x.Pausing d i r) (hclear : y.Clear d)
    (hedits : y.edits = x.edits ++ [(x.now, uri)]) (hnow : y.now = x.now)
    (htickets : y.explorer.tickets = (x.explorer.tickets.schedule uri).1) : y.Pausing d i r := by
  obtain ⟨a, ha⟩ := hp.edited
  have hdue : ∀ k due, r.phase = .debouncing k due → due = a + d := fun k due hphase =>
    hp.due k due hphase a ha
  have ha' : y.Edited i a r.uri := (edited_concat hedits).mpr (.inl ha)
  refine ⟨hp.begun, ⟨a, ha'⟩, hp.own, ?_, ?_, ?_, ?_⟩
  · intro k due hphase b hb
    rw [hdue k due hphase, (ha'.unique hb).1]
  · intro k due hphase
    rw [hnow]
    exact hp.ahead k due hphase
  · intro k due hphase hcancelled
    rw [hnow]
    rw [htickets, RefreshTickets.isCancelled_schedule] at hcancelled
    rcases hcancelled with hbefore | hpending
    · exact hp.early k due hphase hbefore
    · obtain ⟨⟨b, hb⟩, hlast⟩ := ht.newest uri i hpending
      obtain ⟨rfl, -⟩ := hb.unique ha
      refine Nat.lt_of_le_of_ne (hp.ahead k due hphase) ?_
      rw [hdue k due hphase]
      exact hclear.now_ne hedits hb hlast
  · intro k due hphase
    rw [htickets]
    exact (hp.stands k due hphase).schedule uri

/-- The refresh that an edit begins. -/
theorem pausing_edited (ht : x.Ticketed) (hedits : y.edits = x.edits ++ [(x.now, uri)])
    (hnow : y.now = x.now) (htickets : y.explorer.tickets = (x.explorer.tickets.schedule uri).1) :
    y.Pausing d x.edits.length
      ⟨uri, .change, .debouncing x.explorer.tickets.next (x.now + d)⟩ := by
  have hnew : y.Edited x.edits.length x.now uri :=
    (edited_concat hedits).mpr (.inr ⟨rfl, rfl, rfl⟩)
  have hpending : y.explorer.tickets.pending.get? uri = some x.edits.length := by
    rw [htickets, RefreshTickets.get?_schedule, if_pos rfl, ht.issued]
  refine ⟨nofun, ⟨x.now, hnew⟩, ?_, ?_, ?_, ?_, ?_⟩
  · rintro k ⟨⟩
    exact ht.issued
  · rintro k due ⟨⟩ a ha
    rw [(hnew.unique ha).1]
  · rintro k due ⟨⟩
    rw [hnow]
    exact Nat.le_add_right x.now d
  · rintro k due ⟨⟩ hcancelled
    rw [htickets, RefreshTickets.isCancelled_schedule] at hcancelled
    rcases hcancelled with hbefore | hpending'
    · obtain ⟨a, b, other, ha, -⟩ := ht.overtaken _ hbefore
      exact absurd ha.lt (Nat.lt_irrefl _)
    · obtain ⟨⟨a, ha⟩, -⟩ := ht.newest uri _ hpending'
      exact absurd ha.lt (Nat.lt_irrefl _)
  · rintro k due ⟨⟩
    exact .inl hpending

theorem Decided.edited (ht : x.Ticketed) (hd : x.Decided d) (hclear : y.Clear d)
    (hedits : y.edits = x.edits ++ [(x.now, uri)]) (hnow : y.now = x.now)
    {trigger : RefreshTrigger}
    (hrefreshes : y.refreshes = x.refreshes ++ [some ⟨uri, trigger, .debouncing ticket due⟩])
    (hpassed : y.passed = x.passed) : y.Decided d where
  once := by rw [hpassed]; exact hd.once
  passed i t hmem := by
    rw [hpassed] at hmem
    obtain ⟨hle, hwait, a, other, ha, rfl, hafter⟩ := hd.passed i t hmem
    refine ⟨hnow ▸ hle, ?_, a, other, (edited_concat hedits).mpr (.inl ha), rfl, ?_⟩
    · intro r hr
      rcases at?_concat hrefreshes hr with hr | ⟨rfl, -⟩
      · exact hwait r hr
      · exact absurd (ht.begun ▸ ha.lt) (Nat.lt_irrefl _)
    · intro b hb
      rcases (followed_concat hedits ha).mp hb with hb | ⟨rfl, rfl⟩
      · exact hafter b hb
      · by_cases hlast : ∀ b, ¬ x.Followed i b other
        · exact Nat.lt_of_le_of_ne hle (hclear.now_ne hedits ha hlast).symm
        · obtain ⟨c, hc⟩ := not_forall_not.mp hlast
          obtain ⟨j, -, hj⟩ := id hc
          exact Nat.lt_of_lt_of_le (hafter c hc) (ht.past j c other hj)
  settled i a other ha := by
    rcases (edited_concat hedits).mp ha with ha | ⟨rfl, rfl, rfl⟩
    · rcases hd.settled i a other ha with ⟨r, k, due, hat, hphase⟩ | hmem | ⟨b, hb, hle⟩
      · refine .inl ⟨r, k, due, ?_, hphase⟩
        rw [at?, hrefreshes, List.getElem?_append_left (ht.begun ▸ ha.lt)]
        exact hat
      · exact .inr (.inl (hpassed ▸ hmem))
      · exact .inr (.inr ⟨b, (followed_concat hedits ha).mpr (.inl hb), hle⟩)
    · refine .inl ⟨⟨other, trigger, .debouncing ticket due⟩, ticket, due, ?_, rfl⟩
      rw [at?, hrefreshes, ← ht.begun, List.getElem?_concat_length]
      rfl

/-- A refresh that has ended its wait leaves those of other edits as they were. -/
theorem Decided.set (hd : x.Decided d) (hat : x.at? i = some r) {v : Option Refresh}
    (hv : ∀ r', v = some r' → r'.phase.wait? = none) (hedits : y.edits = x.edits)
    (hnow : y.now = x.now) (hrefreshes : y.refreshes = x.refreshes.set i v)
    (hpassed : y.passed = x.passed)
    (hi : ∀ a k due, r.phase = .debouncing k due → x.Edited i a r.uri →
      ∃ b, x.Followed i b r.uri ∧ b ≤ a + d)
    (hedited : ∃ a, x.Edited i a r.uri) : y.Decided d where
  once := by rw [hpassed]; exact hd.once
  passed j t hmem := by
    rw [hpassed] at hmem
    obtain ⟨hle, hwait, a, other, ha, ht, hafter⟩ := hd.passed j t hmem
    refine ⟨hnow ▸ hle, ?_, a, other, (edited_congr hedits).mpr ha, ht, ?_⟩
    · intro r' hr'
      rw [at?_set hat hrefreshes] at hr'
      split at hr'
      · exact hv r' hr'
      · exact hwait r' hr'
    · exact fun b hb => hafter b ((followed_congr hedits).mp hb)
  settled j a other ha := by
    rw [edited_congr hedits] at ha
    simp only [followed_congr hedits, hpassed]
    by_cases hij : i = j
    · subst hij
      obtain ⟨a', ha'⟩ := hedited
      obtain ⟨rfl, rfl⟩ := ha.unique ha'
      rcases hd.settled i a _ ha with ⟨r', k, due, hat', hphase⟩ | hrest
      · obtain rfl := Option.some.inj (hat.symm.trans hat')
        exact .inr (.inr (hi a k due hphase ha))
      · exact .inr hrest
    · rw [at?_set hat hrefreshes, if_neg hij]
      exact hd.settled j a other ha

/-- A refresh that goes on to read at the end of its wait is that of the last edit so far. -/
theorem Decided.pass (ht : x.Ticketed) (hd : x.Decided d) (hp : x.Pausing d i r)
    (hat : x.at? i = some r) (hphase : r.phase = .debouncing ticket due) (hdue : due ≤ x.now) :
    Decided { x with
      refreshes := x.refreshes.set i (some (r.toPhase (.reading ticket)))
      passed := x.passed ++ [(i, x.now)] } d := by
  obtain ⟨a, ha⟩ := hp.edited
  obtain ⟨hnow, hlast⟩ := hp.last ht hphase hdue
  obtain rfl := hp.due ticket due hphase a ha
  have hnew : ∀ t, (i, t) ∉ x.passed := by
    intro t hmem
    have hwait := (hd.passed i t hmem).2.1 r hat
    rw [hphase] at hwait
    cases hwait
  have hset := at?_set (y := { x with
      refreshes := x.refreshes.set i (some (r.toPhase (.reading ticket)))
      passed := x.passed ++ [(i, x.now)] }) hat rfl
  refine ⟨?_, ?_, ?_⟩
  · rw [List.map_append, List.nodup_append]
    refine ⟨hd.once, List.nodup_singleton i, ?_⟩
    rintro j hj _ hi rfl
    obtain rfl := List.mem_singleton.mp hi
    obtain ⟨⟨j, t⟩, hmem, rfl⟩ := List.mem_map.mp hj
    exact hnew t hmem
  · intro j t hmem
    rcases List.mem_append.mp hmem with hmem | hmem
    · obtain ⟨hle, hwait, hrest⟩ := hd.passed j t hmem
      refine ⟨hle, ?_, hrest⟩
      intro r' hr'
      rw [hset] at hr'
      split at hr'
      next heq => exact absurd (heq ▸ hmem) (hnew t)
      next => exact hwait r' hr'
    · cases List.mem_singleton.mp hmem
      refine ⟨Nat.le_refl _, ?_, a, r.uri, ha, hnow.symm, fun b hb => absurd hb (hlast b)⟩
      intro r' hr'
      rw [hset, if_pos rfl] at hr'
      obtain rfl := Option.some.inj hr'
      rfl
  · intro j b other hb
    by_cases hij : i = j
    · subst hij
      obtain ⟨rfl, -⟩ := hb.unique ha
      refine .inr (.inl (List.mem_append_right _ ?_))
      rw [hnow]
      exact List.mem_singleton_self _
    · rw [hset, if_neg hij]
      rcases hd.settled j b other hb with hwaits | hmem | hfollowed
      · exact .inl hwaits
      · exact .inr (.inl (List.mem_append_left _ hmem))
      · exact .inr (.inr hfollowed)

/-- Without an edit, all that matters to a refresh that waits is its ticket and the time. -/
theorem Pausing.kept (hp : x.Pausing d i r) (hedits : y.edits = x.edits)
    (hwaits : ∀ k due, r.phase = .debouncing k due → y.now ≤ due ∧
      (y.explorer.tickets.isCancelled i → y.now < due) ∧ y.explorer.tickets.Stands r.uri i) :
    y.Pausing d i r where
  begun := hp.begun
  edited := by
    obtain ⟨a, ha⟩ := hp.edited
    exact ⟨a, (edited_congr hedits).mpr ha⟩
  own := hp.own
  due k due hphase a ha := hp.due k due hphase a ((edited_congr hedits).mp ha)
  ahead k due hphase := (hwaits k due hphase).1
  early k due hphase := (hwaits k due hphase).2.1
  stands k due hphase := (hwaits k due hphase).2.2

/-- Nothing has changed for a refresh that waits. -/
theorem Pausing.congr (hp : x.Pausing d i r) (hedits : y.edits = x.edits) (hnow : y.now = x.now)
    (htickets : y.explorer.tickets = x.explorer.tickets) : y.Pausing d i r := by
  refine hp.kept hedits ?_
  intro k due hphase
  rw [hnow, htickets]
  exact ⟨hp.ahead k due hphase, hp.early k due hphase, hp.stands k due hphase⟩

/-- A refresh that does not wait. -/
theorem Pausing.of_wait? {r' : Refresh} (hp : x.Pausing d i r) (hedits : y.edits = x.edits)
    (huri : r'.uri = r.uri) (hstart : r'.phase ≠ .start) (hwait : r'.phase.wait? = none)
    (hown : ∀ k, r'.phase.ticket? = some k → r.phase.ticket? = some k) : y.Pausing d i r' := by
  have hnot : ∀ k due, r'.phase ≠ .debouncing k due := by
    intro k due hphase
    rw [hphase] at hwait
    cases hwait
  refine ⟨hstart, ?_, fun k hk => hp.own k (hown k hk), ?_, ?_, ?_, ?_⟩
  · obtain ⟨a, ha⟩ := hp.edited
    exact ⟨a, huri ▸ (edited_congr hedits).mpr ha⟩
  all_goals exact fun k due hphase => absurd hphase (hnot k due)

theorem Sound.edit (h : x.Sound d) (hclear : y.Clear d)
    (hedits : y.edits = x.edits ++ [(x.now, uri)]) (hnow : y.now = x.now)
    (hrefreshes : y.refreshes = x.refreshes ++
      [some ⟨uri, .change, .debouncing x.explorer.tickets.next (x.now + d)⟩])
    (hpassed : y.passed = x.passed)
    (htickets : y.explorer.tickets = (x.explorer.tickets.schedule uri).1)
    (hsettings : y.explorer.settings = x.explorer.settings) : y.Sound d where
  delay := hsettings ▸ h.delay
  ticketed := h.ticketed.edited hedits hnow (by simp [hrefreshes]) htickets
  pausing j r hj := by
    rcases at?_concat hrefreshes hj with hj | ⟨rfl, rfl⟩
    · exact (h.pausing j r hj).concat h.ticketed hclear hedits hnow htickets
    · rw [h.ticketed.begun]
      exact pausing_edited h.ticketed hedits hnow htickets
  decided := h.decided.edited h.ticketed hclear hedits hnow hrefreshes hpassed

theorem Sound.drop (h : x.Sound d) (hat : x.at? i = some r)
    (hphase : r.phase = .debouncing ticket due)
    (hcancelled : x.explorer.tickets.isCancelled ticket) :
    Sound { x with refreshes := x.refreshes.set i none } d where
  delay := h.delay
  ticketed := h.ticketed.kept rfl (Nat.le_refl _) (List.length_set) rfl (fun _ _ => id)
    (fun _ => id)
  pausing j r' hj := by
    rw [at?_set hat rfl] at hj
    split at hj
    · cases hj
    · exact (h.pausing j r' hj).congr rfl rfl rfl
  decided := by
    have hp := h.pausing i r hat
    obtain rfl := hp.own ticket (by rw [hphase]; rfl)
    refine h.decided.set hat (fun r' hr' => by cases hr') rfl rfl rfl rfl ?_ hp.edited
    intro a k due hwaits ha
    exact hp.followed h.ticketed hwaits hcancelled ha

theorem Sound.pass (h : x.Sound d) (hat : x.at? i = some r)
    (hphase : r.phase = .debouncing ticket due) (hdue : due ≤ x.now) :
    Sound { x with
      refreshes := x.refreshes.set i (some (r.toPhase (.reading ticket)))
      passed := x.passed ++ [(i, x.now)] } d where
  delay := h.delay
  ticketed := h.ticketed.kept rfl (Nat.le_refl _) (List.length_set) rfl (fun _ _ => id)
    (fun _ => id)
  pausing j r' hj := by
    rw [at?_set hat rfl] at hj
    split at hj
    next heq =>
        subst heq
        obtain rfl := Option.some.inj hj
        exact (h.pausing i r hat).of_wait? rfl rfl nofun rfl (by rw [hphase]; exact fun _ => id)
    next => exact (h.pausing j r' hj).congr rfl rfl rfl
  decided := h.decided.pass h.ticketed (h.pausing i r hat) hat hphase hdue

theorem Sound.turn (h : x.Sound d) {e : Explorer} {phase? : Option RefreshPhase}
    (hat : x.at? i = some r) (hwait : r.phase.wait? = none) (hstart : r.phase ≠ .start)
    (hturns : Turns x.explorer r.uri r.phase e phase?)
    (hsettings : e.settings = x.explorer.settings) :
    Sound { x with explorer := e, refreshes := x.refreshes.set i (phase?.map r.toPhase) } d := by
  have hp := h.pausing i r hat
  obtain ⟨htickets, hphase?⟩ := hturns.keeps hstart hwait
  -- All that can happen to tickets is that the refresh hands its own back.
  have hcancelled : ∀ k, e.tickets.isCancelled k = x.explorer.tickets.isCancelled k := by
    intro k
    rcases htickets with htickets | ⟨ticket, -, htickets⟩
    · rw [htickets]
    · rw [htickets, RefreshTickets.isCancelled_complete]
  have hnext : e.tickets.next = x.explorer.tickets.next := by
    rcases htickets with htickets | ⟨ticket, -, htickets⟩
    · rw [htickets]
    · rw [htickets, RefreshTickets.next_complete]
  have hpending : ∀ uri k, e.tickets.pending.get? uri = some k →
      x.explorer.tickets.pending.get? uri = some k := by
    intro uri k hk
    rcases htickets with htickets | ⟨ticket, -, htickets⟩
    · exact htickets ▸ hk
    · exact RefreshTickets.get?_of_complete _ r.uri uri ticket (htickets ▸ hk)
  have hstands : ∀ j other, j ≠ i → x.explorer.tickets.Stands other j →
      e.tickets.Stands other j := by
    intro j other hne hj
    rcases htickets with htickets | ⟨ticket, hheld, htickets⟩
    · exact htickets ▸ hj
    · rw [htickets]
      exact hj.complete r.uri (hp.own ticket hheld ▸ hne)
  refine ⟨hsettings ▸ h.delay, ?_, ?_, ?_⟩
  · exact h.ticketed.kept rfl (Nat.le_refl _) List.length_set hnext hpending
      fun k hk => hcancelled k ▸ hk
  · intro j r' hj
    rw [at?_set hat rfl] at hj
    split at hj
    next heq =>
        subst heq
        obtain ⟨p, hp?, rfl⟩ := Option.map_eq_some_iff.mp hj
        obtain ⟨hwait', hstart', hown⟩ := hphase? p hp?
        exact hp.of_wait? rfl rfl hstart' hwait' hown
    next hne =>
        have hj' := h.pausing j r' hj
        refine hj'.kept rfl ?_
        intro k due hphase
        refine ⟨hj'.ahead k due hphase, ?_, ?_⟩
        · rw [hcancelled]
          exact hj'.early k due hphase
        · exact hstands j r'.uri (Ne.symm hne) (hj'.stands k due hphase)
  · refine h.decided.set hat ?_ rfl rfl rfl rfl ?_ hp.edited
    · intro r' hr'
      obtain ⟨p, hp?, rfl⟩ := Option.map_eq_some_iff.mp hr'
      exact (hphase? p hp?).1
    · intro a k due hphase
      rw [hphase] at hwait
      cases hwait

theorem Sound.tick (h : x.Sound d) {time : Nat} (hle : x.now ≤ time)
    (hrests : ∀ i r ticket due, x.at? i = some r → r.phase = .debouncing ticket due →
      x.explorer.tickets.isCancelled ticket = false ∧ x.now < due ∧ time ≤ due) :
    Sound { x with now := time } d where
  delay := h.delay
  ticketed := h.ticketed.kept rfl hle rfl rfl (fun _ _ => id) (fun _ => id)
  pausing j r hj := by
    have hp := h.pausing j r hj
    refine hp.kept rfl ?_
    intro ticket due hphase
    obtain ⟨hkept, -, hdue⟩ := hrests j r ticket due hj hphase
    obtain rfl := hp.own ticket (by rw [hphase]; rfl)
    refine ⟨hdue, ?_, hp.stands ticket due hphase⟩
    intro hcancelled
    rw [hkept] at hcancelled
    cases hcancelled
  decided := by
    refine ⟨h.decided.once, ?_, h.decided.settled⟩
    intro i t hmem
    obtain ⟨hpast, hrest⟩ := h.decided.passed i t hmem
    exact ⟨Nat.le_trans hpast hle, hrest⟩

theorem Sound.moves (h : x.Sound d) (hmoves : Moves x y) (hclear : y.Clear d) : y.Sound d := by
  cases hmoves with
  | idle => exact h
  | edited uri hticket htickets hsettings =>
      obtain rfl := hticket
      exact h.edit hclear rfl rfl (by rw [h.delay]) rfl htickets hsettings
  | dropped hat hphase hcancelled => exact h.drop hat hphase hcancelled
  | passed hat hphase hdue => exact h.pass hat hphase hdue
  | turned hat hwait hstart hturns hsettings => exact h.turn hat hwait hstart hturns hsettings
  | ticked hle hrests => exact h.tick hle hrests
  | elsewhere htickets hsettings =>
      refine ⟨hsettings ▸ h.delay, ?_, ?_, h.decided.once, h.decided.passed, h.decided.settled⟩
      · exact h.ticketed.kept rfl (Nat.le_refl _) rfl (by rw [htickets])
          (fun _ _ hk => htickets ▸ hk) (fun _ hk => htickets ▸ hk)
      · exact fun j r hj => (h.pausing j r hj).congr rfl rfl htickets

end Sound

/-! ### Every run -/

section Run

variable {settings : Settings} {provider : OutlineProvider} {steps : List TypingStep}
  {x y : TypingTraffic} {d : Nat}

theorem Moves.settings_eq (h : Moves x y) : y.explorer.settings = x.explorer.settings := by
  cases h with
  | idle | dropped | passed | ticked => rfl
  | edited uri hticket htickets hsettings => exact hsettings
  | turned hat hwait hstart hturns hsettings => exact hsettings
  | elsewhere htickets hsettings => exact hsettings

/-- A move adds at most one edit, at the time it is made. -/
theorem step_edits (x : TypingTraffic) (st : TypingStep) :
    (x.step st).edits = x.edits ∨ ∃ uri, (x.step st).edits = x.edits ++ [(x.now, uri)] := by
  cases st with
  | edit uri => exact .inr ⟨uri, rfl⟩
  | elsewhere => exact .inl rfl
  | turn | lapse | tick =>
      left
      simp only [step]
      repeat' split
      all_goals rfl

theorem clear_of_step {st : TypingStep} (hclear : (x.step st).Clear d) : x.Clear d := by
  rcases step_edits x st with hedits | ⟨uri, hedits⟩
  · simpa only [Clear, Edited, hedits] using hclear
  · exact hclear.of_concat hedits

theorem sound_start (settings : Settings) (provider : OutlineProvider) :
    (start settings provider).Sound settings.debounce where
  delay := rfl
  ticketed := {
    begun := rfl
    issued := rfl
    past := fun i a uri ha => absurd ha.lt (Nat.not_lt_zero i)
    newest := fun uri k hk => by cases hk
    overtaken := fun k hk => by cases hk }
  pausing i r hi := by cases hi
  decided := {
    once := List.nodup_nil
    passed := fun i t hmem => by cases hmem
    settled := fun i a uri ha => absurd ha.lt (Nat.not_lt_zero i) }

/-- The settings stay what they were at the start, and the waits are in order at every time. -/
theorem sound_run (haccepts : settings.refreshMode.accepts .change)
    (hclear : (run settings provider steps).Clear settings.debounce) :
    (run settings provider steps).explorer.settings = settings ∧
      (run settings provider steps).Sound settings.debounce := by
  induction steps using List.reverseRecOn with
  | nil => exact ⟨rfl, sound_start settings provider⟩
  | append_singleton before st ih =>
      rw [run_append_singleton] at hclear ⊢
      obtain ⟨hsettings, hsound⟩ := ih (clear_of_step hclear)
      have hmoves : Moves (run settings provider before) ((run settings provider before).step st) :=
        moves (by rw [hsettings]; exact haccepts) (fun i r hi => (hsound.pausing i r hi).begun) st
      exact ⟨hmoves.settings_eq.trans hsettings, hsound.moves hmoves hclear⟩

/-! ### Time goes on -/

/-- How many refreshes wait. -/
def waiting (x : TypingTraffic) : Nat :=
  x.refreshes.countP fun r? => (r?.bind (·.phase.wait?)).isSome

/-- A wait is over: the ticket was cancelled, or the time is up. -/
def Over (x : TypingTraffic) (i : Nat) (r : Refresh) (ticket due : Nat) : Prop :=
  x.at? i = some r ∧ r.phase = .debouncing ticket due ∧
    (x.explorer.tickets.isCancelled ticket ∨ due ≤ x.now)

/-- One that no longer waits is one less. -/
theorem waiting_set {i : Nat} {r : Refresh} (hat : x.at? i = some r)
    (hwait : r.phase.wait?.isSome) {v : Option Refresh}
    (hv : (v.bind (·.phase.wait?)).isSome = false)
    (hrefreshes : y.refreshes = x.refreshes.set i v) :
    y.waiting < x.waiting := by
  obtain ⟨hlt, heq⟩ := List.getElem?_eq_some_iff.mp (Option.join_eq_some_iff.mp hat)
  have hmem : 0 < x.waiting :=
    List.countP_pos_iff.mpr ⟨some r, heq ▸ List.getElem_mem hlt, hwait⟩
  have hset : y.waiting = x.waiting - 1 := by
    rw [waiting, hrefreshes, List.countP_set hlt, heq]
    simp [hv, hwait, waiting]
  omega

/-- A refresh whose wait is over takes a turn to notice it. -/
theorem Over.turn {i : Nat} {r : Refresh} {ticket due : Nat} (h : x.Over i r ticket due)
    (s : Surroundings) :
    (x.step (.turn i s)).waiting < x.waiting ∧ (x.step (.turn i s)).edits = x.edits ∧
      (x.step (.turn i s)).now = x.now := by
  obtain ⟨hat, hphase, hover⟩ := h
  have hwait : r.phase.wait?.isSome := by
    rw [hphase]
    rfl
  cases hcancelled : x.explorer.tickets.isCancelled ticket with
  | true =>
      rw [step_turn_cancelled hat hphase hcancelled]
      exact ⟨waiting_set hat hwait rfl rfl, rfl, rfl⟩
  | false =>
      have hdue : due ≤ x.now := hover.resolve_left (by simp [hcancelled])
      rw [step_turn_due hat hphase hcancelled hdue]
      exact ⟨waiting_set hat hwait rfl rfl, rfl, rfl⟩

/-- If no wait is over the clock may go on. -/
theorem mayTick_of_not_over (h : ∀ i r ticket due, ¬ x.Over i r ticket due) :
    x.mayTick (x.now + 1) := by
  simp only [mayTick, Bool.and_eq_true, List.all_eq_true, decide_eq_true_eq]
  refine ⟨Nat.le_succ _, ?_⟩
  intro r? hmem
  obtain ⟨i, hlt, rfl⟩ := List.mem_iff_getElem.mp hmem
  cases hr : x.refreshes[i] with
  | none => rfl
  | some r =>
      cases hwait : r.phase.wait? with
      | none => simp [hwait]
      | some wait =>
          obtain ⟨ticket, due⟩ := wait
          have hat : x.at? i = some r :=
            Option.join_eq_some_iff.mpr (List.getElem?_eq_some_iff.mpr ⟨hlt, hr⟩)
          have hnot := h i r ticket due
          simp only [Over, hat, wait?_eq_some.mp hwait, true_and, not_or, Nat.not_le,
            Bool.not_eq_true] at hnot
          simp only [Option.bind_some, hwait, hnot, Bool.not_false, decide_true, Bool.true_and,
            decide_eq_true_eq]
          exact Nat.succ_le_of_lt hnot.2

/-- A refresh whose wait is over takes a turn, or the clock moves on by one. -/
theorem exists_move_of_clock (s : Surroundings) (x : TypingTraffic) :
    ∃ st, TypingStep.OfClock s st ∧ (x.step st).edits = x.edits ∧
      ((x.step st).now = x.now ∧ (x.step st).waiting < x.waiting ∨ (x.step st).now = x.now + 1) := by
  by_cases hover : ∃ i r ticket due, x.Over i r ticket due
  · obtain ⟨i, r, ticket, due, hover⟩ := hover
    obtain ⟨hless, hedits, hnow⟩ := hover.turn s
    exact ⟨.turn i s, .turn i, hedits, .inl ⟨hnow, hless⟩⟩
  · have hmay := mayTick_of_not_over fun i r ticket due h => hover ⟨i, r, ticket, due, h⟩
    refine ⟨.tick (x.now + 1), .tick _, ?_⟩
    rw [step, if_pos hmay]
    exact ⟨rfl, .inr rfl⟩

/-- Without any further edit the clock gets to every later time. -/
theorem exists_later (s : Surroundings) (x : TypingTraffic) (k : Nat) :
    ∃ more : List TypingStep, (∀ st ∈ more, st.OfClock s) ∧ (more.foldl step x).edits = x.edits ∧
      (more.foldl step x).now = x.now + k :=
  exists_moves_to (exists_move_of_clock s) x (Nat.le_add_right _ k)

/-! ### Which edits lead to an outline -/

/-- The time of an edit, if it is one of the document. -/
def timeOf? (uri : Uri) (edit : Nat × Uri) : Option Nat :=
  if edit.2 = uri then some edit.1 else none

/-- When a document was edited. -/
def editsOf (x : TypingTraffic) (uri : Uri) : List Nat := x.edits.filterMap (timeOf? uri)

theorem timeOf?_eq_some {uri : Uri} {edit : Nat × Uri} {a : Nat} :
    timeOf? uri edit = some a ↔ edit = (a, uri) := by
  obtain ⟨b, other⟩ := edit
  simp only [timeOf?, Option.ite_none_right_eq_some, Option.some.injEq, Prod.mk.injEq]
  exact and_comm

theorem mem_editsAfter {uri : Uri} {i b : Nat} :
    b ∈ (x.edits.drop (i + 1)).filterMap (timeOf? uri) ↔ x.Followed i b uri := by
  rw [List.mem_filterMap]
  simp only [timeOf?_eq_some, exists_eq_right, List.mem_iff_getElem?, List.getElem?_drop]
  constructor
  · rintro ⟨k, hk⟩
    exact ⟨i + 1 + k, by omega, hk⟩
  · rintro ⟨j, hlt, hj⟩
    refine ⟨j - (i + 1), ?_⟩
    rwa [Nat.add_sub_cancel' (Nat.succ_le_of_lt hlt)]

/-- An edit has its place among those of its document, before those that follow it. -/
theorem Edited.exists_editsOf {uri : Uri} {i a : Nat} (h : x.Edited i a uri) :
    ∃ before after, x.editsOf uri = before ++ a :: after ∧
      ∀ b, b ∈ after ↔ x.Followed i b uri := by
  obtain ⟨hlt, heq⟩ := List.getElem?_eq_some_iff.mp h
  refine ⟨(x.edits.take i).filterMap (timeOf? uri), (x.edits.drop (i + 1)).filterMap (timeOf? uri),
    ?_, fun b => mem_editsAfter⟩
  calc x.editsOf uri
      = (x.edits.take i ++ x.edits[i] :: x.edits.drop (i + 1)).filterMap (timeOf? uri) := by
        rw [← List.drop_eq_getElem_cons hlt, List.take_append_drop, editsOf]
    _ = _ := by
        rw [List.filterMap_append, List.filterMap_cons_some (timeOf?_eq_some.mpr heq)]

theorem exists_edited {uri : Uri} {before after : List Nat} {a : Nat}
    (h : x.editsOf uri = before ++ a :: after) :
    ∃ i, x.Edited i a uri ∧ ∀ b, b ∈ after ↔ x.Followed i b uri := by
  obtain ⟨front, rest, hedits, -, hrest⟩ := List.filterMap_eq_append_iff.mp h
  obtain ⟨others, edit, later, hother, -, hedit, hlater⟩ := List.filterMap_eq_cons_iff.mp hrest
  obtain rfl := timeOf?_eq_some.mp hedit
  have hplace : x.edits = (front ++ others) ++ (a, uri) :: later := by
    rw [hedits, hother, List.append_assoc]
  refine ⟨(front ++ others).length, ?_, ?_⟩
  · rw [Edited, hplace, List.getElem?_append_right (Nat.le_refl _), Nat.sub_self]
    rfl
  · intro b
    rw [← mem_editsAfter, hplace, List.drop_length_add_append, List.drop_one, List.tail_cons,
      hlater]

/-- Which edits lead to an outline when those of one document do not come just a delay apart. -/
structure PassesAfterPauses (x : TypingTraffic) (d : Nat) : Prop where
  /-- A refresh waits to the end but once. -/
  once : (x.passed.map (·.1)).Nodup
  /-- Those that have passed did so when the delay was over, and none followed before. -/
  passed : ∀ i t, (i, t) ∈ x.passed →
    ∃ a uri, x.Edited i a uri ∧ t = a + d ∧ ∀ b, x.Followed i b uri → a + d < b
  /-- Once its delay is over, an edit has passed unless one of its document has followed by then. -/
  decided : ∀ i a uri, x.Edited i a uri → a + d < x.now →
    ((i, a + d) ∈ x.passed ↔ ∀ b, x.Followed i b uri → a + d < b)
  /-- When a document is read can be told from its own edits. -/
  apart : ∀ uri, (∀ a ∈ x.editsOf uri, a + d < x.now) → ∀ t,
    (∃ i a, x.Edited i a uri ∧ (i, t) ∈ x.passed) ↔
      ∃ before a after, x.editsOf uri = before ++ a :: after ∧ t = a + d ∧ ∀ b ∈ after, a + d < b
  /-- Nothing keeps the clock from any later time. -/
  goesOn : ∀ (s : Surroundings) (time : Nat), x.now ≤ time →
    ∃ more : List TypingStep, (∀ st ∈ more, st.OfClock s) ∧ (more.foldl step x).edits = x.edits ∧
      (more.foldl step x).now = time

theorem Sound.passed_iff (h : x.Sound d) {uri : Uri} {i a : Nat} (ha : x.Edited i a uri)
    (hpast : a + d < x.now) :
    (i, a + d) ∈ x.passed ↔ ∀ b, x.Followed i b uri → a + d < b := by
  constructor
  · intro hmem
    obtain ⟨-, -, a', other, ha', -, hafter⟩ := h.decided.passed i _ hmem
    obtain ⟨rfl, rfl⟩ := ha.unique ha'
    exact hafter
  · intro hafter
    rcases h.decided.settled i a uri ha with ⟨r, k, due, hat, hphase⟩ | hmem | ⟨b, hb, hle⟩
    · have hp := h.pausing i r hat
      obtain ⟨a', ha'⟩ := hp.edited
      obtain ⟨rfl, rfl⟩ := ha.unique ha'
      have hdue := hp.due k due hphase a ha
      exact absurd (hp.ahead k due hphase) (by omega)
    · exact hmem
    · exact absurd hle (Nat.not_le_of_lt (hafter b hb))

/-- An edit leads to an outline just if no other of its document follows within the delay, and then
exactly after it. -/
theorem edits_pass_after_pauses (haccepts : settings.refreshMode.accepts .change)
    (hclear : (run settings provider steps).Clear settings.debounce) :
    (run settings provider steps).PassesAfterPauses settings.debounce := by
  have hsound := (sound_run haccepts hclear).2
  refine ⟨hsound.decided.once, ?_, ?_, ?_, ?_⟩
  · intro i t hmem
    exact (hsound.decided.passed i t hmem).2.2
  · intro i a uri ha hpast
    exact hsound.passed_iff ha hpast
  · intro uri hpast t
    constructor
    · rintro ⟨i, a, ha, hmem⟩
      obtain ⟨-, -, a', other, ha', rfl, hafter⟩ := hsound.decided.passed i t hmem
      obtain ⟨rfl, rfl⟩ := ha.unique ha'
      obtain ⟨before, after, hedits, hmem_after⟩ := ha.exists_editsOf
      exact ⟨before, a, after, hedits, rfl, fun b hb => hafter b ((hmem_after b).mp hb)⟩
    · rintro ⟨before, a, after, hedits, rfl, hafter⟩
      obtain ⟨i, ha, hmem_after⟩ := exists_edited hedits
      have hmem : a ∈ (run settings provider steps).editsOf uri := by
        rw [hedits]
        exact List.mem_append_right _ List.mem_cons_self
      exact ⟨i, a, ha, (hsound.passed_iff ha (hpast a hmem)).mpr
        fun b hb => hafter b ((hmem_after b).mpr hb)⟩
  · intro s time hle
    obtain ⟨more, hclock, hedits, hnow⟩ :=
      exists_later s (run settings provider steps) (time - (run settings provider steps).now)
    exact ⟨more, hclock, hedits, by rw [hnow, Nat.add_sub_cancel' hle]⟩

/-! ### Two documents -/

def cartFile : Uri := ⟨"file", none, .segments ["cart_test.go"], none, none⟩

def shopFile : Uri := ⟨"file", none, .segments ["shop_test.go"], none, none⟩

/-- A bare machine on which no invocation ends. -/
def quiet : Surroundings :=
  ⟨⟨⟨[], [], ⟨[]⟩⟩, 0, fun _ _ _ => .error .unreadable⟩, 0, fun _ => none⟩

/-- A document is edited at 0, 200 and 900, and another one in between at 100. -/
def twoDocuments : List TypingStep :=
  [.edit cartFile "" none quiet, .tick 100, .edit shopFile "" none quiet, .tick 200,
    .edit cartFile "a" none quiet, .turn 0 quiet, .tick 400, .turn 1 quiet, .tick 500,
    .turn 2 quiet, .tick 900, .edit cartFile "b" none quiet, .tick 1200, .turn 3 quiet,
    .tick 1201]

theorem twoDocuments_edits :
    (run .default (.tool Settings.default.toolPath) twoDocuments).edits =
      [(0, cartFile), (100, shopFile), (200, cartFile), (900, cartFile)] := by
  decide +kernel

theorem twoDocuments_clear :
    (run .default (.tool Settings.default.toolPath) twoDocuments).Clear 300 := by
  intro i j a b uri hlt hi hj hbetween
  rw [Edited, twoDocuments_edits] at hi hj
  have ha := List.mem_of_getElem? hi
  have hb := List.mem_of_getElem? hj
  simp only [List.mem_cons, Prod.mk.injEq, List.not_mem_nil, or_false] at ha hb
  omega

/-- The first edit is followed within the delay; the others pass, each after 300. -/
theorem edits_pass_after_pauses_twoDocuments :
    Settings.default.refreshMode.accepts .change ∧
      (run .default (.tool Settings.default.toolPath) twoDocuments).Clear
        Settings.default.debounce ∧
      (run .default (.tool Settings.default.toolPath) twoDocuments).PassesAfterPauses
        Settings.default.debounce ∧
      (run .default (.tool Settings.default.toolPath) twoDocuments).passed =
        [(1, 400), (2, 500), (3, 1200)] :=
  ⟨rfl, twoDocuments_clear, edits_pass_after_pauses rfl twoDocuments_clear, by decide +kernel⟩

end Run

end TypingTraffic

end SpecExplorer
