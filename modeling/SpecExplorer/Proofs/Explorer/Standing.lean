/-
# Standing in the queue and holding a ticket

Two things stay true whatever moves are made. The queue for the state holds just the refreshes whose
phase says that they wait for it, each of them once, and who is not granted the state keeps its
place before the others. And no ticket is held by two refreshes, while one that is held is either
the current one of its document or has been cancelled. The four ways in which a move can deal with
tickets are listed in `TicketMove`, so that the turns need to be looked at once only.
-/
import Mathlib.Data.List.Nodup
import SpecExplorer.Proofs.Explorer.Refreshes

namespace SpecExplorer

namespace RefreshTraffic

/-! ### Places -/

section Places

variable {x y : RefreshTraffic} {st : RefreshStep} {i j : Nat} {r : Refresh}

theorem join_getElem?_set {α : Type} {l : List (Option α)} {a : α} (h : l[i]?.join = some a)
    (v : Option α) (j : Nat) : (l.set i v)[j]?.join = if i = j then v else l[j]?.join := by
  have hlt : i < l.length := by
    by_contra hge
    rw [List.getElem?_eq_none_iff.mpr (Nat.le_of_not_lt hge)] at h
    cases h
  rw [List.getElem?_set]
  split <;> rfl

theorem getElem?_of_at? (h : x.at? i = some r) : x.refreshes[i]? = some (some r) :=
  Option.join_eq_some_iff.mp h

theorem join_getElem?_concat {α : Type} {l : List (Option α)} {v : Option α} {a : α}
    (h : (l ++ [v])[i]?.join = some a) : l[i]?.join = some a ∨ i = l.length ∧ v = some a := by
  rcases Nat.lt_trichotomy i l.length with hlt | rfl | hgt
  · rw [List.getElem?_append_left hlt] at h
    exact .inl h
  · rw [List.getElem?_concat_length] at h
    exact .inr ⟨rfl, h⟩
  · rw [List.getElem?_eq_none_iff.mpr (by simpa [Nat.succ_le_iff] using hgt)] at h
    cases h

/-- Beginning a refresh leaves the others where they are. -/
theorem at?_begun {uri : Uri} {trigger : RefreshTrigger}
    (h : (x.refreshes ++ [some (.ofTrigger uri trigger)])[i]?.join = some r) :
    x.at? i = some r ∨ i = x.refreshes.length ∧ r = .ofTrigger uri trigger := by
  rcases join_getElem?_concat h with hat | ⟨hi, hr⟩
  · exact .inl hat
  · exact .inr ⟨hi, (Option.some.inj hr).symm⟩

theorem lt_of_at? (h : x.at? i = some r) : i < x.refreshes.length :=
  (List.getElem?_eq_some_iff.mp (getElem?_of_at? h)).1

end Places

/-! ### The queue -/

section Queue

variable {x y : RefreshTraffic} {st : RefreshStep} {i j : Nat} {r : Refresh}
  {queue rest : List StateRequest} {shared? : Option Bool}

/-- The queue holds just the refreshes whose phase says so, and each of them once. -/
structure Queued (x : RefreshTraffic) : Prop where
  waits : ∀ i r shared, x.at? i = some r → r.phase.shared? = some shared →
    .refresh i shared ∈ x.queue
  waiting : ∀ i shared, .refresh i shared ∈ x.queue →
    ∃ r, x.at? i = some r ∧ r.phase.shared? = some shared
  once : (x.queue.filterMap StateRequest.place?).Nodup

theorem mem_places {shared : Bool} (h : .refresh i shared ∈ queue) :
    i ∈ queue.filterMap StateRequest.place? :=
  List.mem_filterMap.mpr ⟨_, h, rfl⟩

theorem exists_of_mem_places (h : i ∈ queue.filterMap StateRequest.place?) :
    ∃ shared, .refresh i shared ∈ queue := by
  obtain ⟨q, hq, hplace⟩ := List.mem_filterMap.mp h
  cases q with
  | refresh j shared =>
      obtain rfl := Option.some.inj hplace
      exact ⟨shared, hq⟩
  | client event => cases hplace

theorem Leaves.sublist (h : Leaves i shared? queue rest) : rest.Sublist queue := by
  cases h with
  | free => exact List.Sublist.refl _
  | granted => exact List.Sublist.append_left (List.sublist_cons_self _ _) _

theorem sublist_of_dropped {α : Type} {p : α → Bool} {l front back : List α} {a : α}
    (hl : ∀ b ∈ l, p b) (ha : ¬ p a) (h : l.Sublist (front ++ a :: back)) :
    l.Sublist (front ++ back) := by
  have hkept := h.filter p
  rw [List.filter_eq_self.mpr hl, List.filter_append, List.filter_cons_of_neg ha,
    ← List.filter_append] at hkept
  exact hkept.trans List.filter_sublist

/-- Those that are not granted the state keep their order. -/
theorem Leaves.ahead (h : Leaves i shared? queue rest) {l : List StateRequest}
    (hl : ∀ q ∈ l, q.place? ≠ some i) (hahead : l.Sublist queue) : l.Sublist rest := by
  cases h with
  | free => exact hahead
  | granted =>
      exact sublist_of_dropped (p := fun q : StateRequest => q.place? ≠ some i)
        (by simpa using hl) (by simp [StateRequest.place?]) hahead

theorem places_middle {front back : List StateRequest} {shared : Bool}
    (h : ((front ++ .refresh i shared :: back).filterMap StateRequest.place?).Nodup) :
    i ∉ front.filterMap StateRequest.place? ++ back.filterMap StateRequest.place? := by
  have hplace : (StateRequest.refresh i shared).place? = some i := rfl
  rw [List.filterMap_append, List.filterMap_cons_some hplace, List.nodup_middle] at h
  exact (List.nodup_cons.mp h).1

/-- Who is granted the state has nobody before who wants to do more than read. -/
theorem Leaves.not_ahead (h : Leaves i shared? queue rest)
    (honce : (queue.filterMap StateRequest.place?).Nodup) (hwaits : shared?.isSome)
    (hne : j ≠ i) {shared : Bool} :
    ¬ [.refresh j false, .refresh i shared].Sublist queue := by
  intro hahead
  cases h with
  | free => cases hwaits
  | @granted front back own hfront hfirst =>
      have hmiddle := places_middle honce
      have hback : i ∉ back.filterMap StateRequest.place? := by
        intro hmem
        exact hmiddle (List.mem_append_right _ hmem)
      obtain ⟨l₁, l₂, heq, hl₁, hl₂⟩ := List.sublist_append_iff.mp hahead
      cases l₁ with
      | nil =>
          obtain rfl : [.refresh j false, .refresh i shared] = l₂ := heq
          rcases List.sublist_cons_iff.mp hl₂ with hl₂ | ⟨l₃, hl₃, -⟩
          · exact hback (mem_places (hl₂.subset (List.mem_cons_of_mem _ List.mem_cons_self)))
          · cases hl₃
            exact hne rfl
      | cons q l₁ =>
          obtain rfl := (List.cons.inj heq).1
          exact Bool.noConfusion (hfront _ (hl₁.subset List.mem_cons_self))

/-- After it has left the queue a refresh no longer stands in it. -/
theorem Queued.not_mem (hqueued : x.Queued) (hat : x.at? i = some r)
    (h : Leaves i r.phase.shared? x.queue rest) (shared : Bool) : .refresh i shared ∉ rest := by
  intro hmem
  have honce := hqueued.once
  generalize hwanted : r.phase.shared? = shared?, hqueue : x.queue = queue at h
  cases h with
  | free =>
      obtain ⟨r', hat', hshared⟩ := hqueued.waiting i shared (hqueue ▸ hmem)
      obtain rfl := Option.some.inj (hat.symm.trans hat')
      rw [hwanted] at hshared
      cases hshared
  | granted =>
      rw [hqueue] at honce
      have hplace := mem_places hmem
      rw [List.filterMap_append] at hplace
      exact places_middle honce hplace

theorem mem_elim_of {phase? : Option RefreshPhase} {q : StateRequest}
    (h : q ∈ phase?.elim [] (StateRequest.of i)) :
    ∃ phase shared, phase? = some phase ∧ phase.shared? = some shared ∧ q = .refresh i shared := by
  cases phase? with
  | none => cases h
  | some phase =>
      obtain ⟨shared, hshared, hq⟩ := Option.map_eq_some_iff.mp (Option.mem_toList.mp h)
      exact ⟨phase, shared, rfl, hshared, hq.symm⟩

theorem nodup_places_elim (i : Nat) (phase? : Option RefreshPhase) :
    ((phase?.elim [] (StateRequest.of i)).filterMap StateRequest.place?).Nodup := by
  cases phase? with
  | none => exact List.nodup_nil
  | some phase =>
      show ((phase.shared?.map (StateRequest.refresh i)).toList.filterMap _).Nodup
      cases phase.shared? with
      | none => exact List.nodup_nil
      | some shared => exact List.nodup_singleton i

theorem Queued.turned (hqueued : x.Queued) (h : Turned x i r y) : y.Queued := by
  obtain ⟨hat, hturns, hleaves⟩ := h
  have hgone := hqueued.not_mem hat hleaves
  constructor
  · intro j r' shared hat' hshared
    rw [at?, join_getElem?_set hat] at hat'
    split at hat'
    next heq =>
        obtain ⟨phase, rfl, rfl⟩ := Option.map_eq_some_iff.mp hat'
        subst heq
        apply List.mem_append_right
        show _ ∈ (phase.shared?.map (StateRequest.refresh i)).toList
        rw [show phase.shared? = some shared from hshared]
        exact List.mem_singleton_self _
    next hne =>
        have hmem := hqueued.waits j r' shared hat' hshared
        have hother : ∀ q ∈ [StateRequest.refresh j shared], q.place? ≠ some i := by
          simp [StateRequest.place?, Ne.symm hne]
        have hahead := hleaves.ahead hother (List.singleton_sublist.mpr hmem)
        exact List.mem_append_left _ (List.singleton_sublist.mp hahead)
  · intro j shared hmem
    show ∃ r', (x.refreshes.set i _)[j]?.join = some r' ∧ _
    rw [join_getElem?_set hat]
    rcases List.mem_append.mp hmem with hmem | hmem
    · have hne : i ≠ j := by
        rintro rfl
        exact hgone shared hmem
      rw [if_neg hne]
      exact hqueued.waiting j shared (hleaves.sublist.subset hmem)
    · obtain ⟨phase, own, rfl, hown, hq⟩ := mem_elim_of hmem
      cases hq
      rw [if_pos rfl]
      exact ⟨_, rfl, hown⟩
  · rw [List.filterMap_append, List.nodup_append']
    refine ⟨hqueued.once.sublist (hleaves.sublist.filterMap _), nodup_places_elim i _, ?_⟩
    intro j hrest hnew
    obtain ⟨shared, hrest⟩ := exists_of_mem_places hrest
    obtain ⟨own, hnew⟩ := exists_of_mem_places hnew
    obtain ⟨phase, own', hphase, hown, hq⟩ := mem_elim_of hnew
    cases hq
    exact hgone shared hrest

theorem Queued.told (hqueued : x.Queued) (event : DocumentEvent) :
    Queued { x with queue := x.queue ++ [.client event] } where
  waits i r shared hat hshared :=
    List.mem_append_left _ (hqueued.waits i r shared hat hshared)
  waiting i shared hmem := by
    rcases List.mem_append.mp hmem with hmem | hmem
    · exact hqueued.waiting i shared hmem
    · cases List.mem_singleton.mp hmem
  once := by
    rw [List.filterMap_append]
    exact (List.append_nil _).symm ▸ hqueued.once

theorem Queued.served (hqueued : x.Queued) {event : DocumentEvent} {back : List StateRequest}
    (hqueue : x.queue = .client event :: back) (e : Explorer) :
    Queued { x with explorer := e, queue := back } where
  waits i r shared hat hshared := by
    have hmem := hqueued.waits i r shared hat hshared
    rw [hqueue] at hmem
    exact (List.mem_cons.mp hmem).resolve_left nofun
  waiting i shared hmem := hqueued.waiting i shared (hqueue ▸ List.mem_cons_of_mem _ hmem)
  once := by
    have honce := hqueued.once
    rw [hqueue] at honce
    exact honce

theorem Queued.begun (hqueued : x.Queued) (uri : Uri) (trigger : RefreshTrigger) :
    Queued { x with
      refreshes := x.refreshes ++ [some (.ofTrigger uri trigger)]
      queue := x.queue ++ [.refresh x.refreshes.length true] } where
  waits i r shared hat hshared := by
    rcases at?_begun hat with hat | ⟨rfl, rfl⟩
    · exact List.mem_append_left _ (hqueued.waits i r shared hat hshared)
    · cases hshared
      exact List.mem_append_right _ (List.mem_singleton_self _)
  waiting i shared hmem := by
    show ∃ r, (x.refreshes ++ [some _])[i]?.join = some r ∧ _
    rcases List.mem_append.mp hmem with hmem | hmem
    · obtain ⟨r, hat, hshared⟩ := hqueued.waiting i shared hmem
      rw [List.getElem?_append_left (lt_of_at? hat)]
      exact ⟨r, hat, hshared⟩
    · cases List.mem_singleton.mp hmem
      rw [List.getElem?_concat_length]
      exact ⟨.ofTrigger uri trigger, rfl, rfl⟩
  once := by
    rw [List.filterMap_append, List.nodup_append']
    refine ⟨hqueued.once, List.nodup_singleton _, ?_⟩
    intro i hmem hnew
    obtain rfl := List.mem_singleton.mp hnew
    obtain ⟨shared, hmem⟩ := exists_of_mem_places hmem
    obtain ⟨r, hat, -⟩ := hqueued.waiting _ shared hmem
    exact absurd (lt_of_at? hat) (Nat.lt_irrefl _)

theorem Queued.moves (hqueued : x.Queued) (h : Moves x st y) : y.Queued := by
  cases h with
  | idle => exact hqueued
  | elsewhere => exact ⟨hqueued.waits, hqueued.waiting, hqueued.once⟩
  | turned hof hstate hturned => exact hqueued.turned hturned
  | told event => exact hqueued.told event
  | served hgranted hqueue => exact hqueued.served hqueue _
  | begun uri trigger => exact hqueued.begun uri trigger

end Queue

/-! ### The tickets -/

section Tickets

variable {x y : RefreshTraffic} {st : RefreshStep} {i j : Nat} {r : Refresh}

/-- The refresh of a document at a place holds a ticket, and its outline has not arrived. -/
def Holds (x : RefreshTraffic) (i : Nat) (uri : Uri) (ticket : Nat) : Prop :=
  ∃ r, x.at? i = some r ∧ r.uri = uri ∧ r.phase.ticket? = some ticket

/-- What one move makes of the tickets, and of who holds them. -/
inductive TicketMove (x y : RefreshTraffic) : Prop
  | kept (htickets : y.explorer.tickets = x.explorer.tickets)
      (hholds : ∀ j other k, y.Holds j other k → x.Holds j other k)
  | scheduled (i : Nat) (uri : Uri)
      (htickets : y.explorer.tickets = (x.explorer.tickets.schedule uri).1)
      (hholds : ∀ j other k, y.Holds j other k →
        x.Holds j other k ∨ j = i ∧ other = uri ∧ k = x.explorer.tickets.next)
  | handedBack (i : Nat) (uri : Uri) (ticket : Nat) (hheld : x.Holds i uri ticket)
      (htickets : y.explorer.tickets = x.explorer.tickets.complete uri ticket)
      (hholds : ∀ j other k, y.Holds j other k → x.Holds j other k ∧ j ≠ i)
  | closed (uri : Uri) (htickets : y.explorer.tickets = x.explorer.tickets.cancel uri)
      (hholds : ∀ j other k, y.Holds j other k → x.Holds j other k)

theorem Turned.ticketMove (h : Turned x i r y) : TicketMove x y := by
  obtain ⟨hat, hturns, hleaves⟩ := h
  rename_i e phase? queue
  -- Who holds a ticket after the turn did so before, unless it is the one that has had the turn.
  have hholds : ∀ j other k, Holds ⟨e, x.refreshes.set i (phase?.map r.toPhase),
      queue ++ phase?.elim [] (StateRequest.of i)⟩ j other k →
      x.Holds j other k ∧ j ≠ i ∨
        j = i ∧ other = r.uri ∧ ∃ p, phase? = some p ∧ p.ticket? = some k := by
    rintro j other k ⟨r', hat', rfl, hticket⟩
    rw [at?, join_getElem?_set hat] at hat'
    split at hat'
    next heq =>
        obtain ⟨p, rfl, rfl⟩ := Option.map_eq_some_iff.mp hat'
        exact .inr ⟨heq.symm, rfl, p, rfl, hticket⟩
    next hne => exact .inl ⟨⟨r', hat', rfl, hticket⟩, Ne.symm hne⟩
  rcases hturns.tickets with ⟨htickets, hticket⟩ | ⟨htickets, hticket⟩ |
    ⟨ticket, hheld, htickets, hticket⟩
  · refine .kept htickets ?_
    intro j other k hholds'
    rcases hholds j other k hholds' with ⟨hbefore, -⟩ | ⟨rfl, rfl, p, hp, hk⟩
    · exact hbefore
    · exact ⟨r, hat, rfl, hticket p hp k hk⟩
  · refine .scheduled i r.uri htickets ?_
    intro j other k hholds'
    rcases hholds j other k hholds' with ⟨hbefore, -⟩ | ⟨rfl, rfl, p, hp, hk⟩
    · exact .inl hbefore
    · exact .inr ⟨rfl, rfl, Option.some.inj (hk.symm.trans (hticket p hp))⟩
  · refine .handedBack i r.uri ticket ⟨r, hat, rfl, hheld⟩ htickets ?_
    intro j other k hholds'
    rcases hholds j other k hholds' with hbefore | ⟨rfl, rfl, p, hp, hk⟩
    · exact hbefore
    · rw [hticket p hp] at hk
      cases hk

theorem Moves.ticketMove (h : Moves x st y) : TicketMove x y := by
  cases h with
  | idle | told | elsewhere => exact .kept rfl fun _ _ _ hholds => hholds
  | turned hof hstate hturned => exact hturned.ticketMove
  | begun uri trigger =>
      refine .kept rfl ?_
      rintro j other k ⟨r, hat, huri, hticket⟩
      rcases at?_begun hat with hat | ⟨-, rfl⟩
      · exact ⟨r, hat, huri, hticket⟩
      · cases hticket
  | @served k s event back hgranted hqueue =>
      cases event with
      | opened | edited => exact .kept rfl fun _ _ _ hholds => hholds
      | closed uri => exact .closed uri rfl fun _ _ _ hholds => hholds

/-- A cancelled ticket stays cancelled. -/
theorem TicketMove.isCancelled (h : TicketMove x y) {k : Nat}
    (hcancelled : x.explorer.tickets.isCancelled k) : y.explorer.tickets.isCancelled k := by
  cases h with
  | kept htickets =>
      rw [htickets]
      exact hcancelled
  | scheduled i uri htickets =>
      rw [htickets]
      exact (RefreshTickets.isCancelled_schedule _ uri k).mpr (.inl hcancelled)
  | handedBack i uri ticket hheld htickets =>
      rw [htickets, RefreshTickets.isCancelled_complete]
      exact hcancelled
  | closed uri htickets =>
      rw [htickets]
      exact (RefreshTickets.isCancelled_cancel _ uri k).mpr (.inl hcancelled)

/-- No ticket is held twice, and one that is held counts for its document or was cancelled. -/
structure Ticketed (x : RefreshTraffic) : Prop where
  sound : x.explorer.tickets.Sound
  given : ∀ i uri k, x.Holds i uri k → k < x.explorer.tickets.next
  own : ∀ i j uri other k, x.Holds i uri k → x.Holds j other k → i = j
  standing : ∀ i uri k, x.Holds i uri k → x.explorer.tickets.Stands uri k

theorem Ticketed.moved (ht : x.Ticketed) (h : TicketMove x y) : y.Ticketed := by
  cases h with
  | kept htickets hholds =>
      refine ⟨htickets ▸ ht.sound, ?_, ?_, ?_⟩
      · intro i uri k hheld
        exact htickets ▸ ht.given i uri k (hholds i uri k hheld)
      · intro i j uri other k hi hj
        exact ht.own i j uri other k (hholds i uri k hi) (hholds j other k hj)
      · intro i uri k hheld
        exact htickets ▸ ht.standing i uri k (hholds i uri k hheld)
  | closed uri htickets hholds =>
      refine ⟨htickets ▸ ht.sound.cancel uri, ?_, ?_, ?_⟩
      · intro i other k hheld
        rw [htickets, RefreshTickets.next_cancel]
        exact ht.given i other k (hholds i other k hheld)
      · intro i j other other' k hi hj
        exact ht.own i j other other' k (hholds i other k hi) (hholds j other' k hj)
      · intro i other k hheld
        exact htickets ▸ (ht.standing i other k (hholds i other k hheld)).cancel uri
  | scheduled i uri htickets hholds =>
      refine ⟨htickets ▸ ht.sound.schedule uri, ?_, ?_, ?_⟩
      · intro j other k hheld
        rw [htickets, RefreshTickets.next_schedule]
        rcases hholds j other k hheld with hbefore | ⟨-, -, rfl⟩
        · exact Nat.lt_succ_of_lt (ht.given j other k hbefore)
        · exact Nat.lt_succ_self _
      · intro j j' other other' k hj hj'
        rcases hholds j other k hj with hj | ⟨rfl, -, rfl⟩
        · rcases hholds j' other' k hj' with hj' | ⟨-, -, rfl⟩
          · exact ht.own j j' other other' k hj hj'
          · exact absurd (ht.given j other _ hj) (Nat.lt_irrefl _)
        · rcases hholds j' other' _ hj' with hj' | ⟨rfl, -, -⟩
          · exact absurd (ht.given j' other' _ hj') (Nat.lt_irrefl _)
          · rfl
      · intro j other k hheld
        rcases hholds j other k hheld with hbefore | ⟨-, rfl, rfl⟩
        · exact htickets ▸ (ht.standing j other k hbefore).schedule uri
        · refine .inl ?_
          rw [htickets, RefreshTickets.get?_schedule, if_pos rfl]
  | handedBack i uri ticket hheld htickets hholds =>
      refine ⟨htickets ▸ ht.sound.complete uri ticket, ?_, ?_, ?_⟩
      · intro j other k hj
        rw [htickets, RefreshTickets.next_complete]
        exact ht.given j other k (hholds j other k hj).1
      · intro j j' other other' k hj hj'
        exact ht.own j j' other other' k (hholds j other k hj).1 (hholds j' other' k hj').1
      · intro j other k hj
        obtain ⟨hbefore, hne⟩ := hholds j other k hj
        have hk : k ≠ ticket := by
          rintro rfl
          exact hne (ht.own j i other uri k hbefore hheld)
        exact htickets ▸ (ht.standing j other k hbefore).complete uri hk

end Tickets

end RefreshTraffic

end SpecExplorer
