/-
# What becomes of a ticket

A ticket counts until it is handed back or a newer one, or the client, takes its place. Handing a
ticket back may come late, or twice, or after the ticket was cancelled, and then it does nothing. So
every ticket ever issued is in one of three states at any time: it is the current one of its
document, which is the last one issued there, or it was cancelled, or it was handed back while it
was current. The last two are for good, and the tickets of one document do not depend on what is
done with those of another.
-/
import Mathlib.Data.List.Induction
import Mathlib.Logic.ExistsUnique
import SpecExplorer.Explorer.Tickets

namespace SpecExplorer

namespace RefreshTickets

/-! ### The operations -/

/-- Tickets that were given out are smaller than the next one. -/
structure Sound (t : RefreshTickets) : Prop where
  pending : ∀ uri ticket, t.pending.get? uri = some ticket → ticket < t.next
  cancelled : ∀ ticket, t.isCancelled ticket → ticket < t.next

section

variable (t : RefreshTickets) (uri other : Uri) (ticket k : Nat)

theorem next_cancel : (t.cancel uri).next = t.next := by
  unfold cancel
  split <;> rfl

theorem get?_cancel :
    (t.cancel uri).pending.get? other = if other = uri then none else t.pending.get? other := by
  unfold cancel
  split
  next hpending =>
      split
      next heq => rw [heq, hpending]
      next => rfl
  next => exact Table.get?_erase t.pending uri other

theorem isCancelled_cancel :
    (t.cancel uri).isCancelled k ↔ t.isCancelled k ∨ t.pending.get? uri = some k := by
  unfold cancel
  split
  next hpending => simp [hpending]
  next ticket hpending =>
      simp only [isCancelled, List.contains_iff_mem, List.mem_append, List.mem_singleton, hpending,
        Option.some.injEq]
      exact or_congr_right eq_comm

theorem get?_schedule :
    (t.schedule uri).1.pending.get? other =
      if other = uri then some t.next else t.pending.get? other := by
  show (((t.cancel uri).pending.put uri (t.cancel uri).next).get? other) = _
  rw [Table.get?_put, get?_cancel, next_cancel]
  split <;> rfl

theorem isCancelled_schedule :
    (t.schedule uri).1.isCancelled k ↔ t.isCancelled k ∨ t.pending.get? uri = some k :=
  isCancelled_cancel t uri k

theorem next_schedule : (t.schedule uri).1.next = t.next + 1 :=
  congrArg (· + 1) (next_cancel t uri)

theorem schedule_snd : (t.schedule uri).2 = t.next := next_cancel t uri

theorem next_complete : (t.complete uri ticket).next = t.next := by
  unfold complete
  split <;> rfl

theorem isCancelled_complete : (t.complete uri ticket).isCancelled k = t.isCancelled k := by
  unfold complete
  split <;> rfl

/-- Handing a ticket back takes no other ticket away. -/
theorem get?_complete {k : Nat} (hne : k ≠ ticket) :
    (t.complete uri ticket).pending.get? other = some k ↔ t.pending.get? other = some k := by
  unfold complete
  split
  next hpending =>
      show (t.pending.erase uri).get? other = some k ↔ _
      rw [Table.get?_erase]
      split
      next heq => simp [heq, hpending, hne.symm]
      next => rfl
  next => rfl

theorem get?_complete_of_ne (hne : other ≠ uri) :
    (t.complete uri ticket).pending.get? other = t.pending.get? other := by
  unfold complete
  split
  next => exact (Table.get?_erase t.pending uri other).trans (if_neg hne)
  next => rfl

theorem get?_of_complete {k : Nat}
    (h : (t.complete uri ticket).pending.get? other = some k) : t.pending.get? other = some k := by
  unfold complete at h
  split at h
  next =>
      have herase : (t.pending.erase uri).get? other = some k := h
      rw [Table.get?_erase] at herase
      split at herase
      · cases herase
      · exact herase
  next => exact h

end

section Sound

variable {t : RefreshTickets} (h : t.Sound)
include h

theorem Sound.cancel (uri : Uri) : (t.cancel uri).Sound where
  pending other ticket hget := by
    rw [get?_cancel] at hget
    rw [next_cancel]
    split at hget
    · cases hget
    · exact h.pending other ticket hget
  cancelled ticket hcancelled := by
    rw [next_cancel]
    rcases (isCancelled_cancel t uri ticket).mp hcancelled with hbefore | hpending
    · exact h.cancelled ticket hbefore
    · exact h.pending uri ticket hpending

theorem Sound.schedule (uri : Uri) : (t.schedule uri).1.Sound where
  pending other ticket hget := by
    rw [get?_schedule] at hget
    rw [next_schedule]
    split at hget
    · obtain rfl := Option.some.inj hget
      exact Nat.lt_succ_self _
    · exact Nat.lt_succ_of_lt (h.pending other ticket hget)
  cancelled ticket hcancelled := by
    rw [next_schedule]
    exact Nat.lt_succ_of_lt (next_cancel t uri ▸ (h.cancel uri).cancelled ticket hcancelled)

theorem Sound.complete (uri : Uri) (ticket : Nat) : (t.complete uri ticket).Sound where
  pending other k hget := by
    rw [next_complete]
    exact h.pending other k (get?_of_complete t uri other ticket hget)
  cancelled k hcancelled := by
    rw [isCancelled_complete] at hcancelled
    rw [next_complete]
    exact h.cancelled k hcancelled

end Sound

/-- A ticket is the current one of a document, or was cancelled. -/
def Stands (t : RefreshTickets) (uri : Uri) (k : Nat) : Prop :=
  t.pending.get? uri = some k ∨ t.isCancelled k

section Stands

variable {t : RefreshTickets} {other : Uri} {k : Nat} (h : t.Stands other k) (uri : Uri)
include h

theorem Stands.cancel : (t.cancel uri).Stands other k := by
  rw [Stands, isCancelled_cancel, get?_cancel]
  rcases h with hpending | hcancelled
  · split
    next heq => exact .inr (.inr (heq ▸ hpending))
    next => exact .inl hpending
  · exact .inr (.inl hcancelled)

theorem Stands.schedule : (t.schedule uri).1.Stands other k := by
  rw [Stands, isCancelled_schedule, get?_schedule]
  rcases h with hpending | hcancelled
  · split
    next heq => exact .inr (.inr (heq ▸ hpending))
    next => exact .inl hpending
  · exact .inr (.inl hcancelled)

theorem Stands.complete {ticket : Nat} (hne : k ≠ ticket) :
    (t.complete uri ticket).Stands other k := by
  rw [Stands, isCancelled_complete, get?_complete t uri other ticket hne]
  exact h

end Stands

/-! ### Tickets that count -/

/-- A ticket is pending for one document at most, and then it is not cancelled. -/
structure Regular (t : RefreshTickets) : Prop where
  sound : t.Sound
  keys : t.pending.keys.Nodup
  own : ∀ uri other k, t.pending.get? uri = some k → t.pending.get? other = some k → uri = other
  kept : ∀ uri k, t.pending.get? uri = some k → ¬ t.isCancelled k

section Regular

variable {t : RefreshTickets} (h : t.Regular)
include h

theorem Regular.isCancelled_cancelAll (k : Nat) :
    t.cancelAll.isCancelled k ↔ t.isCancelled k ∨ ∃ uri, t.pending.get? uri = some k := by
  simp only [isCancelled, cancelAll, List.contains_iff_mem, List.mem_append, List.mem_map,
    Table.get?_eq_some_iff_mem h.keys, Prod.exists, exists_eq_right]

theorem Regular.cancel (uri : Uri) : (t.cancel uri).Regular where
  sound := h.sound.cancel uri
  keys := by
    unfold RefreshTickets.cancel
    split
    · exact h.keys
    · exact Table.nodup_keys_erase h.keys uri
  own a b k ha hb := by
    rw [get?_cancel] at ha hb
    split at ha
    · cases ha
    · split at hb
      · cases hb
      · exact h.own a b k ha hb
  kept a k ha := by
    rw [get?_cancel] at ha
    split at ha
    next => cases ha
    next hne =>
        rw [isCancelled_cancel]
        rintro (hcancelled | hpending)
        · exact h.kept a k ha hcancelled
        · exact hne (h.own a uri k ha hpending)

/-- The ticket that is issued next is not in use. -/
theorem Regular.next_fresh (uri : Uri) : t.pending.get? uri ≠ some t.next :=
  fun hpending => Nat.lt_irrefl _ (h.sound.pending uri _ hpending)

theorem Regular.schedule (uri : Uri) : (t.schedule uri).1.Regular where
  sound := h.sound.schedule uri
  keys := Table.nodup_keys_put (h.cancel uri).keys uri _
  own a b k ha hb := by
    rw [get?_schedule] at ha hb
    split at ha
    next haeq =>
        obtain rfl := Option.some.inj ha
        split at hb
        next hbeq => exact haeq.trans hbeq.symm
        next => exact absurd hb (h.next_fresh b)
    next =>
        split at hb
        next =>
            obtain rfl := Option.some.inj hb
            exact absurd ha (h.next_fresh a)
        next => exact h.own a b k ha hb
  kept a k ha := by
    rw [get?_schedule] at ha
    rw [isCancelled_schedule]
    rintro (hcancelled | hpending)
    · split at ha
      next =>
          obtain rfl := Option.some.inj ha
          exact Nat.lt_irrefl _ (h.sound.cancelled _ hcancelled)
      next => exact h.kept a k ha hcancelled
    · split at ha
      next =>
          obtain rfl := Option.some.inj ha
          exact h.next_fresh uri hpending
      next hne => exact hne (h.own a uri k ha hpending)

theorem Regular.complete (uri : Uri) (ticket : Nat) : (t.complete uri ticket).Regular where
  sound := h.sound.complete uri ticket
  keys := by
    unfold RefreshTickets.complete
    split
    · exact Table.nodup_keys_erase h.keys uri
    · exact h.keys
  own a b k ha hb :=
    h.own a b k (get?_of_complete t uri a ticket ha) (get?_of_complete t uri b ticket hb)
  kept a k ha := by
    rw [isCancelled_complete]
    exact h.kept a k (get?_of_complete t uri a ticket ha)

theorem Regular.cancelAll : t.cancelAll.Regular where
  sound := {
    pending := by intro uri k hpending; cases hpending
    cancelled := by
      intro k hcancelled
      rcases (h.isCancelled_cancelAll k).mp hcancelled with hbefore | ⟨uri, hpending⟩
      · exact h.sound.cancelled k hbefore
      · exact h.sound.pending uri k hpending }
  keys := List.nodup_nil
  own := by intro uri other k hpending; cases hpending
  kept := by intro uri k hpending; cases hpending

end Regular

theorem regular_empty : empty.Regular where
  sound := ⟨fun uri k hpending => (by cases hpending), fun k hcancelled => (by cases hcancelled)⟩
  keys := List.nodup_nil
  own := by intro uri other k hpending; cases hpending
  kept := by intro uri k hpending; cases hpending

end RefreshTickets

/-! ### Histories -/

/-- What is done with tickets. -/
inductive TicketStep where
  | schedule (uri : Uri)
  /-- A ticket is handed back, maybe late, and maybe not for the first time. -/
  | complete (uri : Uri) (ticket : Nat)
  | cancel (uri : Uri)
  | cancelAll

/-- A step that deals with the tickets of one document. -/
def TicketStep.IsAbout (uri : Uri) : TicketStep → Prop
  | .schedule other | .complete other _ | .cancel other => other = uri
  | .cancelAll => False

/-- A step that takes a ticket from its document. -/
def TicketStep.Ends (uri : Uri) (k : Nat) : TicketStep → Prop
  | .schedule other | .cancel other => other = uri
  | .complete other ticket => other = uri ∧ ticket = k
  | .cancelAll => True

/-- What may become of a ticket. -/
inductive TicketFate where
  /-- It is pending for its document, and not cancelled. -/
  | current
  | cancelled
  /-- It was handed back while it was current. -/
  | completed

namespace RefreshTickets

def step (t : RefreshTickets) : TicketStep → RefreshTickets
  | .schedule uri => (t.schedule uri).1
  | .complete uri ticket => t.complete uri ticket
  | .cancel uri => t.cancel uri
  | .cancelAll => t.cancelAll

def run (steps : List TicketStep) : RefreshTickets := steps.foldl step empty

theorem run_append_singleton (steps : List TicketStep) (st : TicketStep) :
    run (steps ++ [st]) = (run steps).step st :=
  List.foldl_append

/-- A ticket was issued for a document. -/
def Issued (steps : List TicketStep) (uri : Uri) (k : Nat) : Prop :=
  ∃ past, past ++ [.schedule uri] <+: steps ∧ ((run past).schedule uri).2 = k

/-- A ticket was issued for a document, and none was since. -/
def LastIssued (steps : List TicketStep) (uri : Uri) (k : Nat) : Prop :=
  ∃ past rest, steps = past ++ .schedule uri :: rest ∧ ((run past).schedule uri).2 = k ∧
    .schedule uri ∉ rest

/-- The current ticket of a document was handed back. -/
def Completed (steps : List TicketStep) (uri : Uri) (k : Nat) : Prop :=
  ∃ past, past ++ [.complete uri k] <+: steps ∧ (run past).pending.get? uri = some k

/-- What has become of a ticket of a document. -/
def Meets (steps : List TicketStep) (uri : Uri) (k : Nat) : TicketFate → Prop
  | .current => (run steps).pending.get? uri = some k ∧ ¬ (run steps).isCancelled k
  | .cancelled => (run steps).isCancelled k
  | .completed => Completed steps uri k

/-! ### One more step -/

section Step

variable {steps : List TicketStep} {st : TicketStep} {uri other : Uri} {k k' : Nat}

theorem regular_run (steps : List TicketStep) : (run steps).Regular := by
  induction steps using List.reverseRecOn with
  | nil => exact regular_empty
  | append_singleton past st ih =>
      rw [run_append_singleton]
      cases st with
      | schedule uri => exact ih.schedule uri
      | complete uri ticket => exact ih.complete uri ticket
      | cancel uri => exact ih.cancel uri
      | cancelAll => exact ih.cancelAll

theorem issued_append_singleton :
    Issued (steps ++ [st]) uri k ↔
      Issued steps uri k ∨ st = .schedule uri ∧ (run steps).next = k := by
  simp only [Issued, List.prefix_concat_iff, List.append_singleton_inj, or_and_right, exists_or,
    schedule_snd]
  rw [or_comm]
  refine or_congr_right ⟨?_, ?_⟩
  · rintro ⟨past, ⟨rfl, hst⟩, hk⟩
    exact ⟨hst.symm, hk⟩
  · rintro ⟨rfl, hk⟩
    exact ⟨steps, ⟨rfl, rfl⟩, hk⟩

theorem completed_append_singleton :
    Completed (steps ++ [st]) uri k ↔
      Completed steps uri k ∨ st = .complete uri k ∧ (run steps).pending.get? uri = some k := by
  simp only [Completed, List.prefix_concat_iff, List.append_singleton_inj, or_and_right, exists_or]
  rw [or_comm]
  refine or_congr_right ⟨?_, ?_⟩
  · rintro ⟨past, ⟨rfl, hst⟩, hpending⟩
    exact ⟨hst.symm, hpending⟩
  · rintro ⟨rfl, hpending⟩
    exact ⟨steps, ⟨rfl, rfl⟩, hpending⟩

/-- The ticket that is pending for a document after one more step. -/
theorem get?_step :
    (run (steps ++ [st])).pending.get? uri = some k ↔
      (run steps).pending.get? uri = some k ∧ ¬ st.Ends uri k ∨
        st = .schedule uri ∧ (run steps).next = k := by
  rw [run_append_singleton]
  cases st with
  | schedule other =>
      rw [step, get?_schedule]
      by_cases heq : uri = other
      · simp [TicketStep.Ends, heq]
      · simp [TicketStep.Ends, heq, Ne.symm heq]
  | complete other ticket =>
      simp only [step, complete, TicketStep.Ends, reduceCtorEq, false_and, or_false]
      split
      next hpending =>
          show (Table.erase _ other).get? uri = some k ↔ _
          rw [Table.get?_erase]
          by_cases heq : uri = other
          · subst heq
            simp [hpending]
          · simp [heq, Ne.symm heq]
      next hother =>
          refine ⟨fun hpending => ⟨hpending, ?_⟩, And.left⟩
          rintro ⟨rfl, rfl⟩
          exact hother hpending
  | cancel other =>
      rw [step, get?_cancel]
      by_cases heq : uri = other
      · simp [TicketStep.Ends, heq]
      · simp [TicketStep.Ends, heq, Ne.symm heq]
  | cancelAll => simp [step, cancelAll, TicketStep.Ends]

/-- Which tickets are cancelled after one more step. -/
theorem isCancelled_step :
    (run (steps ++ [st])).isCancelled k ↔ (run steps).isCancelled k ∨
      ∃ uri, (run steps).pending.get? uri = some k ∧
        (st = .schedule uri ∨ st = .cancel uri ∨ st = .cancelAll) := by
  rw [run_append_singleton]
  cases st with
  | schedule other =>
      rw [step, isCancelled_schedule]
      simp
  | complete other ticket =>
      rw [step, isCancelled_complete]
      simp
  | cancel other =>
      rw [step, isCancelled_cancel]
      simp
  | cancelAll =>
      rw [step, (regular_run steps).isCancelled_cancelAll]
      simp

theorem next_step (steps : List TicketStep) (st : TicketStep) :
    (run steps).next ≤ (run (steps ++ [st])).next ∧
      ∀ uri, st = .schedule uri → (run (steps ++ [st])).next = (run steps).next + 1 := by
  rw [run_append_singleton]
  cases st with
  | schedule uri =>
      rw [step, next_schedule]
      exact ⟨Nat.le_succ _, fun _ _ => rfl⟩
  | complete uri ticket => exact ⟨Nat.le_of_eq (next_complete _ uri ticket).symm, nofun⟩
  | cancel uri => exact ⟨Nat.le_of_eq (next_cancel _ uri).symm, nofun⟩
  | cancelAll => exact ⟨Nat.le_refl _, nofun⟩

end Step

/-! ### Whole histories -/

section History

variable {steps : List TicketStep} {uri other : Uri} {k k' : Nat}

theorem Issued.lt (h : Issued steps uri k) : k < (run steps).next := by
  induction steps using List.reverseRecOn with
  | nil =>
      obtain ⟨past, hpast, -⟩ := h
      simp at hpast
  | append_singleton past st ih =>
      obtain ⟨hle, hnew⟩ := next_step past st
      rcases issued_append_singleton.mp h with hbefore | ⟨hst, rfl⟩
      · exact Nat.lt_of_lt_of_le (ih hbefore) hle
      · rw [hnew uri hst]
        exact Nat.lt_succ_self _

/-- No ticket is issued twice. -/
theorem Issued.own (h : Issued steps uri k) (h' : Issued steps other k) : uri = other := by
  induction steps using List.reverseRecOn with
  | nil =>
      obtain ⟨past, hpast, -⟩ := h
      simp at hpast
  | append_singleton past st ih =>
      rcases issued_append_singleton.mp h with hbefore | ⟨hst, rfl⟩
      · rcases issued_append_singleton.mp h' with hbefore' | ⟨-, rfl⟩
        · exact ih hbefore hbefore'
        · exact absurd hbefore.lt (Nat.lt_irrefl _)
      · rcases issued_append_singleton.mp h' with hbefore' | ⟨hst', -⟩
        · exact absurd hbefore'.lt (Nat.lt_irrefl _)
        · exact TicketStep.schedule.inj (hst.symm.trans hst')

theorem LastIssued.issued (h : LastIssued steps uri k) : Issued steps uri k := by
  obtain ⟨past, rest, rfl, hk, -⟩ := h
  exact ⟨past, ⟨rest, by simp⟩, hk⟩

/-- The ticket that is pending for a document is the last one that was issued for it. -/
theorem lastIssued_of_pending (h : (run steps).pending.get? uri = some k) :
    LastIssued steps uri k := by
  induction steps using List.reverseRecOn with
  | nil => cases h
  | append_singleton past st ih =>
      rcases get?_step.mp h with ⟨hbefore, hends⟩ | ⟨rfl, hk⟩
      · obtain ⟨before, rest, rfl, hk, hrest⟩ := ih hbefore
        refine ⟨before, rest ++ [st], by simp, hk, ?_⟩
        rw [List.mem_append, List.mem_singleton]
        rintro (hmem | rfl)
        · exact hrest hmem
        · exact hends rfl
      · exact ⟨past, [], rfl, (schedule_snd _ uri).trans hk, List.not_mem_nil⟩

/-- No ticket gets lost. -/
theorem Issued.accounted (h : Issued steps uri k) :
    (run steps).pending.get? uri = some k ∨ (run steps).isCancelled k ∨
      Completed steps uri k := by
  induction steps using List.reverseRecOn with
  | nil =>
      obtain ⟨past, hpast, -⟩ := h
      simp at hpast
  | append_singleton past st ih =>
      rw [get?_step, isCancelled_step, completed_append_singleton]
      rcases issued_append_singleton.mp h with hbefore | hissued
      · rcases ih hbefore with hpending | hcancelled | hcompleted
        · by_cases hends : st.Ends uri k
          · refine .inr ?_
            cases st with
            | schedule other =>
                obtain rfl : other = uri := hends
                exact .inl (.inr ⟨other, hpending, .inl rfl⟩)
            | complete other ticket =>
                obtain ⟨rfl, rfl⟩ := hends
                exact .inr (.inr ⟨rfl, hpending⟩)
            | cancel other =>
                obtain rfl : other = uri := hends
                exact .inl (.inr ⟨other, hpending, .inr (.inl rfl)⟩)
            | cancelAll => exact .inl (.inr ⟨uri, hpending, .inr (.inr rfl)⟩)
          · exact .inl (.inl ⟨hpending, hends⟩)
        · exact .inr (.inl (.inl hcancelled))
        · exact .inr (.inr (.inl hcompleted))
      · exact .inl (.inr hissued)

/-- A ticket that was handed back in time has been issued, is no longer pending and is never
cancelled. -/
theorem Completed.settled (h : Completed steps uri k) :
    Issued steps uri k ∧ (run steps).pending.get? uri ≠ some k ∧ ¬ (run steps).isCancelled k := by
  induction steps using List.reverseRecOn with
  | nil =>
      obtain ⟨past, hpast, -⟩ := h
      simp at hpast
  | append_singleton past st ih =>
      rw [issued_append_singleton, Ne, get?_step, isCancelled_step]
      rcases completed_append_singleton.mp h with hbefore | ⟨rfl, hpending⟩
      · obtain ⟨hissued, hnot, hkept⟩ := ih hbefore
        refine ⟨.inl hissued, ?_, ?_⟩
        · rintro (⟨hpending, -⟩ | ⟨-, hnext⟩)
          · exact hnot hpending
          · exact Nat.ne_of_lt hissued.lt hnext.symm
        · rintro (hcancelled | ⟨other, hpending, -⟩)
          · exact hkept hcancelled
          · obtain rfl := (lastIssued_of_pending hpending).issued.own hissued
            exact hnot hpending
      · refine ⟨.inl (lastIssued_of_pending hpending).issued, ?_, ?_⟩
        · rintro (⟨-, hends⟩ | ⟨hst, -⟩)
          · exact hends ⟨rfl, rfl⟩
          · cases hst
        · rintro (hcancelled | ⟨other, -, hst⟩)
          · exact (regular_run past).kept uri k hpending hcancelled
          · simp at hst

theorem isCancelled_append {more : List TicketStep} (h : (run steps).isCancelled k) :
    (run (steps ++ more)).isCancelled k := by
  induction more using List.reverseRecOn with
  | nil => rwa [List.append_nil]
  | append_singleton past st ih =>
      rw [← List.append_assoc, isCancelled_step]
      exact .inl ih

end History

/-! ### One state at a time -/

/-- The state of every ticket of a history. -/
structure Accounted (steps : List TicketStep) : Prop where
  /-- A ticket is issued once, for one document. -/
  own : ∀ uri other k, Issued steps uri k → Issued steps other k → uri = other
  /-- Each ticket is in exactly one state. -/
  one : ∀ uri k, Issued steps uri k → ∃! fate, Meets steps uri k fate
  /-- A document has one current ticket at most, the last one that was issued for it. -/
  single : ∀ uri k k', Meets steps uri k .current → Meets steps uri k' .current → k = k'
  latest : ∀ uri k, Meets steps uri k .current → LastIssued steps uri k
  /-- To be cancelled or completed is for good. -/
  lasting : ∀ uri k fate more, Meets steps uri k fate → fate ≠ .current →
    Meets (steps ++ more) uri k fate
  /-- What is done with the tickets of one document leaves those of another where they are. -/
  apart : ∀ uri other k st, Issued steps uri k → other ≠ uri → st.IsAbout other →
    ∀ fate, Meets (steps ++ [st]) uri k fate ↔ Meets steps uri k fate

section

variable {steps : List TicketStep} {uri other : Uri} {k : Nat}

theorem existsUnique_meets (h : Issued steps uri k) : ∃! fate, Meets steps uri k fate := by
  have hkept := (regular_run steps).kept uri k
  rcases h.accounted with hpending | hcancelled | hcompleted
  · refine ⟨.current, ⟨hpending, hkept hpending⟩, ?_⟩
    rintro (_ | _ | _) hmeets
    · rfl
    · exact absurd hmeets (hkept hpending)
    · exact absurd hpending hmeets.settled.2.1
  · refine ⟨.cancelled, hcancelled, ?_⟩
    rintro (_ | _ | _) hmeets
    · exact absurd hcancelled hmeets.2
    · rfl
    · exact absurd hcancelled hmeets.settled.2.2
  · refine ⟨.completed, hcompleted, ?_⟩
    rintro (_ | _ | _) hmeets
    · exact absurd hmeets.1 hcompleted.settled.2.1
    · exact absurd hmeets hcompleted.settled.2.2
    · rfl

theorem meets_append {fate : TicketFate} {more : List TicketStep} (h : Meets steps uri k fate)
    (hfate : fate ≠ .current) : Meets (steps ++ more) uri k fate := by
  cases fate with
  | current => exact absurd rfl hfate
  | cancelled => exact isCancelled_append h
  | completed =>
      obtain ⟨past, hpast, hpending⟩ := h
      exact ⟨past, hpast.trans (List.prefix_append steps more), hpending⟩

/-- A step that is about another document takes no ticket of this one. -/
theorem not_ends_of_isAbout {st : TicketStep} (habout : st.IsAbout other) (hne : other ≠ uri) :
    ¬ st.Ends uri k := by
  cases st with
  | schedule | cancel =>
      rintro rfl
      exact hne habout.symm
  | complete =>
      rintro ⟨rfl, -⟩
      exact hne habout.symm
  | cancelAll => cases habout

theorem meets_step_of_isAbout (hissued : Issued steps uri k) {st : TicketStep} (hne : other ≠ uri)
    (habout : st.IsAbout other) (fate : TicketFate) :
    Meets (steps ++ [st]) uri k fate ↔ Meets steps uri k fate := by
  have hissued' : Issued (steps ++ [st]) uri k := issued_append_singleton.mpr (.inl hissued)
  -- Each state is kept, and since there is just one before and after, none is won.
  have hkeeps : ∀ fate, Meets steps uri k fate → Meets (steps ++ [st]) uri k fate := by
    intro fate hmeets
    cases fate with
    | current =>
        have hpending : (run (steps ++ [st])).pending.get? uri = some k :=
          get?_step.mpr (.inl ⟨hmeets.1, not_ends_of_isAbout habout hne⟩)
        exact ⟨hpending, (regular_run _).kept uri k hpending⟩
    | cancelled | completed => exact meets_append hmeets nofun
  refine ⟨fun hafter => ?_, hkeeps fate⟩
  obtain ⟨before, hbefore, -⟩ := existsUnique_meets hissued
  obtain rfl := (existsUnique_meets hissued').unique hafter (hkeeps before hbefore)
  exact hbefore

end

/-- Whatever is done with tickets, and however late and often they are handed back, each one that
was issued is current, cancelled or completed, and the current one of a document is its last. -/
theorem every_ticket_is_accounted_for (steps : List TicketStep) : Accounted steps where
  own _ _ _ h h' := h.own h'
  one _ _ h := existsUnique_meets h
  single _ _ _ h h' := Option.some.inj (h.1.symm.trans h'.1)
  latest _ _ h := lastIssued_of_pending h.1
  lasting _ _ _ _ h hfate := meets_append h hfate
  apart _ _ _ _ hissued hne habout := meets_step_of_isAbout hissued hne habout

end RefreshTickets

end SpecExplorer
