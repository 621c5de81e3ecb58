/-
# Outlines in succession

Refreshes of one document overtake each other while they wait for time, for outlines and for the
state, and yet its tree never goes back to an older text. A ticket counts until its outline arrives;
up to then a newer refresh or the closing of the document cancels it, and a cancelled one is
dropped. From the moment at which an outline has arrived in time its refresh stands in the queue,
and no other refresh of the document holds a ticket that counts. Whatever is begun after that has
still to read the text, and stands behind it when it asks to. So the invariant is about the refresh
that stands there with its outline: every other one of the document is before its reading, and
behind in the queue if it waits for that, or it is dropped.
-/
import SpecExplorer.Proofs.Explorer.Standing
import SpecExplorer.Proofs.Tree.Merged

namespace SpecExplorer

namespace RefreshTraffic

/-! ### Behind an outline that stands in the queue -/

section Behind

variable {x y : RefreshTraffic} {st : RefreshStep} {i j : Nat} {r : Refresh}

/-- Where another refresh of the document, at `j`, may be while that at `i` stands in the queue with
its outline. -/
inductive Behind (x : RefreshTraffic) (i j : Nat) : RefreshPhase → Prop
  | start : Behind x i j .start
  | debouncing {ticket due : Nat} : Behind x i j (.debouncing ticket due)
  | reading {ticket : Nat}
      (hahead : [StateRequest.refresh i false, .refresh j true].Sublist x.queue) :
      Behind x i j (.reading ticket)
  | dropped {phase : RefreshPhase} {ticket : Nat} (hheld : phase.ticket? = some ticket)
      (hcancelled : x.explorer.tickets.isCancelled ticket) : Behind x i j phase
  | relighting : Behind x i j .relighting
  | offering {path : FilePath} : Behind x i j (.offering path)

/-- The other refreshes of a document are behind the one with an outline to apply. -/
def Spaced (x : RefreshTraffic) : Prop :=
  ∀ i j r r' o, i ≠ j → x.at? i = some r → r.phase = .applying o → x.at? j = some r' →
    r'.uri = r.uri → Behind x i j r'.phase

theorem Behind.moved {phase : RefreshPhase} (h : Behind x i j phase)
    (hcancelled : ∀ k, x.explorer.tickets.isCancelled k → y.explorer.tickets.isCancelled k)
    (hahead : [StateRequest.refresh i false, .refresh j true].Sublist x.queue →
      [StateRequest.refresh i false, .refresh j true].Sublist y.queue) :
    Behind y i j phase := by
  cases h with
  | start => exact .start
  | debouncing => exact .debouncing
  | reading hbefore => exact .reading (hahead hbefore)
  | dropped hheld hdropped => exact .dropped hheld (hcancelled _ hdropped)
  | relighting => exact .relighting
  | offering => exact .offering

/-- A refresh that is behind stays behind with its own turn. -/
theorem Behind.turn {e : Explorer} {uri : Uri} {phase p : RefreshPhase}
    {queue : List StateRequest} (h : Behind x i j phase) (hne : i ≠ j)
    (honce : (x.queue.filterMap StateRequest.place?).Nodup)
    (hturns : Turns x.explorer uri phase e (some p))
    (hleaves : Leaves j phase.shared? x.queue queue) (hfirst : StateRequest.refresh i false ∈ queue)
    (refreshes : List (Option Refresh)) :
    Behind ⟨e, refreshes, queue ++ StateRequest.of j p⟩ i j p := by
  cases hturns with
  | scheduled | waited => exact .debouncing
  | lapsed =>
      have hlast := List.Sublist.refl [StateRequest.refresh j true]
      exact .reading ((List.singleton_sublist.mpr hfirst).append hlast)
  | read =>
      cases h with
      | reading hahead => exact absurd hahead (hleaves.not_ahead honce rfl hne)
      | dropped hheld hcancelled => exact .dropped hheld hcancelled
  | outlined hdocuments htickets =>
      cases h with
      | dropped hheld hcancelled =>
          refine .dropped hheld ?_
          rw [htickets]
          exact hcancelled
  | arrived hanswer hkept =>
      cases h with
      | dropped hheld hcancelled =>
          obtain rfl := Option.some.inj hheld
          rw [hkept] at hcancelled
          cases hcancelled
  | failed => exact .offering
  | applied hdocuments htickets hphase =>
      obtain rfl := hphase p rfl
      exact .relighting

/-- When an outline arrives in time, no other refresh of its document can be ahead. -/
theorem behind_of_arrived (hspaced : x.Spaced) (hticketed : x.Ticketed) {r' : Refresh}
    {ticket : Nat} {call : OutlineCall} (hne : i ≠ j) (hi : x.at? i = some r)
    (hphase : r.phase = .outlining ticket call)
    (hkept : x.explorer.tickets.isCancelled ticket = false) (hj : x.at? j = some r')
    (huri : r'.uri = r.uri) : Behind x i j r'.phase := by
  have hheld : x.Holds i r.uri ticket := ⟨r, hi, rfl, by rw [hphase]; rfl⟩
  have hcurrent : x.explorer.tickets.pending.get? r.uri = some ticket := by
    refine (hticketed.standing i r.uri ticket hheld).resolve_right ?_
    rw [hkept]
    exact Bool.false_ne_true
  have hdropped : ∀ k, r'.phase.ticket? = some k → x.explorer.tickets.isCancelled k := by
    intro k hk
    have hother : x.Holds j r.uri k := ⟨r', hj, huri, hk⟩
    refine (hticketed.standing j r.uri k hother).resolve_left ?_
    intro hpending
    obtain rfl := Option.some.inj (hcurrent.symm.trans hpending)
    exact hne (hticketed.own i j r.uri r.uri _ hheld hother)
  obtain ⟨uri, trigger, phase⟩ := r'
  cases phase with
  | start => exact .start
  | debouncing => exact .debouncing
  | reading k | outlining k => exact .dropped rfl (hdropped k rfl)
  | relighting => exact .relighting
  | offering => exact .offering
  | applying o =>
      have hbehind := hspaced j i _ r o hne.symm hj rfl hi huri.symm
      rw [hphase] at hbehind
      cases hbehind with
      | dropped hheld hcancelled =>
          obtain rfl := Option.some.inj hheld
          rw [hkept] at hcancelled
          cases hcancelled

theorem Spaced.turned {a : Nat} (hspaced : x.Spaced) (hqueued : x.Queued)
    (hticketed : x.Ticketed) (h : Turned x a r y) : y.Spaced := by
  have hcancelled := fun k => h.ticketMove.isCancelled (k := k)
  obtain ⟨hat, hturns, hleaves⟩ := h
  rename_i e phase? queue
  intro i j ri rj o hne hi hphase hj huri
  rw [at?, join_getElem?_set hat] at hi hj
  by_cases hai : a = i
  · -- The outline of the refresh at `i` has just arrived.
    subst hai
    rw [if_pos rfl] at hi
    rw [if_neg hne] at hj
    obtain ⟨p, rfl, rfl⟩ := Option.map_eq_some_iff.mp hi
    obtain rfl : p = .applying o := hphase
    obtain ⟨ticket, call, made, hbefore, -, hkept, -⟩ := hturns.of_applying
    have hbehind := behind_of_arrived hspaced hticketed hne hat hbefore hkept hj huri
    refine hbehind.moved hcancelled fun hahead => ?_
    rw [hbefore] at hleaves
    cases hleaves
    exact hahead.trans (List.sublist_append_left _ _)
  · rw [if_neg hai] at hi
    split at hj
    next haj =>
        subst haj
        obtain ⟨p, rfl, rfl⟩ := Option.map_eq_some_iff.mp hj
        have hwaits := hqueued.waits i ri false hi (by rw [hphase]; rfl)
        have hother : ∀ q ∈ [StateRequest.refresh i false], q.place? ≠ some a := by
          simp [StateRequest.place?, Ne.symm hai]
        have hfirst := hleaves.ahead hother (List.singleton_sublist.mpr hwaits)
        exact (hspaced i a ri r o hne hi hphase hat huri).turn hne hqueued.once hturns hleaves
          (List.singleton_sublist.mp hfirst) _
    next haj =>
        have hothers : ∀ q ∈ [StateRequest.refresh i false, .refresh j true],
            q.place? ≠ some a := by
          simp [StateRequest.place?, Ne.symm hai, Ne.symm haj]
        refine (hspaced i j ri rj o hne hi hphase hj huri).moved hcancelled fun hahead => ?_
        exact (hleaves.ahead hothers hahead).trans (List.sublist_append_left _ _)

theorem Spaced.moves (hspaced : x.Spaced) (hqueued : x.Queued) (hticketed : x.Ticketed)
    (h : Moves x st y) : y.Spaced := by
  have hcancelled := fun k => h.ticketMove.isCancelled (k := k)
  cases h with
  | idle => exact hspaced
  | turned hof hstate hturned => exact hspaced.turned hqueued hticketed hturned
  | elsewhere other =>
      intro i j r r' o hne hi hphase hj huri
      exact (hspaced i j r r' o hne hi hphase hj huri).moved hcancelled id
  | told event =>
      intro i j r r' o hne hi hphase hj huri
      refine (hspaced i j r r' o hne hi hphase hj huri).moved hcancelled fun hahead => ?_
      exact hahead.trans (List.sublist_append_left _ _)
  | @served k s event back hgranted hqueue =>
      intro i j r r' o hne hi hphase hj huri
      refine (hspaced i j r r' o hne hi hphase hj huri).moved hcancelled fun hahead => ?_
      rw [hqueue] at hahead
      rcases List.sublist_cons_iff.mp hahead with hback | ⟨l, hl, -⟩
      · exact hback
      · cases hl
  | begun uri trigger =>
      intro i j r r' o hne hi hphase hj huri
      rcases at?_begun hi with hi | ⟨-, rfl⟩
      · rcases at?_begun hj with hj | ⟨-, rfl⟩
        · refine (hspaced i j r r' o hne hi hphase hj huri).moved hcancelled fun hahead => ?_
          exact hahead.trans (List.sublist_append_left _ _)
        · exact .start
      · cases hphase

/-- What holds of the refreshes at any time. -/
structure Sound (x : RefreshTraffic) : Prop where
  queued : x.Queued
  ticketed : x.Ticketed
  spaced : x.Spaced

theorem Sound.moves (h : x.Sound) (hmoves : Moves x st y) : y.Sound where
  queued := h.queued.moves hmoves
  ticketed := h.ticketed.moved hmoves.ticketMove
  spaced := h.spaced.moves h.queued h.ticketed hmoves

theorem at?_start (settings : Settings) (provider : OutlineProvider) (i : Nat) :
    (start settings provider).at? i = none := rfl

theorem not_holds_start (settings : Settings) (provider : OutlineProvider) (i : Nat) (uri : Uri)
    (ticket : Nat) : ¬ (start settings provider).Holds i uri ticket := by
  rintro ⟨r, hat, -⟩
  rw [at?_start] at hat
  cases hat

theorem sound_start (settings : Settings) (provider : OutlineProvider) :
    (start settings provider).Sound := by
  have hnone := not_holds_start settings provider
  refine ⟨⟨?_, ?_, List.nodup_nil⟩, ⟨⟨?_, ?_⟩, ?_, ?_, ?_⟩, ?_⟩
  · intro i r shared hat
    rw [at?_start] at hat
    cases hat
  · intro i shared hmem
    cases hmem
  · intro uri ticket hpending
    cases hpending
  · intro ticket hcancelled
    cases hcancelled
  · intro i uri k hheld
    exact absurd hheld (hnone i uri k)
  · intro i j uri other k hheld
    exact absurd hheld (hnone i uri k)
  · intro i uri k hheld
    exact absurd hheld (hnone i uri k)
  · intro i j r r' o hne hat
    rw [at?_start] at hat
    cases hat

end Behind

/-! ### The course of one refresh -/

section Course

variable {x y : RefreshTraffic} {st : RefreshStep} {i : Nat}

/-- A refresh stands where it stood, or has had a turn. -/
theorem Moves.place (h : Moves x st y) {r? : Option Refresh} (hi : x.refreshes[i]? = some r?) :
    y.refreshes[i]? = some r? ∨ ∃ r phase?, r? = some r ∧
      Turns x.explorer r.uri r.phase y.explorer phase? ∧
      y.refreshes[i]? = some (phase?.map r.toPhase) := by
  have hlt := (List.getElem?_eq_some_iff.mp hi).1
  cases h with
  | idle | told | served | elsewhere => exact .inl hi
  | begun => exact .inl ((List.getElem?_append_left hlt).trans hi)
  | @turned _ a r _ hof hstate hturned =>
      obtain ⟨hat, hturns, hleaves⟩ := hturned
      by_cases hai : a = i
      · subst hai
        rw [getElem?_of_at? hat] at hi
        refine .inr ⟨r, _, (Option.some.inj hi).symm, hturns, ?_⟩
        exact List.getElem?_set_self hlt
      · exact .inl ((List.getElem?_set_ne hai).trans hi)

/-- A refresh was there before, or has just been begun, or has had a turn, with the state granted
to it if it waited for that. -/
theorem Moves.before (h : Moves x st y) {r' : Refresh} (hi : y.at? i = some r') :
    x.at? i = some r' ∨ r'.phase = .start ∨ ∃ r, x.at? i = some r ∧ r'.uri = r.uri ∧
      Turns x.explorer r.uri r.phase y.explorer (some r'.phase) ∧
      (r.phase.shared?.isSome → x.HasState st i r) := by
  cases h with
  | idle | told | served | elsewhere => exact .inl hi
  | begun uri trigger =>
      rcases at?_begun hi with hi | ⟨-, rfl⟩
      · exact .inl hi
      · exact .inr (.inl rfl)
  | @turned _ a r _ hof hstate hturned =>
      obtain ⟨hat, hturns, hleaves⟩ := hturned
      rw [at?, join_getElem?_set hat] at hi
      split at hi
      next hai =>
          subst hai
          obtain ⟨p, rfl, rfl⟩ := Option.map_eq_some_iff.mp hi
          exact .inr (.inr ⟨r, hat, rfl, hturns, hstate⟩)
      next => exact .inl hi

/-- The refresh at a place has ended, or its ticket was cancelled before its outline has arrived. -/
def Dropped (x : RefreshTraffic) (i : Nat) : Prop :=
  ∃ r?, x.refreshes[i]? = some r? ∧ ∀ r, r? = some r →
    ∃ k, r.phase.ticket? = some k ∧ x.explorer.tickets.isCancelled k

theorem Holds.dropped {uri : Uri} {ticket : Nat} (h : x.Holds i uri ticket)
    (hcancelled : x.explorer.tickets.isCancelled ticket) : x.Dropped i := by
  obtain ⟨r, hat, -, hticket⟩ := h
  refine ⟨some r, getElem?_of_at? hat, ?_⟩
  rintro _ ⟨⟩
  exact ⟨ticket, hticket, hcancelled⟩

theorem Moves.dropped (h : Moves x st y) (hdropped : x.Dropped i) : y.Dropped i := by
  obtain ⟨r?, hi, hheld⟩ := hdropped
  rcases h.place hi with hi' | ⟨r, phase?, rfl, hturns, hi'⟩
  · refine ⟨r?, hi', ?_⟩
    intro r hr
    obtain ⟨k, hk, hcancelled⟩ := hheld r hr
    exact ⟨k, hk, h.ticketMove.isCancelled hcancelled⟩
  · refine ⟨_, hi', ?_⟩
    intro r' hr'
    obtain ⟨p, hp, rfl⟩ := Option.map_eq_some_iff.mp hr'
    obtain ⟨k, hk, hcancelled⟩ := hheld r rfl
    exact ⟨k, hturns.ticket_of_isCancelled hk hcancelled p hp,
      h.ticketMove.isCancelled hcancelled⟩

theorem Dropped.not_applying (h : x.Dropped i) {r : Refresh} (hi : x.at? i = some r)
    (o : Outline) : r.phase ≠ .applying o := by
  intro hphase
  obtain ⟨r?, hi', hheld⟩ := h
  rw [getElem?_of_at? hi] at hi'
  obtain ⟨k, hk, -⟩ := hheld r (Option.some.inj hi').symm
  rw [hphase] at hk
  cases hk

/-- The outline of the refresh at a place has arrived, or the refresh has ended. -/
def Settled (x : RefreshTraffic) (i : Nat) : Prop :=
  ∃ r?, x.refreshes[i]? = some r? ∧ ∀ r, r? = some r → r.phase.ticket? = none ∧ r.phase ≠ .start

theorem Moves.settled (h : Moves x st y) (hsettled : x.Settled i) : y.Settled i := by
  obtain ⟨r?, hi, hnone⟩ := hsettled
  rcases h.place hi with hi' | ⟨r, phase?, rfl, hturns, hi'⟩
  · exact ⟨r?, hi', hnone⟩
  · refine ⟨_, hi', ?_⟩
    intro r' hr'
    obtain ⟨p, hp, rfl⟩ := Option.map_eq_some_iff.mp hr'
    exact hturns.ticket_eq_none (hnone r rfl).1 (hnone r rfl).2 p hp

theorem settled_of_applying {r : Refresh} {o : Outline} (hi : x.at? i = some r)
    (hphase : r.phase = .applying o) : x.Settled i := by
  refine ⟨some r, getElem?_of_at? hi, ?_⟩
  rintro _ ⟨⟩
  rw [hphase]
  exact ⟨rfl, nofun⟩

theorem Settled.not_holds (h : x.Settled i) (uri : Uri) (ticket : Nat) :
    ¬ x.Holds i uri ticket := by
  rintro ⟨r, hi, -, hheld⟩
  obtain ⟨r?, hi', hnone⟩ := h
  rw [getElem?_of_at? hi] at hi'
  rw [(hnone r (Option.some.inj hi').symm).1] at hheld
  cases hheld

/-- A refresh applies its outline in one turn. -/
theorem Turned.of_applying {r r' : Refresh} {o : Outline} (h : Turned x i r y)
    (hphase : r.phase = .applying o) (hi : y.at? i = some r') : r'.phase = .relighting := by
  obtain ⟨hat, hturns, hleaves⟩ := h
  rw [at?, join_getElem?_set hat, if_pos rfl] at hi
  obtain ⟨p, rfl, rfl⟩ := Option.map_eq_some_iff.mp hi
  rw [hphase] at hturns
  cases hturns with
  | applied hdocuments htickets hrelighting => exact hrelighting p rfl

/-- And with that turn it is merged into the tree of the document. -/
theorem Turned.documents {r : Refresh} {o : Outline} (h : Turned x i r y)
    (hphase : r.phase = .applying o) :
    y.explorer.documents = (x.explorer.applyOutline r.uri o).1.documents := by
  obtain ⟨hat, hturns, hleaves⟩ := h
  rw [hphase] at hturns
  cases hturns with
  | ended _ _ hother => exact absurd rfl (hother o)
  | handedBack hheld => cases hheld
  | applied hdocuments => exact hdocuments

/-- A turn of a refresh that has no outline to apply changes no document. -/
theorem Moves.documents (h : Moves x st y) (hof : x.TurnOf i st)
    (hphase : ∀ r o, x.at? i = some r → r.phase ≠ .applying o) :
    y.explorer.documents = x.explorer.documents := by
  cases h with
  | idle | begun | told => rfl
  | elsewhere => cases hof
  | served hgranted =>
      obtain ⟨shared, hgranted'⟩ := hof
      cases hgranted.symm.trans hgranted'
  | turned hof' hstate hturned =>
      obtain rfl := hof.eq hof'
      obtain ⟨hat, hturns, hleaves⟩ := hturned
      exact hturns.documents fun o => hphase _ o hat

end Course

/-! ### Moments of a history -/

section History

variable (settings : Settings) (provider : OutlineProvider) (steps : List RefreshStep)

/-- The refreshes after the first moves of a history. -/
def moment (n : Nat) : RefreshTraffic := run settings provider (steps.take n)

/-- At a moment, the refresh of a document at a place has the state, and the document has a text,
which it reads. -/
def Reads (n i : Nat) (uri : Uri) (text : String) : Prop :=
  ∃ st r ticket doc, steps[n]? = some st ∧ (moment settings provider steps n).HasState st i r ∧
    r.uri = uri ∧ r.phase = .reading ticket ∧
    (moment settings provider steps n).explorer.document? uri = some doc ∧ doc.text = text

/-- At a moment, the refresh of a document at a place has the state to apply its outline. -/
def Applies (n i : Nat) (uri : Uri) (o : Outline) : Prop :=
  ∃ st r, steps[n]? = some st ∧ (moment settings provider steps n).HasState st i r ∧
    r.uri = uri ∧ r.phase = .applying o

/-- The outline that a refresh applies has arrived for a text that it has read before. -/
structure MadeFrom (i : Nat) (uri : Uri) (o : Outline) (applied read : Nat) (text : String) :
    Prop where
  reads : Reads settings provider steps read i uri text
  arrived : ∃ n r ticket call made, read < n ∧ n < applied ∧
    (moment settings provider steps n).at? i = some r ∧ r.uri = uri ∧
    r.phase = .outlining ticket call ∧ call.request = .ofText uri.filePath text ∧
    call.phase = .answered (.ok made) ∧ made.outline = o

/-- The refresh of a document at a place has read the text, and what is made of it is not applied
yet. -/
def Busy (n i : Nat) (uri : Uri) : Prop :=
  ∃ r, (moment settings provider steps n).at? i = some r ∧ r.uri = uri ∧
    ((∃ ticket call, r.phase = .outlining ticket call) ∨ ∃ o, r.phase = .applying o)

/-- And so it has been since a moment. -/
def BusySince (read n i : Nat) (uri : Uri) : Prop :=
  ∀ c, read < c → c ≤ n → Busy settings provider steps c i uri

variable {settings provider steps} {n m i j read : Nat} {st : RefreshStep} {uri : Uri}
  {r : Refresh} {o o' : Outline}

theorem BusySince.succ (h : BusySince settings provider steps read n i uri)
    (hnow : Busy settings provider steps (n + 1) i uri) :
    BusySince settings provider steps read (n + 1) i uri := by
  intro c hc hle
  rcases Nat.le_succ_iff.mp hle with hle | rfl
  · exact h c hc hle
  · exact hnow

theorem busySince_self (n i : Nat) (uri : Uri) :
    BusySince settings provider steps n n i uri := by
  intro c hc hle
  exact absurd (Nat.lt_of_lt_of_le hc hle) (Nat.lt_irrefl n)

theorem moment_succ (h : steps[n]? = some st) :
    moment settings provider steps (n + 1) = (moment settings provider steps n).step st := by
  rw [moment, List.take_add_one, h]
  exact run_append_singleton settings provider _ st

theorem moment_succ_of_none (h : steps[n]? = none) :
    moment settings provider steps (n + 1) = moment settings provider steps n := by
  rw [moment, List.take_add_one, h]
  exact congrArg (run settings provider) (List.append_nil _)

theorem exists_moves_moment (n : Nat) :
    ∃ st, Moves (moment settings provider steps n) st (moment settings provider steps (n + 1)) := by
  cases hst : steps[n]? with
  | none =>
      rw [moment_succ_of_none hst]
      exact ⟨.elsewhere (.start settings provider), .idle⟩
  | some st =>
      rw [moment_succ hst]
      exact ⟨st, moves _ st⟩

/-- What every move keeps lasts. -/
theorem later {P : RefreshTraffic → Prop} (hP : ∀ x st y, Moves x st y → P x → P y)
    (hle : n ≤ m) (h : P (moment settings provider steps n)) :
    P (moment settings provider steps m) := by
  induction hle with
  | refl => exact h
  | step hle ih =>
      obtain ⟨st, hmoves⟩ := exists_moves_moment _
      exact hP _ st _ hmoves ih

theorem sound_moment (n : Nat) : (moment settings provider steps n).Sound :=
  later (fun _ _ _ hmoves h => h.moves hmoves) (Nat.zero_le n) (sound_start settings provider)

/-- A text that is being outlined was read at some moment, and has been under way since. -/
theorem exists_reads {ticket : Nat} {call : OutlineCall}
    (hi : (moment settings provider steps n).at? i = some r)
    (hphase : r.phase = .outlining ticket call) :
    ∃ read text, read < n ∧ Reads settings provider steps read i r.uri text ∧
      call.request = .ofText r.uri.filePath text ∧
      BusySince settings provider steps read n i r.uri := by
  induction n generalizing r call with
  | zero => cases hi
  | succ n ih =>
      have hnow : Busy settings provider steps (n + 1) i r.uri :=
        ⟨r, hi, rfl, .inl ⟨ticket, call, hphase⟩⟩
      -- The request was under way before, and has only gone on.
      have hgoOn : ∀ r₀ call₀, (moment settings provider steps n).at? i = some r₀ →
          r₀.phase = .outlining ticket call₀ → r.uri = r₀.uri → call.request = call₀.request →
          ∃ read text, read < n + 1 ∧ Reads settings provider steps read i r.uri text ∧
            call.request = .ofText r.uri.filePath text ∧
            BusySince settings provider steps read (n + 1) i r.uri := by
        intro r₀ call₀ hi₀ hphase₀ huri hrequest
        obtain ⟨read, text, hlt, hreads, hrequest₀, hbusy⟩ := ih hi₀ hphase₀
        rw [← huri] at hreads hrequest₀ hbusy
        exact ⟨read, text, Nat.lt_succ_of_lt hlt, hreads, hrequest.trans hrequest₀,
          hbusy.succ hnow⟩
      cases hst : steps[n]? with
      | none =>
          rw [moment_succ_of_none hst] at hi
          exact hgoOn r call hi hphase rfl rfl
      | some st =>
          rw [moment_succ hst] at hi
          rcases (moves _ st).before hi with hi₀ | hstart | ⟨r₀, hi₀, huri, hturns, hstate⟩
          · exact hgoOn r call hi₀ hphase rfl rfl
          · rw [hphase] at hstart
            cases hstart
          · rw [hphase] at hturns
            rcases hturns.of_outlining with ⟨hreading, doc, hopen, hrequest⟩ |
              ⟨call₀, hphase₀, hrequest⟩
            · have hhas := hstate (by rw [hreading]; rfl)
              rw [← huri] at hopen hrequest
              exact ⟨n, doc.text, Nat.lt_succ_self n,
                ⟨st, r₀, ticket, doc, hst, hhas, huri.symm, hreading, hopen, rfl⟩, hrequest,
                (busySince_self n i r.uri).succ hnow⟩
            · exact hgoOn r₀ call₀ hi₀ hphase₀ huri hrequest

/-- An outline that is to be applied has arrived for a text that was read. -/
theorem exists_madeFrom (hi : (moment settings provider steps n).at? i = some r)
    (hphase : r.phase = .applying o) :
    ∃ read text, read < n ∧ MadeFrom settings provider steps i r.uri o n read text ∧
      BusySince settings provider steps read n i r.uri := by
  induction n generalizing r with
  | zero => cases hi
  | succ n ih =>
      have hnow : Busy settings provider steps (n + 1) i r.uri :=
        ⟨r, hi, rfl, .inr ⟨o, hphase⟩⟩
      -- The outline had arrived before, and the refresh has only waited.
      have hgoOn : (moment settings provider steps n).at? i = some r →
          ∃ read text, read < n + 1 ∧
            MadeFrom settings provider steps i r.uri o (n + 1) read text ∧
            BusySince settings provider steps read (n + 1) i r.uri := by
        intro hi₀
        obtain ⟨read, text, hlt, ⟨hreads, a, q, ticket, call, made, hra, han, harrived⟩, hbusy⟩ :=
          ih hi₀ hphase
        exact ⟨read, text, Nat.lt_succ_of_lt hlt,
          ⟨hreads, a, q, ticket, call, made, hra, Nat.lt_succ_of_lt han, harrived⟩,
          hbusy.succ hnow⟩
      cases hst : steps[n]? with
      | none =>
          rw [moment_succ_of_none hst] at hi
          exact hgoOn hi
      | some st =>
          rw [moment_succ hst] at hi
          rcases (moves _ st).before hi with hi₀ | hstart | ⟨r₀, hi₀, huri, hturns, -⟩
          · exact hgoOn hi₀
          · rw [hphase] at hstart
            cases hstart
          · rw [hphase] at hturns
            obtain ⟨ticket, call, made, hphase₀, hanswer, -, rfl⟩ := hturns.of_applying
            obtain ⟨read, text, hlt, hreads, hrequest, hbusy⟩ := exists_reads hi₀ hphase₀
            rw [← huri] at hreads hrequest hbusy
            exact ⟨read, text, Nat.lt_succ_of_lt hlt,
              ⟨hreads, n, r₀, ticket, call, made, hlt, Nat.lt_succ_self n, hi₀, huri.symm,
                hphase₀, hrequest, hanswer, rfl⟩,
              hbusy.succ hnow⟩

/-- A refresh that has had its turn to apply an outline is through with it. -/
theorem Applies.not_busy (h : Applies settings provider steps n i uri o) :
    ¬ Busy settings provider steps (n + 1) i uri := by
  obtain ⟨st, r, hst, hstate, -, hphase⟩ := h
  rintro ⟨r', hi', -, hbusy⟩
  rw [moment_succ hst] at hi'
  have hrelighting := hstate.turned.of_applying hphase hi'
  rw [hrelighting] at hbusy
  rcases hbusy with ⟨ticket, call, hcall⟩ | ⟨o', ho'⟩
  · cases hcall
  · cases ho'

/-- A refresh whose ticket is cancelled while it waits for its outline never applies one. -/
theorem not_applying_of_cancelled {ticket : Nat}
    (hheld : (moment settings provider steps n).Holds i uri ticket)
    (hcancelled : (moment settings provider steps n).explorer.tickets.isCancelled ticket)
    (hi : (moment settings provider steps m).at? i = some r) : r.phase ≠ .applying o := by
  intro hphase
  rcases Nat.le_total n m with hle | hle
  · have hdropped := hheld.dropped hcancelled
    have hlater := later (fun _ _ _ hmoves hd => Moves.dropped hmoves hd) hle hdropped
    exact hlater.not_applying hi o hphase
  · have hsettled := settled_of_applying hi hphase
    have hlater := later (fun _ _ _ hmoves hs => Moves.settled hmoves hs) hle hsettled
    exact hlater.not_holds uri ticket hheld

/-- While an outline is applied, no other refresh of its document that will apply one has read its
text. -/
theorem Applies.not_busy_other (h : Applies settings provider steps n i uri o)
    (h' : Applies settings provider steps m j uri o') (hne : i ≠ j) :
    ¬ Busy settings provider steps n j uri := by
  obtain ⟨st, r, hst, hstate, rfl, hphase⟩ := h
  obtain ⟨st', r', hst', hstate', -, hphase'⟩ := h'
  rintro ⟨q, hj, huri, hbusy⟩
  have hbehind := (sound_moment n).spaced i j r q o hne hstate.at_place hphase hj huri
  rcases hbusy with ⟨ticket, call, hcall⟩ | ⟨o₁, ho₁⟩
  · rw [hcall] at hbehind
    cases hbehind with
    | dropped hheld hcancelled =>
        rw [← hcall] at hheld
        exact not_applying_of_cancelled ⟨q, hj, rfl, hheld⟩ hcancelled hstate'.at_place hphase'
  · rw [ho₁] at hbehind
    cases hbehind with
    | dropped hheld => cases hheld

/-- The document is read for a later outline after the one before was applied. -/
theorem Applies.lt_read (h : Applies settings provider steps n i uri o)
    (h' : Applies settings provider steps m j uri o') (hlt : n < m) {text : String}
    (hreads : Reads settings provider steps read j uri text)
    (hbusy : BusySince settings provider steps read m j uri) : n < read := by
  by_contra hle
  have hne : i ≠ j := by
    rintro rfl
    exact h.not_busy (hbusy (n + 1) (by omega) hlt)
  rcases Nat.lt_or_eq_of_le (Nat.le_of_not_lt hle) with hbefore | rfl
  · exact h.not_busy_other h' hne (hbusy n hbefore (Nat.le_of_lt hlt))
  · obtain ⟨st, r, hst, hstate, -⟩ := h
    obtain ⟨st', r', -, -, hst', hstate', -⟩ := hreads
    obtain rfl := Option.some.inj (hst.symm.trans hst')
    exact hne (hstate.turnOf.eq hstate'.turnOf)

/-- What is applied is merged into the tree of the document, if that is still open. -/
theorem Applies.documents (h : Applies settings provider steps n i uri o) :
    (moment settings provider steps (n + 1)).explorer.documents =
      ((moment settings provider steps n).explorer.applyOutline uri o).1.documents := by
  obtain ⟨st, r, hst, hstate, rfl, hphase⟩ := h
  rw [moment_succ hst]
  exact hstate.turned.documents hphase

end History

section Every

variable (settings : Settings) (provider : OutlineProvider) (steps : List RefreshStep)

/-- How the outlines of documents follow one another in a history. -/
structure InSuccession : Prop where
  /-- A refresh whose ticket is cancelled before its outline has arrived changes no tree. -/
  dropped : ∀ n i uri ticket, (moment settings provider steps n).Holds i uri ticket →
    (moment settings provider steps n).explorer.tickets.isCancelled ticket →
    ∀ m st, steps[m]? = some st → (moment settings provider steps m).TurnOf i st →
      (moment settings provider steps (m + 1)).explorer.documents =
        (moment settings provider steps m).explorer.documents
  /-- What a refresh applies is merged into the tree, and was made from a text that the document had
  before. -/
  applied : ∀ n i uri o, Applies settings provider steps n i uri o →
    (moment settings provider steps (n + 1)).explorer.documents =
        ((moment settings provider steps n).explorer.applyOutline uri o).1.documents ∧
      ∃ read text, read < n ∧ MadeFrom settings provider steps i uri o n read text
  /-- The text of an outline that is applied later was read later, and only after the one before had
  been applied. -/
  ordered : ∀ n m i j uri o o', Applies settings provider steps n i uri o →
    Applies settings provider steps m j uri o' → n < m →
    ∃ read text read' text', MadeFrom settings provider steps i uri o n read text ∧
      MadeFrom settings provider steps j uri o' m read' text' ∧
      read < n ∧ n < read' ∧ read' < m

/-- However refreshes of a document overtake each other, those that were cancelled in time change
nothing, and its tree never goes back to the outline of an older text. -/
theorem outlines_follow_their_texts : InSuccession settings provider steps where
  dropped n i uri ticket hheld hcancelled m st hst hof := by
    rw [moment_succ hst]
    exact (moves _ st).documents hof fun r o hi => not_applying_of_cancelled hheld hcancelled hi
  applied n i uri o happlies := by
    refine ⟨happlies.documents, ?_⟩
    obtain ⟨st, r, -, hstate, rfl, hphase⟩ := happlies
    obtain ⟨read, text, hlt, hmade, -⟩ := exists_madeFrom hstate.at_place hphase
    exact ⟨read, text, hlt, hmade⟩
  ordered n m i j uri o o' happlies happlies' hlt := by
    have hfirst := happlies
    have hsecond := happlies'
    obtain ⟨st, r, -, hstate, rfl, hphase⟩ := happlies
    obtain ⟨st', r', -, hstate', huri, hphase'⟩ := happlies'
    obtain ⟨read, text, hread, hmade, -⟩ := exists_madeFrom hstate.at_place hphase
    obtain ⟨read', text', hread', hmade', hbusy⟩ := exists_madeFrom hstate'.at_place hphase'
    rw [huri] at hmade' hbusy
    exact ⟨read, text, read', text', hmade, hmade', hread,
      hfirst.lt_read hsecond hlt hmade'.reads hbusy, hread'⟩

end Every

/-! ### A document that is edited meanwhile -/

def cartDocument : Uri := ⟨"file", none, .segments ["cart_test.go"], none, none⟩

/-- A bare machine at a time at which every invocation has ended with one outline. -/
def answering (now : Nat) (o : Outline) : Surroundings :=
  ⟨⟨⟨[], [], ⟨[]⟩⟩, 0, fun _ _ _ => .error .unreadable⟩, now, fun _ => some (.ok o)⟩

/-- A document is edited while the outline of its first text stands in the queue. -/
def editedMeanwhile : List RefreshStep :=
  let first := answering 0 (.cartOf ["adds"])
  let second := answering 1000 (.cartOf ["adds", "pays"])
  [.tell (.opened cartDocument "first" none), .grant 0 first, .begin cartDocument .opened,
    .grant 0 first, .resume 0 first, .grant 0 first, .resume 0 first, .resume 0 first,
    .resume 0 first, .begin cartDocument .change, .tell (.edited cartDocument "second" none),
    .grant 0 first, .grant 0 first, .grant 0 first, .resume 1 second, .grant 0 second,
    .resume 1 second, .resume 1 second, .resume 1 second, .grant 0 second]

example : [11, 12, 19, 20].map (fun n =>
    ((moment .default (.tool Settings.default.toolPath) editedMeanwhile n).explorer.tree?
      cartDocument).map (·.keys.length)) = [none, some 3, some 3, some 4] := by
  decide +kernel

end RefreshTraffic

end SpecExplorer
