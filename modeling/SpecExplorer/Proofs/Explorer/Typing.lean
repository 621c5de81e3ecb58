/-
# Typing

Edits come to any number of documents at any times, and each begins a refresh that waits until its
document has not been edited for some time. The clock moves only while no such wait is over, and
never past the end of one. Between two edits everything else may happen: refreshes whose wait is
over read, are answered and hand their tickets back, at any pace, and other activities change what
they like but tickets and settings. `Moves` lists what one move can do to waits and tickets.
-/
import SpecExplorer.Proofs.Explorer.Standing

namespace SpecExplorer

/-! ### The world of edits -/

/-- The ticket and the end of the wait of a refresh that waits for typing to pause. -/
def RefreshPhase.wait? : RefreshPhase → Option (Nat × Nat)
  | debouncing ticket due => some (ticket, due)
  | _ => none

structure TypingTraffic where
  explorer : Explorer
  now : Nat
  /-- When each edit came, and to which document. -/
  edits : List (Nat × Uri)
  /-- The refresh that each edit has begun, `none` for one that has ended. -/
  refreshes : List (Option Refresh)
  /-- Which of them have waited to the end, and when that was. -/
  passed : List (Nat × Nat)

inductive TypingStep where
  /-- A document gets a new text, and its refresh takes a ticket. -/
  | edit (uri : Uri) (text : String) (version : Option Int) (s : Surroundings)
  /-- The refresh at a place has a turn. -/
  | turn (i : Nat) (s : Surroundings)
  /-- The time of a refresh is up, and that is noticed before its ticket is looked at. -/
  | lapse (i : Nat)
  /-- The clock moves to a time. -/
  | tick (time : Nat)
  /-- Other activities do anything but deal in tickets or change settings. -/
  | elsewhere (other : Explorer)

/-- A refresh has a turn, or the clock moves. -/
inductive TypingStep.OfClock (s : Surroundings) : TypingStep → Prop
  | turn (i : Nat) : OfClock s (.turn i s)
  | tick (time : Nat) : OfClock s (.tick time)

namespace TypingTraffic

/-- An explorer that has just been started. -/
def start (settings : Settings) (provider : OutlineProvider) : TypingTraffic :=
  ⟨.start settings provider, 0, [], [], []⟩

/-- The refresh at a place, unless it has ended. -/
def at? (x : TypingTraffic) (i : Nat) : Option Refresh := x.refreshes[i]?.join

/-- A clock that shows the time. -/
def surroundings (x : TypingTraffic) (s : Surroundings) : Surroundings := { s with now := x.now }

/-- The clock may go on to a time if no wait is over and none would be over before. -/
def mayTick (x : TypingTraffic) (time : Nat) : Bool :=
  x.now ≤ time && x.refreshes.all fun r? => match r?.bind (·.phase.wait?) with
    | none => true
    | some (ticket, due) =>
      !x.explorer.tickets.isCancelled ticket && x.now < due && time ≤ due

/-- A refresh has had a turn. If it has waited till then and goes on to read, its wait has ended
now. -/
def goOn (x : TypingTraffic) (i : Nat) (r : Refresh) (e : Explorer) (r'? : Option Refresh) :
    TypingTraffic :=
  { x with
    explorer := e
    refreshes := x.refreshes.set i r'?
    passed := match r.phase, r'? with
      | .debouncing _ _, some ⟨_, _, .reading _⟩ => x.passed ++ [(i, x.now)]
      | _, _ => x.passed }

/-- One move. A move that is not possible changes nothing. -/
def step (x : TypingTraffic) : TypingStep → TypingTraffic
  | .edit uri text version s =>
    let t := (Refresh.ofTrigger uri .change).turn (x.surroundings s)
      (x.explorer.updateDocument uri text version)
    { x with
      explorer := t.explorer
      edits := x.edits ++ [(x.now, uri)]
      refreshes := x.refreshes ++ [t.next.phase?] }
  | .turn i s =>
    match x.at? i with
    | none => x
    | some r =>
      let t := r.turn (x.surroundings s) x.explorer
      x.goOn i r t.explorer t.next.phase?
  | .lapse i =>
    match x.at? i with
    | none => x
    | some r =>
      match r.phase with
      | .debouncing ticket due =>
        if due ≤ x.now then x.goOn i r x.explorer (some (r.toPhase (.reading ticket))) else x
      | _ => x
  | .tick time => if x.mayTick time then { x with now := time } else x
  | .elsewhere other =>
    { x with explorer :=
        { other with tickets := x.explorer.tickets, settings := x.explorer.settings } }

/-- What a list of moves comes to, from an explorer that has just been started. -/
def run (settings : Settings) (provider : OutlineProvider) (steps : List TypingStep) :
    TypingTraffic :=
  steps.foldl step (start settings provider)

theorem run_append_singleton (settings : Settings) (provider : OutlineProvider)
    (steps : List TypingStep) (st : TypingStep) :
    run settings provider (steps ++ [st]) = (run settings provider steps).step st :=
  List.foldl_append

end TypingTraffic

/-! ### What a move can do -/

/-- The refresh that an edit begins takes a ticket and waits for its delay. -/
theorem Refresh.turn_begun {e : Explorer} {uri : Uri}
    (haccepts : e.settings.refreshMode.accepts .change) (hopen : e.isOpen uri)
    (s : Surroundings) :
    (ofTrigger uri .change).turn s e =
      let ticket := (e.tickets.schedule uri).2
      let due := s.now + e.settings.debounce
      ⟨{ e with tickets := (e.tickets.schedule uri).1 }, [],
        .wait (.ticket ticket due) ⟨uri, .change, .debouncing ticket due⟩⟩ := by
  unfold turn ofTrigger
  simp only [haccepts, hopen, Bool.not_true, Bool.or_self]
  rfl

/-- A refresh leaves the settings alone. -/
theorem Refresh.turn_settings (r : Refresh) (s : Surroundings) (e : Explorer) :
    (r.turn s e).explorer.settings = e.settings := by
  unfold turn
  split
  next => split <;> rfl
  next => split <;> rfl
  next => split <;> rfl
  next =>
      split
      next =>
          simp only [arrived]
          repeat' split
          all_goals rfl
      next call _ =>
          simp only [Turn.within, OutlineCall.turn]
          repeat' split
          all_goals rfl
  next o _ =>
      have hsettings : (e.applyOutline r.uri o).1.settings = e.settings := by
        unfold Explorer.applyOutline
        split <;> rfl
      split
      next heq => rwa [heq] at hsettings
      next heq => rwa [heq] at hsettings
  next => rfl
  next =>
      simp only [Explorer.offer, Explorer.offerInstall]
      split <;> rfl

/-- A turn of a refresh that has begun and does not wait takes no ticket, and hands none back but
its own. -/
theorem Turns.keeps {uri : Uri} {e e' : Explorer} {phase : RefreshPhase}
    {phase? : Option RefreshPhase} (h : Turns e uri phase e' phase?) (hstart : phase ≠ .start)
    (hwait : phase.wait? = none) :
    (e'.tickets = e.tickets ∨
        ∃ k, phase.ticket? = some k ∧ e'.tickets = e.tickets.complete uri k) ∧
      ∀ p, phase? = some p → p.wait? = none ∧ p ≠ .start ∧
        ∀ k, p.ticket? = some k → phase.ticket? = some k := by
  cases h with
  | scheduled => exact absurd rfl hstart
  | waited | lapsed => cases hwait
  | ended hdocuments htickets => exact ⟨.inl htickets, nofun⟩
  | read =>
      refine ⟨.inl rfl, ?_⟩
      rintro _ ⟨⟩
      exact ⟨rfl, nofun, fun k hk => hk⟩
  | outlined hdocuments htickets =>
      refine ⟨.inl htickets, ?_⟩
      rintro _ ⟨⟩
      exact ⟨rfl, nofun, fun k hk => hk⟩
  | handedBack hheld hdocuments htickets => exact ⟨.inr ⟨_, hheld, htickets⟩, nofun⟩
  | arrived hanswer hkept hdocuments htickets | failed hkept hdocuments htickets =>
      refine ⟨.inr ⟨_, rfl, htickets⟩, ?_⟩
      rintro _ ⟨⟩
      exact ⟨rfl, nofun, nofun⟩
  | applied hdocuments htickets hphase =>
      refine ⟨.inl htickets, ?_⟩
      intro p hp
      rw [hphase p hp]
      exact ⟨rfl, nofun, nofun⟩

namespace TypingTraffic

/-- What one move makes of the edits and their refreshes. -/
inductive Moves (x : TypingTraffic) : TypingTraffic → Prop
  | /-- Nothing that matters to waits and tickets. -/
    idle : Moves x x
  | edited {e : Explorer} {ticket : Nat} (uri : Uri) (hticket : ticket = x.explorer.tickets.next)
      (htickets : e.tickets = (x.explorer.tickets.schedule uri).1)
      (hsettings : e.settings = x.explorer.settings) :
      Moves x { x with
        explorer := e
        edits := x.edits ++ [(x.now, uri)]
        refreshes := x.refreshes ++ [some ⟨uri, .change,
          .debouncing ticket (x.now + x.explorer.settings.debounce)⟩] }
  | dropped {i : Nat} {r : Refresh} {ticket due : Nat} (hat : x.at? i = some r)
      (hphase : r.phase = .debouncing ticket due)
      (hcancelled : x.explorer.tickets.isCancelled ticket) :
      Moves x { x with refreshes := x.refreshes.set i none }
  | passed {i : Nat} {r : Refresh} {ticket due : Nat} (hat : x.at? i = some r)
      (hphase : r.phase = .debouncing ticket due) (hdue : due ≤ x.now) :
      Moves x { x with
        refreshes := x.refreshes.set i (some (r.toPhase (.reading ticket)))
        passed := x.passed ++ [(i, x.now)] }
  | turned {i : Nat} {r : Refresh} {e : Explorer} {phase? : Option RefreshPhase}
      (hat : x.at? i = some r) (hwait : r.phase.wait? = none) (hstart : r.phase ≠ .start)
      (hturns : Turns x.explorer r.uri r.phase e phase?)
      (hsettings : e.settings = x.explorer.settings) :
      Moves x { x with
        explorer := e
        refreshes := x.refreshes.set i (phase?.map r.toPhase) }
  | ticked {time : Nat} (hle : x.now ≤ time)
      (hrests : ∀ i r ticket due, x.at? i = some r → r.phase = .debouncing ticket due →
        x.explorer.tickets.isCancelled ticket = false ∧ x.now < due ∧ time ≤ due) :
      Moves x { x with now := time }
  | elsewhere {e : Explorer} (htickets : e.tickets = x.explorer.tickets)
      (hsettings : e.settings = x.explorer.settings) : Moves x { x with explorer := e }

theorem wait?_eq_some {phase : RefreshPhase} {ticket due : Nat} :
    phase.wait? = some (ticket, due) ↔ phase = .debouncing ticket due := by
  cases phase <;> simp [RefreshPhase.wait?]

section

variable {x : TypingTraffic} {i : Nat} {r : Refresh}

theorem set_of_at? (hat : x.at? i = some r) : x.refreshes.set i (some r) = x.refreshes := by
  obtain ⟨hlt, heq⟩ := List.getElem?_eq_some_iff.mp (Option.join_eq_some_iff.mp hat)
  rw [← heq]
  exact List.set_getElem_self hlt

/-- A refresh whose ticket was cancelled while it waited is dropped. -/
theorem step_turn_cancelled {ticket due : Nat} (hat : x.at? i = some r)
    (hphase : r.phase = .debouncing ticket due)
    (hcancelled : x.explorer.tickets.isCancelled ticket) (s : Surroundings) :
    x.step (.turn i s) = { x with refreshes := x.refreshes.set i none } := by
  obtain ⟨uri, trigger, phase⟩ := r
  obtain rfl := hphase
  simp only [step, hat, Refresh.turn, Refresh.passed?, hcancelled, if_true]
  rfl

/-- A refresh that has waited to the end goes on to read. -/
theorem step_turn_due {ticket due : Nat} (hat : x.at? i = some r)
    (hphase : r.phase = .debouncing ticket due)
    (hkept : x.explorer.tickets.isCancelled ticket = false) (hdue : due ≤ x.now)
    (s : Surroundings) :
    x.step (.turn i s) = { x with
      refreshes := x.refreshes.set i (some (r.toPhase (.reading ticket)))
      passed := x.passed ++ [(i, x.now)] } := by
  obtain ⟨uri, trigger, phase⟩ := r
  obtain rfl := hphase
  simp only [step, hat, Refresh.turn, Refresh.passed?, hkept, surroundings, hdue, if_true]
  rfl

/-- A refresh that waits is dropped, goes on to read, or waits on. -/
theorem moves_turn_waiting {ticket due : Nat} (hat : x.at? i = some r)
    (hphase : r.phase = .debouncing ticket due) (s : Surroundings) :
    Moves x (x.step (.turn i s)) := by
  cases hcancelled : x.explorer.tickets.isCancelled ticket with
  | true =>
      rw [step_turn_cancelled hat hphase hcancelled]
      exact .dropped hat hphase hcancelled
  | false =>
      by_cases hdue : due ≤ x.now
      · rw [step_turn_due hat hphase hcancelled hdue]
        exact .passed hat hphase hdue
      · obtain ⟨uri, trigger, phase⟩ := r
        obtain rfl := hphase
        simp only [step, hat, Refresh.turn, Refresh.passed?, hcancelled, surroundings, hdue]
        show Moves x { x with refreshes := x.refreshes.set i (some _) }
        rw [set_of_at? hat]
        exact .idle

theorem moves_turn (hat : x.at? i = some r) (hbegun : r.phase ≠ .start) (s : Surroundings) :
    Moves x (x.step (.turn i s)) := by
  cases hwait : r.phase.wait? with
  | some wait => exact moves_turn_waiting hat (wait?_eq_some.mp hwait) s
  | none =>
      obtain ⟨phase?, hturns⟩ := r.exists_turnsTo i (x.surroundings s) x.explorer
      have hlog : ∀ r'? : Option Refresh, (match r.phase, r'? with
          | .debouncing _ _, some ⟨_, _, .reading _⟩ => x.passed ++ [(i, x.now)]
          | _, _ => x.passed) = x.passed := by
        intro r'?
        split
        next heq => rw [heq] at hwait; cases hwait
        next => rfl
      simp only [step, hat, goOn, hlog, hturns.next]
      exact .turned hat hwait hbegun hturns.turns (r.turn_settings _ _)

/-- An edit begins a refresh that waits for its delay. -/
theorem moves_edit (haccepts : x.explorer.settings.refreshMode.accepts .change) (uri : Uri)
    (text : String) (version : Option Int) (s : Surroundings) :
    Moves x (x.step (.edit uri text version s)) := by
  have hopen : (x.explorer.updateDocument uri text version).isOpen uri = true := by
    show ((Table.put _ uri _).get? uri).isSome = true
    rw [Table.get?_put, if_pos rfl]
    rfl
  have hmode : (x.explorer.updateDocument uri text version).settings.refreshMode.accepts .change =
      true := haccepts
  have hticket : (x.explorer.tickets.schedule uri).2 = x.explorer.tickets.next :=
    RefreshTickets.schedule_snd _ uri
  rw [step, Refresh.turn_begun hmode hopen]
  exact .edited uri hticket rfl rfl

theorem moves (haccepts : x.explorer.settings.refreshMode.accepts .change)
    (hbegun : ∀ i r, x.at? i = some r → r.phase ≠ .start) (st : TypingStep) :
    Moves x (x.step st) := by
  cases st with
  | edit uri text version s => exact moves_edit haccepts uri text version s
  | elsewhere other => exact .elsewhere rfl rfl
  | turn i s =>
      cases hat : x.at? i with
      | some r => exact moves_turn hat (hbegun i r hat) s
      | none =>
          rw [step, hat]
          exact .idle
  | lapse i =>
      rw [step]
      split
      next => exact .idle
      next r hat =>
          split
          next ticket due hphase =>
              split
              next hdue =>
                have := Moves.passed hat hphase hdue
                simpa only [goOn, hphase, Refresh.toPhase] using this
              next => exact .idle
          next => exact .idle
  | tick time =>
      rw [step]
      split
      next hmay =>
          simp only [mayTick, Bool.and_eq_true, List.all_eq_true, decide_eq_true_eq] at hmay
          refine .ticked hmay.1 ?_
          intro i r ticket due hat hphase
          have := hmay.2 (some r) (List.mem_of_getElem? (Option.join_eq_some_iff.mp hat))
          simpa [hphase, RefreshPhase.wait?, and_assoc] using this
      next => exact .idle

end

end TypingTraffic

end SpecExplorer
