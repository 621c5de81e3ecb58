/-
# Clicks in time

Targets are clicked at any times, each call with the same threshold, and none is dropped but by a
second click. The clock stops for a call whose time is up until it has looked, and one that was used
up looks before its time would be up. What each click has come to is noted with the time. Which
clicks make a pair is a matter of the times on their own target: going from the left, a click is
used up by the next one if that comes before the threshold is over, and else acts alone.
-/
import SpecExplorer.Proofs.Explorer.Presses

namespace SpecExplorer

/-! ### Pairs -/

/-- What a click comes to: an action at a time, or nothing. -/
inductive ClickFate where
  | nothing
  | act (action : ClickAction) (time : Nat)
  deriving DecidableEq, Repr

namespace ClickFate

/-- What an answer at a time makes of a click. -/
def of (time : Nat) : Option ClickAction → ClickFate
  | none => nothing
  | some action => act action time

/-- What becomes of the clicks on one target, given when they come. -/
def pairing (d : Nat) : List Nat → List ClickFate
  | [] => []
  | [a] => [act .expand (a + d)]
  | a :: b :: rest =>
    if b < a + d then nothing :: act .run b :: pairing d rest
    else act .expand (a + d) :: pairing d (b :: rest)

variable {d a b : Nat} {times : List Nat} {fates : List ClickFate}

theorem pairing_of_lt (h : b < a + d) (rest : List Nat) :
    pairing d (a :: b :: rest) = nothing :: act .run b :: pairing d rest := by
  rw [pairing, if_pos h]

theorem pairing_of_le (h : a + d ≤ b) (rest : List Nat) :
    pairing d (a :: b :: rest) = act .expand (a + d) :: pairing d (b :: rest) := by
  rw [pairing, if_neg (Nat.not_lt_of_le h)]

/-- A click that is alone if it is the last one begins anew, whatever comes after it. -/
theorem pairing_append_cons
    (h : pairing d (times ++ [a]) = pairing d times ++ [act .expand (a + d)]) (rest : List Nat) :
    pairing d (times ++ a :: rest) = pairing d times ++ pairing d (a :: rest) := by
  induction times using pairing.induct d with
  | case1 => rfl
  | case2 c =>
      have hle : c + d ≤ a := by
        by_contra hlt
        rw [List.singleton_append, pairing_of_lt (Nat.lt_of_not_le hlt)] at h
        cases h
      exact pairing_of_le hle rest
  | case3 c b more hlt ih =>
      simp only [List.cons_append, pairing_of_lt hlt, List.cons.injEq, true_and] at h ⊢
      exact ih h
  | case4 c b more hlt ih =>
      have hle : c + d ≤ b := Nat.le_of_not_lt hlt
      simp only [List.cons_append, pairing_of_le hle, List.cons.injEq, true_and] at h ⊢
      exact ih h

/-- One more click is alone, unless the last one was alone and is not over yet. -/
theorem pairing_concat (d : Nat) (times : List Nat) (b : Nat) :
    pairing d (times ++ [b]) = pairing d times ++ [act .expand (b + d)] ∨
      ∃ before a, times = before ++ [a] ∧ b < a + d ∧
        pairing d times = pairing d before ++ [act .expand (a + d)] := by
  induction times using pairing.induct d with
  | case1 => exact .inl rfl
  | case2 a =>
      by_cases hlt : b < a + d
      · exact .inr ⟨[], a, rfl, hlt, rfl⟩
      · exact .inl (pairing_of_le (Nat.le_of_not_lt hlt) [])
  | case3 c a more hlt ih =>
      rcases ih with halone | ⟨before, a', rfl, hb, hlast⟩
      · left
        simp only [List.cons_append, pairing_of_lt hlt, halone]
      · right
        refine ⟨c :: a :: before, a', rfl, hb, ?_⟩
        simp only [List.cons_append, pairing_of_lt hlt, hlast]
  | case4 c a more hlt ih =>
      have hle : c + d ≤ a := Nat.le_of_not_lt hlt
      rcases ih with halone | ⟨before, a', heq, hb, hlast⟩
      · left
        simp only [List.cons_append, pairing_of_le hle] at halone ⊢
        rw [halone]
      · right
        refine ⟨c :: before, a', by rw [heq, List.cons_append], hb, ?_⟩
        rw [pairing_of_le hle, hlast]
        cases before with
        | nil => rfl
        | cons e before =>
            obtain ⟨rfl, -⟩ := List.cons.inj heq
            rw [pairing_of_le hle, List.cons_append]

/-- If the last click acts alone, the others do as they would without it. -/
theorem eq_pairing_of_concat (h : pairing d (times ++ [a]) = fates ++ [act .expand (a + d)]) :
    fates = pairing d times := by
  rcases pairing_concat d times a with halone | ⟨before, c, rfl, hlt, hlast⟩
  · exact List.append_inj_left' (h.symm.trans halone) rfl
  · rw [List.append_assoc, List.singleton_append, pairing_append_cons hlast, pairing_of_lt hlt,
      List.append_cons] at h
    cases (List.append_inj' h rfl).2

/-- Two clicks in time are a pair if the first one was alone. -/
theorem pairing_concat_of_alone
    (h : pairing d (times ++ [a]) = fates ++ [act .expand (a + d)]) (hlt : b < a + d) :
    pairing d (times ++ [a] ++ [b]) = fates ++ [nothing, act .run b] := by
  obtain rfl := eq_pairing_of_concat h
  rw [List.append_assoc, List.singleton_append, pairing_append_cons h, pairing_of_lt hlt]
  rfl

end ClickFate

/-! ### The world of clicks in time -/

structure TimedClicks where
  /-- The calls, and the clock. -/
  traffic : ClickTraffic
  /-- When each click came, and on which target. -/
  clicks : List (Nat × ClickTarget)
  /-- What each click has come to so far, by place. -/
  fates : List (Nat × ClickFate)

inductive TimedClickStep where
  /-- A target is clicked. -/
  | press (target : ClickTarget) (s : Surroundings)
  /-- The call at a place looks whether it was used up, and then whether its time is up. -/
  | poll (i : Nat) (s : Surroundings)
  /-- It only looks whether its time is up. -/
  | lapse (i : Nat)
  /-- The clock moves to a time. -/
  | tick (time : Nat)

/-- A call looks, or the clock moves. -/
inductive TimedClickStep.OfClock (s : Surroundings) : TimedClickStep → Prop
  | poll (i : Nat) : OfClock s (.poll i s)
  | tick (time : Nat) : OfClock s (.tick time)

namespace TimedClicks

/-- An explorer that has just been started. -/
def start (settings : Settings) (provider : OutlineProvider) : TimedClicks :=
  ⟨.start settings provider, [], []⟩

def now (x : TimedClicks) : Nat := x.traffic.now

/-- A click was used up by a second one. -/
def isUsedUp (x : TimedClicks) (id : Nat) : Bool := x.traffic.explorer.clicks.isDropped id

/-- The clock may go on to a time if no call is kept from looking when its time is up, or before
that if it was used up. -/
def mayTick (x : TimedClicks) (time : Nat) : Bool :=
  x.now ≤ time && x.traffic.calls.all fun a? => match a? with
    | some (.pressed _ id due) =>
      if x.isUsedUp id then time < due else x.now < due && time ≤ due
    | _ => true

/-- The calls have made a move. What is answered by it is noted with the time. -/
def note (x : TimedClicks) (y : ClickTraffic) (clicks : List (Nat × ClickTarget)) :
    TimedClicks where
  traffic := y
  clicks := clicks
  fates := x.fates ++
    (y.answers.drop x.traffic.answers.length).map fun a => (a.1, .of x.now a.2)

/-- One move, where a click waits for the time `d`. A move that is not possible changes nothing. -/
def step (d : Nat) (x : TimedClicks) : TimedClickStep → TimedClicks
  | .press target s =>
    x.note (x.traffic.step (.press target d s)) (x.clicks ++ [(x.now, target)])
  | .poll i s => x.note (x.traffic.step (.poll i s)) x.clicks
  | .lapse i => x.note (x.traffic.step (.lapse i)) x.clicks
  | .tick time =>
    if x.mayTick time then x.note (x.traffic.step (.tick time)) x.clicks else x

/-- What a list of moves comes to, from an explorer that has just been started. -/
def run (settings : Settings) (provider : OutlineProvider) (d : Nat)
    (steps : List TimedClickStep) : TimedClicks :=
  steps.foldl (step d) (start settings provider)

theorem run_append_singleton (settings : Settings) (provider : OutlineProvider) (d : Nat)
    (steps : List TimedClickStep) (st : TimedClickStep) :
    run settings provider d (steps ++ [st]) = (run settings provider d steps).step d st :=
  List.foldl_append

/-! ### What a move can do -/

/-- The call at a place waits for a second click. -/
def Waits (x : TimedClicks) (i : Nat) (target : ClickTarget) (id due : Nat) : Prop :=
  x.traffic.Waits i target id due

/-- The number of the click that waits on a target. -/
def waiting? (x : TimedClicks) (target : ClickTarget) : Option Nat :=
  x.traffic.explorer.clicks.waiting.get? target

/-- One more click came, and its call waits or was answered at once. -/
structure Clicked (x y : TimedClicks) (target : ClickTarget) (call : Option Activity)
    (fates : List (Nat × ClickFate)) : Prop where
  now : y.now = x.now
  clicks : y.clicks = x.clicks ++ [(x.now, target)]
  calls : y.traffic.calls = x.traffic.calls ++ [call]
  fates : y.fates = x.fates ++ fates

/-- A click has used up the one that waited on its target. -/
structure Doubled (x y : TimedClicks) (target : ClickTarget) (id : Nat) : Prop extends
    Clicked x y target none [(x.traffic.calls.length, .act .run x.now)] where
  first : x.waiting? target = some id
  waiting : ∀ other, y.waiting? other = if other = target then none else x.waiting? other
  usedUp : ∀ k, y.isUsedUp k ↔ x.isUsedUp k ∨ k = id

/-- A click waits on its target, where none did before. -/
structure Begun (d : Nat) (x y : TimedClicks) (target : ClickTarget) (id : Nat) : Prop extends
    Clicked x y target (some (.pressed target id (x.now + d))) [] where
  free : x.waiting? target = none
  next : id = x.traffic.explorer.clicks.next
  waiting : ∀ other, y.waiting? other = if other = target then some id else x.waiting? other
  usedUp : ∀ k, y.isUsedUp k ↔ x.isUsedUp k

/-- A call that waited has been answered, since it was used up or its time is up. -/
structure Answered (x y : TimedClicks) (i : Nat) (target : ClickTarget) (id due : Nat)
    (fate : ClickFate) : Prop where
  waits : x.Waits i target id due
  reason : fate = .nothing ∧ x.isUsedUp id ∨ fate = .act .expand x.now ∧ due ≤ x.now
  now : y.now = x.now
  clicks : y.clicks = x.clicks
  calls : y.traffic.calls = x.traffic.calls.set i none
  fates : y.fates = x.fates ++ [(i, fate)]
  waiting : ∀ other k, y.waiting? other = some k → x.waiting? other = some k
  usedUp : ∀ k, y.isUsedUp k ↔ x.isUsedUp k

/-- The clock has moved, and left its time to every call that waits. -/
structure Ticked (x y : TimedClicks) : Prop where
  le : x.now ≤ y.now
  rests : ∀ i target id due, x.Waits i target id due →
    if x.isUsedUp id then y.now < due else x.now < due ∧ y.now ≤ due
  explorer : y.traffic.explorer = x.traffic.explorer
  clicks : y.clicks = x.clicks
  calls : y.traffic.calls = x.traffic.calls
  fates : y.fates = x.fates

/-- What one move makes of the clicks. -/
inductive Moves (d : Nat) (x y : TimedClicks) : Prop
  | idle (h : y = x)
  | doubled {target : ClickTarget} {id : Nat} (h : Doubled x y target id)
  | begun {target : ClickTarget} {id : Nat} (h : Begun d x y target id)
  | answered {i : Nat} {target : ClickTarget} {id due : Nat} {fate : ClickFate}
      (h : Answered x y i target id due fate)
  | ticked (h : Ticked x y)

section Moves

variable {d : Nat} {x : TimedClicks} {i id due : Nat} {target : ClickTarget}

theorem note_self (x : TimedClicks) : x.note x.traffic x.clicks = x := by
  rw [note, List.drop_length, List.map_nil, List.append_nil]

/-- What is noted of one more answer. -/
theorem fates_note {y : ClickTraffic} {clicks : List (Nat × ClickTarget)}
    {action : Option ClickAction} {fate : ClickFate}
    (hanswers : y.answers = x.traffic.answers ++ [(i, action)]) (hfate : .of x.now action = fate) :
    (x.note y clicks).fates = x.fates ++ [(i, fate)] := by
  rw [note, hanswers, List.drop_left, ← hfate]
  rfl

theorem moves_press (d : Nat) (x : TimedClicks) (target : ClickTarget) (s : Surroundings) :
    Moves d x (x.step d (.press target s)) := by
  have hpresses := x.traffic.explorer.clicks.presses target
  simp only [step, ClickTraffic.step, Activity.turn]
  generalize x.traffic.explorer.clicks.press target = pressed at hpresses
  cases hpresses with
  | @double id hwaiting =>
      refine .doubled ⟨⟨rfl, rfl, rfl, fates_note rfl rfl⟩, hwaiting, fun other => ?_, fun k => ?_⟩
      · exact Table.get?_erase _ _ _
      · simp [isUsedUp, note, ClickTracker.isDropped_iff, Activity.answer]
  | first hfree =>
      refine .begun ⟨⟨rfl, rfl, rfl, ?_⟩, hfree, rfl, fun other => ?_, fun k => Iff.rfl⟩
      · simp [note, ClickTraffic.answerOf]
      · exact Table.get?_put _ _ _ _

/-- A call whose time is up expands. -/
theorem answered_expire {y : ClickTraffic} (hwaits : x.Waits i target id due) (hdue : due ≤ x.now)
    (hy : y = { x.traffic with
      explorer := { x.traffic.explorer with clicks := x.traffic.explorer.clicks.expire target id }
      calls := x.traffic.calls.set i none
      answers := x.traffic.answers ++ [(i, some .expand)] }) :
    Answered x (x.note y x.clicks) i target id due (.act .expand x.now) := by
  subst hy
  refine ⟨hwaits, .inr ⟨rfl, hdue⟩, rfl, rfl, rfl, fates_note rfl rfl, fun other k hget => ?_,
    fun k => ?_⟩
  · exact (ClickTracker.get?_expire.mp hget).1
  · simp only [isUsedUp, note, ClickTracker.isDropped, ClickTracker.dropped_expire]

/-- A call that has to look is answered when it does. -/
theorem exists_answered_poll (hwaits : x.Waits i target id due)
    (hover : x.isUsedUp id ∨ due ≤ x.now) (d : Nat) (s : Surroundings) :
    ∃ fate, Answered x (x.step d (.poll i s)) i target id due fate := by
  have hat : x.traffic.at? i = some (.pressed target id due) := hwaits
  simp only [step, ClickTraffic.step, hat, Activity.turn]
  by_cases hused : x.isUsedUp id
  · have hdropped : x.traffic.explorer.clicks.isDropped id := hused
    rw [if_pos hdropped]
    exact ⟨.nothing, hwaits, .inl ⟨rfl, hused⟩, rfl, rfl, rfl, fates_note rfl rfl,
      fun other k hget => hget, fun k => Iff.rfl⟩
  · have hdropped : ¬ x.traffic.explorer.clicks.isDropped id := hused
    have hdue : due ≤ (x.traffic.surroundings s).now := hover.resolve_left hused
    rw [if_neg hdropped, if_neg (Nat.not_lt_of_le hdue)]
    exact ⟨_, answered_expire hwaits hdue rfl⟩

theorem moves_poll (hwaits : x.Waits i target id due) (d : Nat) (s : Surroundings) :
    Moves d x (x.step d (.poll i s)) := by
  by_cases hover : x.isUsedUp id ∨ due ≤ x.now
  · obtain ⟨fate, ha⟩ := exists_answered_poll hwaits hover d s
    exact .answered ha
  · obtain ⟨hkept, hahead⟩ := not_or.mp hover
    have hat : x.traffic.at? i = some (.pressed target id due) := hwaits
    have hdropped : ¬ x.traffic.explorer.clicks.isDropped id := hkept
    have hlt : (x.traffic.surroundings s).now < due := Nat.lt_of_not_le hahead
    have hstep : x.traffic.step (.poll i s) = x.traffic := by
      obtain ⟨hplace, heq⟩ := List.getElem?_eq_some_iff.mp (Option.join_eq_some_iff.mp hat)
      simp only [ClickTraffic.step, hat, Activity.turn, if_neg hdropped, if_pos hlt,
        ClickTraffic.goOn, Next.phase?, ClickTraffic.answerOf, List.append_nil]
      rw [← heq, List.set_getElem_self hplace]
    rw [step, hstep]
    exact .idle x.note_self

/-- Every move is one of the listed ones, since nothing but clicks is called for. -/
theorem moves
    (hcalls : ∀ i a, x.traffic.at? i = some a → ∃ target id due, a = .pressed target id due)
    (st : TimedClickStep) : Moves d x (x.step d st) := by
  cases st with
  | press target s => exact moves_press d x target s
  | poll i s =>
      cases hat : x.traffic.at? i with
      | none =>
          rw [step, ClickTraffic.step, hat]
          exact .idle x.note_self
      | some a =>
          obtain ⟨target, id, due, rfl⟩ := hcalls i a hat
          exact moves_poll hat d s
  | lapse i =>
      rw [step, ClickTraffic.step]
      split
      next target id due hat =>
          split
          next hdue => exact .answered (answered_expire hat hdue rfl)
          next => exact .idle x.note_self
      next => exact .idle x.note_self
  | tick time =>
      rw [step]
      split
      next hmay =>
          simp only [mayTick, Bool.and_eq_true, List.all_eq_true, decide_eq_true_eq] at hmay
          obtain ⟨hle, hcalls⟩ := hmay
          have htick : x.traffic.step (.tick time) = { x.traffic with now := time } := if_pos hle
          rw [htick]
          refine .ticked ⟨hle, ?_, rfl, rfl, rfl, by simp [note]⟩
          intro i target id due hwaits
          have := hcalls _ (List.mem_of_getElem? (Option.join_eq_some_iff.mp hwaits))
          show if x.isUsedUp id then time < due else x.now < due ∧ time ≤ due
          cases hused : x.isUsedUp id <;> simpa [hused] using this
      next => exact .idle rfl

end Moves

end TimedClicks

end SpecExplorer
