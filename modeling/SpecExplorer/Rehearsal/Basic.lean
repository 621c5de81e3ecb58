/-
# Rehearsals

A rehearsal plays activities against a clock that moves only while there is nothing else to do. One
activity at a time is in the foreground, which is what the rehearsal waits for; the others are in
the background. When the clock has moved, the foreground goes first if its moment has come, and then
the background goes in the order in which its moments were fixed. Whoever is given up by another's
turn comes last. An activity keeps its turn until it has to wait.
-/
import SpecExplorer.Explorer.Activity

namespace SpecExplorer

/-- An invocation of the outline provider and how it ends. -/
structure Invocation where
  ticket : Nat
  /-- The epoch of the provider that was asked. -/
  epoch : Nat
  due : Nat
  /-- The place among all moments that were fixed. -/
  order : Nat
  result : Except OutlineFault Outline
  deriving Repr

/-- An activity in the background. -/
structure Job where
  name : String
  activity : Activity
  moment : Wait
  /-- The place among all moments that were fixed. -/
  order : Nat
  deriving Repr

/-- An activity of the background that has ended. -/
structure Ended where
  name : String
  time : Nat
  answer : Answer
  deriving Repr

structure Rehearsal where
  machine : Machine
  explorer : Explorer
  now : Nat
  invocations : List Invocation
  /-- The notes of all calls of the tool. -/
  notes : List String
  /-- What the client was sent. -/
  sent : List ClientMessage
  /-- Jobs that wait for their moment. -/
  waiting : List Job
  /-- Jobs whose moment has come, first one first. -/
  ready : List Job
  /-- Jobs that have ended, first one first. -/
  ended : List Ended
  nextOrder : Nat

namespace Rehearsal

def start (machine : Machine) (explorer : Explorer) : Rehearsal where
  machine := machine
  explorer := explorer
  now := 0
  invocations := []
  notes := []
  sent := []
  waiting := []
  ready := []
  ended := []
  nextOrder := 0

def invocation? (r : Rehearsal) (ticket : Nat) : Option Invocation :=
  r.invocations.find? (·.ticket == ticket)

/-- How an invocation has ended, once its time has come. -/
def result? (r : Rehearsal) (ticket : Nat) : Option (Except OutlineFault Outline) :=
  match r.invocation? ticket with
  | some i => if i.due ≤ r.now then some i.result else none
  | none => none

def surroundings (r : Rehearsal) : Surroundings := ⟨r.machine, r.now, r.result?⟩

/-! ### Moments -/

/-- The time of a moment, where a time is set for it. -/
def due? (r : Rehearsal) : Wait → Option Nat
  | .state => none
  | .time due => some due
  | .ticket _ due => some due
  | .click _ due => some due
  | .invocation ticket => (r.invocation? ticket).map (·.due)

/-- Whether a moment has come. -/
def hasCome (r : Rehearsal) (w : Wait) : Bool :=
  match w with
  | .state => true
  | .ticket ticket due => r.explorer.tickets.isCancelled ticket || due ≤ r.now
  | .click id due => r.explorer.clicks.isDropped id || due ≤ r.now
  | .time due => due ≤ r.now
  | .invocation ticket => (r.result? ticket).isSome

/-- The place of a job in the order of moments. Those that wait for one invocation come in the
place of the invocation. -/
def place (r : Rehearsal) (j : Job) : Nat × Nat :=
  match j.moment with
  | .invocation ticket => (((r.invocation? ticket).map (·.order)).getD j.order, j.order)
  | _ => (j.order, j.order)

/-- Whether a place comes no later than another. -/
def placeLe (a b : Nat × Nat) : Bool := a.1 < b.1 || (a.1 == b.1 && a.2 ≤ b.2)

/-- Moves the jobs whose moment has come to the end of those that are ready. -/
def wake (r : Rehearsal) : Rehearsal :=
  let (come, waiting) := r.waiting.partition fun j => r.hasCome j.moment
  { r with
    waiting := waiting
    ready := r.ready ++ come.mergeSort fun a b => placeLe (r.place a) (r.place b) }

/-! ### Turns -/

/-- Does what a turn wants done. -/
def perform (r : Rehearsal) : Effect → Rehearsal
  | .tell message => { r with sent := r.sent ++ [message] }
  | .note lines => { r with notes := r.notes ++ lines }
  | .invoke ticket request =>
    let t := r.machine.outline r.explorer.cache.provider request
    { r with
      notes := r.notes ++ t.notes
      invocations :=
        r.invocations ++ [⟨ticket, r.explorer.cache.epoch, r.now + t.millis, r.nextOrder, t.value⟩]
      nextOrder := r.nextOrder + 1 }

/-- What became of an activity when its turn was over. -/
inductive Outlook where
  | waits (moment : Wait) (activity : Activity)
  | answered (answer : Answer)
  deriving Repr

/-- Lets an activity go on until it has to wait. -/
def play : Nat → Rehearsal → Activity → Rehearsal × Outlook
  | 0, r, a => (r, .waits .state a)
  | fuel + 1, r, a =>
    let turn := a.turn r.surroundings r.explorer
    let r := turn.effects.foldl perform { r with explorer := turn.explorer }
    match turn.next with
    | .done answer => (r, .answered answer)
    | .go a => play fuel r a
    | .wait w a => if r.hasCome w then play fuel r a else (r, .waits w a)

/-- Lets the first ready job go on. -/
def playJob (fuel : Nat) (r : Rehearsal) (j : Job) : Rehearsal :=
  match play fuel r j.activity with
  | (r, .answered answer) => { r with ended := r.ended ++ [⟨j.name, r.now, answer⟩] }
  | (r, .waits w a) =>
    { r with
      waiting := r.waiting ++ [⟨j.name, a, w, r.nextOrder⟩]
      nextOrder := r.nextOrder + 1 }

/-- Lets ready jobs go on until none is ready. -/
def settleWithin : Nat → Rehearsal → Rehearsal
  | 0, r => r
  | fuel + 1, r =>
    match r.wake with
    | { ready := [], .. } => r
    | awake =>
      match awake.ready with
      | [] => awake
      | j :: rest => settleWithin fuel (playJob (fuel + 1) { awake with ready := rest } j)

/-- The earliest time that is set for one of some moments. -/
def nextDue? (r : Rehearsal) (moments : List Wait) : Option Nat :=
  ((moments ++ r.waiting.map (·.moment)).filterMap r.due?).min?

/-- Moves the clock to a time. -/
def moveTo (r : Rehearsal) (time : Nat) : Rehearsal := { r with now := max r.now time }

/-! ### Bounds

A job of the explorer has some forty turns, one for every event of a run, and one for every
invocation that it has to wait out. -/

/-- The most events that a call may give. -/
def callEvents (p : ScriptPart) : Nat :=
  p.stdout.length + p.stderr.length + (p.report.map String.length).getD 0

/-- The most events that a call of a file may give. -/
def fileEvents (f : DiskFile) : Nat :=
  match f.program with
  | some (.script s) => callEvents s.outline + callEvents s.cover + callEvents s.run
  | _ => 0

/-- The most events that a call of the tool may give. -/
def eventBound (r : Rehearsal) : Nat :=
  r.machine.disk.files.foldl (fun bound f => bound + fileEvents f) 0

/-- A bound on the turns that are left. -/
def budget (r : Rehearsal) : Nat :=
  let jobs := r.waiting.length + r.ready.length + 2
  jobs * (100 + r.eventBound + 4 * (jobs + r.invocations.length))

/-- Lets ready jobs go on until none is ready. -/
def settle (r : Rehearsal) : Rehearsal := settleWithin r.budget r

/-! ### Foreground and background -/

/-- Begins an activity in the background. -/
def spawn (r : Rehearsal) (name : String) (a : Activity) : Rehearsal :=
  settle { r with ready := r.ready ++ [⟨name, a, .state, 0⟩] }

/-- Plays an activity in the foreground to its end. -/
def awaitWithin : Nat → Rehearsal → Activity → Rehearsal × Option Answer
  | 0, r, _ => (r, none)
  | fuel + 1, r, a =>
    match play r.budget r a with
    | (r, .answered answer) => (r.settle, some answer)
    | (r, .waits w a) => waitWithin fuel r w a
where
  /-- Moves the clock until the moment of the foreground has come. -/
  waitWithin : Nat → Rehearsal → Wait → Activity → Rehearsal × Option Answer
    | 0, r, _, _ => (r, none)
    | fuel + 1, r, w, a =>
      let r := r.settle
      if r.hasCome w then awaitWithin fuel r a
      else match r.nextDue? [w] with
        | none => (r, none)
        | some time =>
          let r := r.moveTo time
          if r.hasCome w then awaitWithin fuel r a else waitWithin fuel r w a

/-- Plays an activity in the foreground to its end. -/
def await (r : Rehearsal) (a : Activity) : Rehearsal × Option Answer :=
  awaitWithin (2 * r.budget) r a

/-- Waits until a job in the background has ended. -/
def joinWithin : Nat → Rehearsal → String → Rehearsal
  | 0, r, _ => r
  | fuel + 1, r, name =>
    let r := r.settle
    if r.ended.any (·.name == name) then r
    else match r.nextDue? [] with
      | none => r
      | some time => joinWithin fuel (r.moveTo time) name

/-- Waits until a job in the background has ended. -/
def join (r : Rehearsal) (name : String) : Rehearsal := joinWithin r.budget r name

/-- Waits until no job is left. -/
def idleWithin : Nat → Rehearsal → Rehearsal
  | 0, r => r
  | fuel + 1, r =>
    let r := r.settle
    match r.nextDue? [] with
    | none => r
    | some time => idleWithin fuel (r.moveTo time)

/-- Waits until no job is left. -/
def idle (r : Rehearsal) : Rehearsal := idleWithin r.budget r

/-- Changes the state of the explorer at once, and lets the background take notice. -/
def act (r : Rehearsal) (f : Explorer → Explorer) : Rehearsal :=
  settle { r with explorer := f r.explorer }

/-- The number of invocations of the provider of an epoch. -/
def calls (r : Rehearsal) (epoch : Nat) : Nat := r.invocations.countP (·.epoch == epoch)

end Rehearsal

end SpecExplorer
