/-
# Refreshes side by side

Any number of refreshes are under way at one explorer, of any documents and for any reasons, while
the client opens, edits and closes documents. Between two waits a refresh is alone, and the state is
granted in the order of asking: who asks to change it has it when all before are through, and who
only reads it may have it together with the readers before. All else is left open: when time goes
by, when an outline arrives and which, and what other activities do to settings, outlines and trees.
`step` makes one move, and a move that is not possible changes nothing.
-/
import SpecExplorer.Explorer.Refresh
import SpecExplorer.Proofs.Explorer.Tickets
import SpecExplorer.Proofs.Outline.Traffic

namespace SpecExplorer

/-! ### Who asks for the state -/

/-- What the client says of a document. -/
inductive DocumentEvent where
  | opened (uri : Uri) (text : String) (version : Option Int)
  | edited (uri : Uri) (text : String) (version : Option Int)
  | closed (uri : Uri)

def DocumentEvent.apply (e : Explorer) : DocumentEvent → Explorer
  | .opened uri text version => e.openDocument uri text version
  | .edited uri text version => e.updateDocument uri text version
  | .closed uri => e.closeDocument uri

/-- Who waits for the state. -/
inductive StateRequest where
  /-- The refresh at a place, which may only want to read. -/
  | refresh (i : Nat) (shared : Bool)
  | client (event : DocumentEvent)

namespace StateRequest

def isShared : StateRequest → Bool
  | refresh _ shared => shared
  | client _ => false

/-- The place of the refresh that waits. -/
def place? : StateRequest → Option Nat
  | refresh i _ => some i
  | client _ => none

end StateRequest

/-- Whether a refresh waits for the state, and if so, whether only to read it. One that relights or
offers has told the client before and touches no document and no ticket, so it may come at any
time. -/
def RefreshPhase.shared? : RefreshPhase → Option Bool
  | start | reading _ => some true
  | applying _ => some false
  | debouncing _ _ | outlining _ _ | relighting | offering _ => none

/-- The ticket that a refresh holds until its outline has arrived. -/
def RefreshPhase.ticket? : RefreshPhase → Option Nat
  | debouncing ticket _ | reading ticket | outlining ticket _ => some ticket
  | start | applying _ | relighting | offering _ => none

/-- The phase that something goes on with, if it has not ended. -/
def Next.phase? {φ ρ : Type} : Next φ ρ → Option φ
  | go phase | wait _ phase => some phase
  | done _ => none

/-- How the refresh at a place stands in the queue. -/
def StateRequest.of (i : Nat) (phase : RefreshPhase) : List StateRequest :=
  (phase.shared?.map (refresh i)).toList

/-- What the refresh at a place adds to the queue when it has had a turn. -/
def StateRequest.after (i : Nat) : Next Refresh Bool → List StateRequest
  | .wait .state r => of i r.phase
  | _ => []

/-! ### The world of refreshes -/

structure RefreshTraffic where
  explorer : Explorer
  /-- The refreshes in the order in which they were begun, `none` for one that has ended. -/
  refreshes : List (Option Refresh)
  /-- Who waits for the state, in the order of asking. -/
  queue : List StateRequest

inductive RefreshStep where
  /-- A refresh is begun. -/
  | begin (uri : Uri) (trigger : RefreshTrigger)
  /-- The client says something of a document, and its message waits for the state. -/
  | tell (event : DocumentEvent)
  /-- Who stands at a place of the queue has the state. -/
  | grant (k : Nat) (s : Surroundings)
  /-- A refresh that does not wait for the state goes on. -/
  | resume (i : Nat) (s : Surroundings)
  /-- The time of a refresh is up, and that is noticed before its ticket is looked at. -/
  | lapse (i : Nat) (s : Surroundings)
  /-- Other activities, such as runs, do anything but deal in tickets. -/
  | elsewhere (other : Explorer)

namespace RefreshTraffic

/-- An explorer that has just been started. -/
def start (settings : Settings) (provider : OutlineProvider) : RefreshTraffic :=
  ⟨.start settings provider, [], []⟩

/-- The refresh at a place, unless it has ended. -/
def at? (x : RefreshTraffic) (i : Nat) : Option Refresh := x.refreshes[i]?.join

/-- Who stands at a place of the queue, if the state may be granted there. -/
def granted? (x : RefreshTraffic) (k : Nat) : Option StateRequest :=
  if (x.queue.take k).all (·.isShared) then
    x.queue[k]?.filter fun q => k = 0 || q.isShared
  else none

/-- The refresh at a place has had a turn. -/
def goOn (x : RefreshTraffic) (i : Nat) (t : Turn Refresh Bool) : RefreshTraffic where
  explorer := t.explorer
  refreshes := x.refreshes.set i t.next.phase?
  queue := x.queue ++ StateRequest.after i t.next

/-- One move. -/
def step (x : RefreshTraffic) : RefreshStep → RefreshTraffic
  | .begin uri trigger =>
    { x with
      refreshes := x.refreshes ++ [some (.ofTrigger uri trigger)]
      queue := x.queue ++ [.refresh x.refreshes.length true] }
  | .tell event => { x with queue := x.queue ++ [.client event] }
  | .grant k s =>
    match x.granted? k with
    | none => x
    | some (.client event) =>
      { x with explorer := event.apply x.explorer, queue := x.queue.eraseIdx k }
    | some (.refresh i shared) =>
      match x.at? i with
      | none => x
      | some r =>
        if r.phase.shared? = some shared then
          { x with queue := x.queue.eraseIdx k }.goOn i (r.turn s x.explorer)
        else x
  | .resume i s =>
    match x.at? i with
    | none => x
    | some r => if r.phase.shared? = none then x.goOn i (r.turn s x.explorer) else x
  | .lapse i s =>
    match x.at? i with
    | some ⟨uri, trigger, .debouncing ticket due⟩ =>
      if due ≤ s.now then
        x.goOn i ⟨x.explorer, [], .wait .state ⟨uri, trigger, .reading ticket⟩⟩
      else x
    | _ => x
  | .elsewhere other => { x with explorer := { other with tickets := x.explorer.tickets } }

/-- What a list of moves comes to, from an explorer that has just been started. -/
def run (settings : Settings) (provider : OutlineProvider) (steps : List RefreshStep) :
    RefreshTraffic :=
  steps.foldl step (start settings provider)

theorem run_append_singleton (settings : Settings) (provider : OutlineProvider)
    (steps : List RefreshStep) (st : RefreshStep) :
    run settings provider (steps ++ [st]) = (run settings provider steps).step st := by
  rw [run, List.foldl_append]
  rfl

end RefreshTraffic

/-! ### What a turn can do -/

/-- What a turn makes of a refresh of a document: the explorer after it, as far as documents and
tickets go, and the phase after it, `none` once the refresh has ended. -/
inductive Turns (e : Explorer) (uri : Uri) : RefreshPhase → Explorer → Option RefreshPhase → Prop
  | /-- Nothing was to be done, or nothing is left. -/
    ended {phase : RefreshPhase} {e' : Explorer} (hdocuments : e'.documents = e.documents)
      (htickets : e'.tickets = e.tickets) (hphase : ∀ o, phase ≠ .applying o) :
      Turns e uri phase e' none
  | scheduled {e' : Explorer} {ticket due : Nat} (hticket : ticket = e.tickets.next)
      (hdocuments : e'.documents = e.documents)
      (htickets : e'.tickets = (e.tickets.schedule uri).1) :
      Turns e uri .start e' (some (.debouncing ticket due))
  | waited {ticket due : Nat} : Turns e uri (.debouncing ticket due) e
      (some (.debouncing ticket due))
  | lapsed {ticket due : Nat} : Turns e uri (.debouncing ticket due) e (some (.reading ticket))
  | /-- The document's text is what will be outlined. -/
    read {ticket : Nat} {doc : Document} (hopen : e.document? uri = some doc) :
      Turns e uri (.reading ticket) e
        (some (.outlining ticket (.start (.ofText uri.filePath doc.text))))
  | outlined {e' : Explorer} {ticket : Nat} {call call' : OutlineCall}
      (hdocuments : e'.documents = e.documents) (htickets : e'.tickets = e.tickets)
      (hrequest : call'.request = call.request) :
      Turns e uri (.outlining ticket call) e' (some (.outlining ticket call'))
  | /-- The document was closed, or what has arrived is of no use. -/
    handedBack {phase : RefreshPhase} {e' : Explorer} {ticket : Nat}
      (hheld : phase.ticket? = some ticket) (hdocuments : e'.documents = e.documents)
      (htickets : e'.tickets = e.tickets.complete uri ticket) : Turns e uri phase e' none
  | arrived {e' : Explorer} {ticket : Nat} {call : OutlineCall} {made : MadeOutline}
      (hanswer : call.phase = .answered (.ok made)) (hkept : e.tickets.isCancelled ticket = false)
      (hdocuments : e'.documents = e.documents)
      (htickets : e'.tickets = e.tickets.complete uri ticket) :
      Turns e uri (.outlining ticket call) e' (some (.applying made.outline))
  | failed {e' : Explorer} {ticket : Nat} {call : OutlineCall} {path : FilePath}
      (hkept : e.tickets.isCancelled ticket = false) (hdocuments : e'.documents = e.documents)
      (htickets : e'.tickets = e.tickets.complete uri ticket) :
      Turns e uri (.outlining ticket call) e' (some (.offering path))
  | applied {e' : Explorer} {o : Outline} {phase? : Option RefreshPhase}
      (hdocuments : e'.documents = (e.applyOutline uri o).1.documents)
      (htickets : e'.tickets = e.tickets) (hphase : ∀ phase ∈ phase?, phase = .relighting) :
      Turns e uri (.applying o) e' phase?

namespace Turns

variable {e e' : Explorer} {uri : Uri} {phase : RefreshPhase} {phase? : Option RefreshPhase}

/-- A turn keeps the ticket or takes one, or the ticket is handed back. -/
theorem tickets (h : Turns e uri phase e' phase?) :
    (e'.tickets = e.tickets ∧
        ∀ p, phase? = some p → ∀ k, p.ticket? = some k → phase.ticket? = some k) ∨
      (e'.tickets = (e.tickets.schedule uri).1 ∧
        ∀ p, phase? = some p → p.ticket? = some e.tickets.next) ∨
      ∃ k, phase.ticket? = some k ∧ e'.tickets = e.tickets.complete uri k ∧
        ∀ p, phase? = some p → p.ticket? = none := by
  cases h with
  | ended hdocuments htickets => exact .inl ⟨htickets, nofun⟩
  | waited | lapsed | read =>
      refine .inl ⟨rfl, ?_⟩
      rintro _ ⟨⟩ k hk
      exact hk
  | outlined hdocuments htickets =>
      refine .inl ⟨htickets, ?_⟩
      rintro _ ⟨⟩ k hk
      exact hk
  | applied hdocuments htickets hphase =>
      refine .inl ⟨htickets, ?_⟩
      intro p hp k hk
      rw [hphase p hp] at hk
      cases hk
  | scheduled hticket hdocuments htickets =>
      refine .inr (.inl ⟨htickets, ?_⟩)
      rintro _ ⟨⟩
      exact congrArg some hticket
  | handedBack hheld hdocuments htickets => exact .inr (.inr ⟨_, hheld, htickets, nofun⟩)
  | arrived hanswer hkept hdocuments htickets | failed hkept hdocuments htickets =>
      refine .inr (.inr ⟨_, rfl, htickets, ?_⟩)
      rintro _ ⟨⟩
      rfl

/-- A refresh that has begun takes no ticket. -/
theorem tickets_of_begun (h : Turns e uri phase e' phase?) (hstart : phase ≠ .start) :
    e'.tickets = e.tickets ∨
      ∃ k, phase.ticket? = some k ∧ e'.tickets = e.tickets.complete uri k := by
  cases h with
  | scheduled => exact absurd rfl hstart
  | waited | lapsed | read => exact .inl rfl
  | ended hdocuments htickets | outlined hdocuments htickets | applied hdocuments htickets =>
      exact .inl htickets
  | handedBack hheld hdocuments htickets => exact .inr ⟨_, hheld, htickets⟩
  | arrived hanswer hkept hdocuments htickets | failed hkept hdocuments htickets =>
      exact .inr ⟨_, rfl, htickets⟩

/-- Only a refresh with an outline to apply changes a document. -/
theorem documents (h : Turns e uri phase e' phase?) (hphase : ∀ o, phase ≠ .applying o) :
    e'.documents = e.documents := by
  cases h with
  | waited | lapsed | read => rfl
  | ended hdocuments | scheduled _ hdocuments | outlined hdocuments | handedBack _ hdocuments
  | arrived _ _ hdocuments | failed _ hdocuments => exact hdocuments
  | applied => exact absurd rfl (hphase _)

/-- With a cancelled ticket a refresh keeps its ticket to its end. -/
theorem ticket_of_isCancelled (h : Turns e uri phase e' phase?) {k : Nat}
    (hheld : phase.ticket? = some k) (hcancelled : e.tickets.isCancelled k) :
    ∀ p, phase? = some p → p.ticket? = some k := by
  cases h with
  | ended | handedBack => exact nofun
  | scheduled | applied => cases hheld
  | waited | lapsed | read | outlined =>
      rintro _ ⟨⟩
      exact hheld
  | arrived hanswer hkept | failed hkept =>
      obtain rfl := Option.some.inj hheld
      rw [hkept] at hcancelled
      cases hcancelled

/-- A refresh that has handed its ticket back does not take another. -/
theorem ticket_eq_none (h : Turns e uri phase e' phase?) (hnone : phase.ticket? = none)
    (hstart : phase ≠ .start) : ∀ p, phase? = some p → p.ticket? = none ∧ p ≠ .start := by
  cases h with
  | ended | handedBack => exact nofun
  | scheduled => exact absurd rfl hstart
  | waited | lapsed | read | outlined | arrived | failed => cases hnone
  | applied hdocuments htickets hphase =>
      intro p hp
      obtain rfl := hphase p hp
      exact ⟨rfl, nofun⟩

/-- After an outline is applied all that may be left is to relight. -/
theorem eq_relighting {o : Outline} {p : RefreshPhase} (h : Turns e uri (.applying o) e' phase?)
    (hphase : phase? = some p) : p = .relighting := by
  cases h with
  | ended | handedBack => cases hphase
  | applied hdocuments htickets hrelighting => exact hrelighting p hphase

/-- An outline that is to be applied has arrived for a ticket that counted. -/
theorem of_applying {o : Outline} (h : Turns e uri phase e' (some (.applying o))) :
    ∃ ticket call made, phase = .outlining ticket call ∧ call.phase = .answered (.ok made) ∧
      e.tickets.isCancelled ticket = false ∧ made.outline = o := by
  cases h with
  | arrived hanswer hkept => exact ⟨_, _, _, rfl, hanswer, hkept, rfl⟩
  | applied hdocuments htickets hphase => cases hphase _ rfl

/-- A text that is to be outlined has just been read, or was under way already. -/
theorem of_outlining {ticket : Nat} {call : OutlineCall}
    (h : Turns e uri phase e' (some (.outlining ticket call))) :
    (phase = .reading ticket ∧ ∃ doc, e.document? uri = some doc ∧
        call.request = .ofText uri.filePath doc.text) ∨
      ∃ call', phase = .outlining ticket call' ∧ call.request = call'.request := by
  cases h with
  | read hopen => exact .inl ⟨rfl, _, hopen, rfl⟩
  | outlined hdocuments htickets hrequest => exact .inr ⟨_, rfl, hrequest⟩
  | applied hdocuments htickets hphase => cases hphase _ rfl

end Turns

/-- A turn of a refresh, with the explorer before it, is one of the listed ones, and the refresh
stands in the queue after it just where its phase says so. -/
structure Refresh.TurnsTo (r : Refresh) (i : Nat) (e : Explorer) (t : Turn Refresh Bool)
    (phase? : Option RefreshPhase) : Prop where
  turns : Turns e r.uri r.phase t.explorer phase?
  next : t.next.phase? = phase?.map r.toPhase
  queue : StateRequest.after i t.next = phase?.elim [] (StateRequest.of i)

namespace OutlineCall

/-- A request to the cache leaves documents and tickets alone, and stays the same request. -/
theorem turn_frame (s : Surroundings) (e : Explorer) (call : OutlineCall) :
    (call.turn s e).explorer.documents = e.documents ∧
      (call.turn s e).explorer.tickets = e.tickets ∧
      ∀ call' ∈ (call.turn s e).next.phase?, call'.request = call.request := by
  obtain ⟨request, phase⟩ := call
  cases phase with
  | answered answer => exact ⟨rfl, rfl, by simp [turn, Next.phase?]⟩
  | asking =>
      obtain ⟨c, phase, ticket?, hask, -⟩ := OutlineTraffic.asks e.cache s.now request
      simp only [turn, hask, true_and]
      intro call' hcall'
      cases phase <;> obtain rfl := Option.some.inj hcall' <;> rfl
  | awaiting ticket own =>
      cases hended : s.ended ticket with
      | none => simp [turn, hended, Next.phase?]
      | some result => simp [turn, hended, Next.phase?, resume]

end OutlineCall

namespace Refresh

section

variable (e : Explorer) (uri : Uri) (trigger : RefreshTrigger) (i : Nat)

theorem turnsTo_arrived (ticket : Nat) {call : OutlineCall} {answer : OutlineAnswer}
    (hanswer : call.phase = .answered answer) :
    ∃ phase?, TurnsTo ⟨uri, trigger, .outlining ticket call⟩ i e
      (arrived ⟨uri, trigger, .outlining ticket call⟩ e ticket answer) phase? := by
  unfold arrived
  dsimp only
  rw [RefreshTickets.isCancelled_complete]
  cases hkept : e.tickets.isCancelled ticket with
  | true => exact ⟨none, .handedBack rfl rfl rfl, rfl, rfl⟩
  | false =>
      cases answer with
      | ok made => exact ⟨_, .arrived hanswer hkept rfl rfl, rfl, rfl⟩
      | error fault =>
          cases fault with
          | toolNotFound path => exact ⟨_, .failed hkept rfl rfl, rfl, rfl⟩
          | _ => exact ⟨none, .handedBack rfl rfl rfl, rfl, rfl⟩

theorem turnsTo_outlining (s : Surroundings) (ticket : Nat) (call : OutlineCall) :
    ∃ phase?, TurnsTo ⟨uri, trigger, .outlining ticket call⟩ i e
      ((call.turn s e).within
        (fun call => toPhase ⟨uri, trigger, .outlining ticket call⟩ (.outlining ticket call))
        fun answer => .go (toPhase ⟨uri, trigger, .outlining ticket call⟩
          (.outlining ticket { call with phase := .answered answer }))) phase? := by
  obtain ⟨hdocuments, htickets, hrequest⟩ := call.turn_frame s e
  unfold Turn.within
  cases hnext : (call.turn s e).next with
  | go call' =>
      rw [hnext] at hrequest
      exact ⟨_, .outlined hdocuments htickets (hrequest call' rfl), rfl, rfl⟩
  | wait w call' =>
      rw [hnext] at hrequest
      refine ⟨_, .outlined hdocuments htickets (hrequest call' rfl), rfl, ?_⟩
      cases w <;> rfl
  | done answer =>
      exact ⟨some (.outlining ticket { call with phase := .answered answer }),
        .outlined hdocuments htickets rfl, rfl, rfl⟩

theorem turnsTo_applying (s : Surroundings) (o : Outline) :
    ∃ phase?, TurnsTo ⟨uri, trigger, .applying o⟩ i e (turn s e ⟨uri, trigger, .applying o⟩)
      phase? := by
  have htickets : (e.applyOutline uri o).1.tickets = e.tickets := by
    unfold Explorer.applyOutline
    split <;> rfl
  unfold turn
  dsimp only
  split
  next e' heq =>
      rw [heq] at htickets
      exact ⟨none, .applied (by rw [heq]) htickets nofun, rfl, rfl⟩
  next e' change heq =>
      rw [heq] at htickets
      exact ⟨some .relighting, .applied (by rw [heq]) htickets (by simp), rfl, rfl⟩

end

/-- Every turn of a refresh is one of the listed ones. -/
theorem exists_turnsTo (r : Refresh) (i : Nat) (s : Surroundings) (e : Explorer) :
    ∃ phase?, r.TurnsTo i e (r.turn s e) phase? := by
  obtain ⟨uri, trigger, phase⟩ := r
  cases phase with
  | start =>
      unfold turn
      dsimp only
      split
      · exact ⟨none, .ended rfl rfl nofun, rfl, rfl⟩
      · have hticket := RefreshTickets.schedule_snd e.tickets uri
        exact ⟨_, .scheduled hticket rfl rfl, rfl, rfl⟩
  | debouncing ticket due =>
      unfold turn
      dsimp only
      split
      next => exact ⟨_, .waited, rfl, rfl⟩
      next => exact ⟨none, .ended rfl rfl nofun, rfl, rfl⟩
      next => exact ⟨_, .lapsed, rfl, rfl⟩
  | reading ticket =>
      unfold turn
      dsimp only
      split
      next => exact ⟨none, .handedBack rfl rfl rfl, rfl, rfl⟩
      next request hrequest =>
          obtain ⟨doc, hopen, rfl⟩ := Option.map_eq_some_iff.mp hrequest
          exact ⟨_, .read hopen, rfl, rfl⟩
  | outlining ticket call =>
      unfold turn
      dsimp only
      split
      next answer hanswer => exact turnsTo_arrived e uri trigger i ticket hanswer
      next => exact turnsTo_outlining e uri trigger i s ticket call
  | applying o => exact turnsTo_applying e uri trigger i s o
  | relighting => exact ⟨none, .ended rfl rfl nofun, rfl, rfl⟩
  | offering path =>
      have hoffer : (e.offerInstall path).1.documents = e.documents ∧
          (e.offerInstall path).1.tickets = e.tickets := by
        unfold Explorer.offerInstall
        split <;> exact ⟨rfl, rfl⟩
      exact ⟨none, .ended hoffer.1 hoffer.2 nofun, rfl, rfl⟩

end Refresh

/-! ### What a move can do -/

namespace RefreshTraffic

/-- How the refresh at a place leaves the queue for a turn. If it waits there, all before it only
read, and if it wants to do more, none is before it. -/
inductive Leaves (i : Nat) : Option Bool → List StateRequest → List StateRequest → Prop
  | free {queue : List StateRequest} : Leaves i none queue queue
  | granted {front back : List StateRequest} {shared : Bool} (hfront : ∀ q ∈ front, q.isShared)
      (hfirst : front = [] ∨ shared) :
      Leaves i (some shared) (front ++ .refresh i shared :: back) (front ++ back)

/-- The refresh at a place has had a turn. -/
inductive Turned (x : RefreshTraffic) (i : Nat) (r : Refresh) : RefreshTraffic → Prop
  | intro {e : Explorer} {phase? : Option RefreshPhase} {queue : List StateRequest}
      (hat : x.at? i = some r) (hturns : Turns x.explorer r.uri r.phase e phase?)
      (hleaves : Leaves i r.phase.shared? x.queue queue) :
      Turned x i r ⟨e, x.refreshes.set i (phase?.map r.toPhase),
        queue ++ phase?.elim [] (StateRequest.of i)⟩

/-- A move is the turn of the refresh at a place, if it can take one. -/
def TurnOf (x : RefreshTraffic) (i : Nat) : RefreshStep → Prop
  | .grant k _ => ∃ shared, x.granted? k = some (.refresh i shared)
  | .resume j _ | .lapse j _ => j = i
  | .begin _ _ | .tell _ | .elsewhere _ => False

/-- The refresh at a place, which waits for the state, has it in a move. -/
structure HasState (x : RefreshTraffic) (st : RefreshStep) (i : Nat) (r : Refresh) : Prop where
  at_place : x.at? i = some r
  granted : ∃ k s shared, st = .grant k s ∧ x.granted? k = some (.refresh i shared) ∧
    r.phase.shared? = some shared

/-- What one move makes of the refreshes. -/
inductive Moves (x : RefreshTraffic) : RefreshStep → RefreshTraffic → Prop
  | /-- The move was not possible. -/
    idle {st : RefreshStep} : Moves x st x
  | begun (uri : Uri) (trigger : RefreshTrigger) :
      Moves x (.begin uri trigger)
        { x with
          refreshes := x.refreshes ++ [some (.ofTrigger uri trigger)]
          queue := x.queue ++ [.refresh x.refreshes.length true] }
  | told (event : DocumentEvent) :
      Moves x (.tell event) { x with queue := x.queue ++ [.client event] }
  | served {k : Nat} {s : Surroundings} {event : DocumentEvent} {back : List StateRequest}
      (hgranted : x.granted? k = some (.client event)) (hqueue : x.queue = .client event :: back) :
      Moves x (.grant k s) { x with explorer := event.apply x.explorer, queue := back }
  | /-- A refresh has had a turn, with the state granted to it if it waited for that. -/
    turned {st : RefreshStep} {i : Nat} {r : Refresh} {y : RefreshTraffic} (hof : x.TurnOf i st)
      (hstate : r.phase.shared?.isSome → x.HasState st i r) (hturned : Turned x i r y) :
      Moves x st y
  | elsewhere (other : Explorer) :
      Moves x (.elsewhere other) { x with explorer := { other with tickets := x.explorer.tickets } }

/-- The state is granted behind readers only, and to a reader unless nobody is before. -/
theorem exists_of_granted? {x : RefreshTraffic} {k : Nat} {q : StateRequest}
    (h : x.granted? k = some q) :
    ∃ front back, x.queue = front ++ q :: back ∧ x.queue.eraseIdx k = front ++ back ∧
      (∀ a ∈ front, a.isShared) ∧ (front = [] ∨ q.isShared) := by
  unfold granted? at h
  split at h
  next hfront =>
      obtain ⟨hget, hfirst⟩ := Option.filter_eq_some_iff.mp h
      obtain ⟨hlt, rfl⟩ := List.getElem?_eq_some_iff.mp hget
      refine ⟨x.queue.take k, x.queue.drop (k + 1), ?_, List.eraseIdx_eq_take_drop_succ _ k,
        List.all_eq_true.mp hfront, ?_⟩
      · rw [← List.drop_eq_getElem_cons hlt, List.take_append_drop]
      · rw [Bool.or_eq_true, decide_eq_true_eq] at hfirst
        refine hfirst.imp_left ?_
        rintro rfl
        rfl
  next => cases h

theorem turned_goOn {x : RefreshTraffic} {i : Nat} {r : Refresh} {t : Turn Refresh Bool}
    {phase? : Option RefreshPhase} {queue : List StateRequest} (hat : x.at? i = some r)
    (hturns : r.TurnsTo i x.explorer t phase?) (hleaves : Leaves i r.phase.shared? x.queue queue) :
    Turned x i r ({ x with queue := queue }.goOn i t) := by
  rw [goOn, hturns.next, hturns.queue]
  exact .intro hat hturns.turns hleaves

/-- A refresh that has the state takes its turn. -/
theorem HasState.turned {x : RefreshTraffic} {st : RefreshStep} {i : Nat} {r : Refresh}
    (h : x.HasState st i r) : Turned x i r (x.step st) := by
  obtain ⟨hat, k, s, shared, rfl, hgranted, hshared⟩ := h
  obtain ⟨front, back, hqueue, herase, hfront, hfirst⟩ := exists_of_granted? hgranted
  obtain ⟨phase?, hturns⟩ := r.exists_turnsTo i s x.explorer
  simp only [step, hgranted, hat, hshared, if_true, herase]
  refine turned_goOn hat hturns ?_
  rw [hshared, hqueue]
  exact .granted hfront hfirst

theorem HasState.turnOf {x : RefreshTraffic} {st : RefreshStep} {i : Nat} {r : Refresh}
    (h : x.HasState st i r) : x.TurnOf i st := by
  obtain ⟨-, k, s, shared, rfl, hgranted, -⟩ := h
  exact ⟨shared, hgranted⟩

/-- A move is the turn of one refresh at most. -/
theorem TurnOf.eq {x : RefreshTraffic} {st : RefreshStep} {i j : Nat} (hi : x.TurnOf i st)
    (hj : x.TurnOf j st) : i = j := by
  cases st with
  | grant k s =>
      obtain ⟨shared, hi⟩ := hi
      obtain ⟨shared', hj⟩ := hj
      cases hi.symm.trans hj
      rfl
  | resume | lapse => exact hi.symm.trans hj
  | begin | tell | elsewhere => cases hi

theorem moves_grant (x : RefreshTraffic) (k : Nat) (s : Surroundings) :
    Moves x (.grant k s) (x.step (.grant k s)) := by
  cases hgranted : x.granted? k with
  | none =>
      rw [step, hgranted]
      exact .idle
  | some q =>
      obtain ⟨front, back, hqueue, herase, hfront, hfirst⟩ := exists_of_granted? hgranted
      cases q with
      | client event =>
          obtain rfl : front = [] := hfirst.resolve_right nofun
          rw [step, hgranted]
          dsimp only
          rw [herase]
          exact .served hgranted hqueue
      | refresh i shared =>
          by_cases hwaits : ∃ r, x.at? i = some r ∧ r.phase.shared? = some shared
          · obtain ⟨r, hat, hshared⟩ := hwaits
            have hstate : x.HasState (.grant k s) i r :=
              ⟨hat, k, s, shared, rfl, hgranted, hshared⟩
            exact .turned hstate.turnOf (fun _ => hstate) hstate.turned
          · simp only [step, hgranted]
            split
            next => exact .idle
            next r hat =>
                rw [if_neg fun hshared => hwaits ⟨r, hat, hshared⟩]
                exact .idle

/-- Every move is one of the listed ones. -/
theorem moves (x : RefreshTraffic) (st : RefreshStep) : Moves x st (x.step st) := by
  cases st with
  | begin uri trigger => exact .begun uri trigger
  | tell event => exact .told event
  | elsewhere other => exact .elsewhere other
  | grant k s => exact moves_grant x k s
  | resume i s =>
      rw [step]
      split
      next => exact .idle
      next r hat =>
          split
          next hfree =>
              obtain ⟨phase?, hturns⟩ := r.exists_turnsTo i s x.explorer
              exact .turned rfl (by simp [hfree]) (turned_goOn hat hturns (hfree ▸ .free))
          next => exact .idle
  | lapse i s =>
      rw [step]
      split
      next uri trigger ticket due hat =>
          split
          next =>
              exact .turned rfl (by intro hwaits; cases hwaits)
                (turned_goOn hat ⟨.lapsed, rfl, rfl⟩ .free)
          next => exact .idle
      next => exact .idle

end RefreshTraffic

end SpecExplorer
