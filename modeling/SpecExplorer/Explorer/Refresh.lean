/-
# Refreshing a document

A refresh takes a ticket, waits until the typing has paused, reads the text, has it outlined, and
merges the outline into the tree. If its ticket was cancelled by the time the outline arrives, the
outline is dropped.
-/
import SpecExplorer.Explorer.Turn

namespace SpecExplorer

/-! ### Asking for an outline -/

namespace OutlineCall

/-- One turn of a request to the outline cache. -/
def turn (s : Surroundings) (e : Explorer) (call : OutlineCall) :
    Turn OutlineCall OutlineAnswer :=
  match call.phase with
  | .answered answer => ⟨e, [], .done answer⟩
  | .asking =>
    let (cache, call, ticket?) := call.ask e.cache s.now
    let effects := (ticket?.map fun ticket => Effect.invoke ticket call.request).toList
    let next := match call.phase with
      | .awaiting ticket _ => .wait (.invocation ticket) call
      | _ => .go call
    ⟨{ e with cache := cache }, effects, next⟩
  | .awaiting ticket own =>
    match s.ended ticket with
    | none => ⟨e, [], .wait (.invocation ticket) call⟩
    | some result =>
      let (cache, call) := call.resume e.cache s.now ticket own result
      ⟨{ e with cache := cache }, [], .go call⟩

end OutlineCall

/-! ### The refresh -/

inductive RefreshPhase where
  | start
  /-- The typing may go on until `due`. -/
  | debouncing (ticket due : Nat)
  | reading (ticket : Nat)
  | outlining (ticket : Nat) (call : OutlineCall)
  | applying (outline : Outline)
  | relighting
  /-- The tool is missing at a path. -/
  | offering (path : FilePath)
  deriving Repr

/-- A refresh under way. -/
structure Refresh where
  uri : Uri
  trigger : RefreshTrigger
  phase : RefreshPhase
  deriving Repr

namespace Refresh

def ofTrigger (uri : Uri) (trigger : RefreshTrigger) : Refresh := ⟨uri, trigger, .start⟩

/-- Only typing is waited out. -/
def delay (r : Refresh) (e : Explorer) : Nat :=
  if r.trigger = .change then e.settings.debounce else 0

/-- Waiting for a ticket to be cancelled or a time to come: whether it is over, and if so, whether
the ticket has passed. -/
def passed? (s : Surroundings) (e : Explorer) (ticket due : Nat) : Option Bool :=
  if e.tickets.isCancelled ticket then some false
  else if due ≤ s.now then some true
  else none

def toPhase (r : Refresh) (phase : RefreshPhase) : Refresh := { r with phase := phase }

/-- An outline has arrived, or a fault. -/
def arrived (r : Refresh) (e : Explorer) (ticket : Nat) (answer : OutlineAnswer) :
    Turn Refresh Bool :=
  let e := { e with tickets := e.tickets.complete r.uri ticket }
  if e.tickets.isCancelled ticket then ⟨e, [], .done false⟩
  else match answer with
    | .ok made => ⟨e, [], .wait .state (r.toPhase (.applying made.outline))⟩
    | .error fault =>
      let said := "Could not outline " ++ r.uri.text ++ ": " ++ fault.message
      let effects := [Effect.tell (.log .error said)]
      match fault with
      | .toolNotFound path => ⟨e, effects, .wait .state (r.toPhase (.offering path))⟩
      | _ => ⟨e, effects, .done false⟩

/-- One turn of a refresh. Its answer says whether the tree has changed. -/
def turn (s : Surroundings) (e : Explorer) (r : Refresh) : Turn Refresh Bool :=
  match r.phase with
  | .start =>
    if !e.settings.refreshMode.accepts r.trigger || !e.isOpen r.uri then ⟨e, [], .done false⟩
    else
      let (tickets, ticket) := e.tickets.schedule r.uri
      let e := { e with tickets := tickets }
      let due := s.now + r.delay e
      ⟨e, [], .wait (.ticket ticket due) (r.toPhase (.debouncing ticket due))⟩
  | .debouncing ticket due =>
    match passed? s e ticket due with
    | none => ⟨e, [], .wait (.ticket ticket due) r⟩
    | some false => ⟨e, [], .done false⟩
    | some true => ⟨e, [], .wait .state (r.toPhase (.reading ticket))⟩
  | .reading ticket =>
    match e.outlineRequest? r.uri with
    | none => ⟨{ e with tickets := e.tickets.complete r.uri ticket }, [], .done false⟩
    | some request => ⟨e, [], .go (r.toPhase (.outlining ticket (.start request)))⟩
  | .outlining ticket call =>
    match call.phase with
    | .answered answer => r.arrived e ticket answer
    | _ =>
      (call.turn s e).within (fun call => r.toPhase (.outlining ticket call)) fun answer =>
        .go (r.toPhase (.outlining ticket { call with phase := .answered answer }))
  | .applying outline =>
    match e.applyOutline r.uri outline with
    | (e, none) => ⟨e, [], .done false⟩
    | (e, some change) =>
      ⟨e, [.tell (.treeChanged change)], .wait .state (r.toPhase .relighting)⟩
  | .relighting => ⟨e, e.relight, .done true⟩
  | .offering path =>
    let (e, effects) := e.offer path
    ⟨e, effects, .done false⟩

end Refresh

end SpecExplorer
