/-
# The outline cache

An outline is kept per file. It answers a request as long as it is young enough and was made from
the same content. Otherwise an invocation of the provider is started, at most one at a time for a
file: a request for the same content shares it, and one for other content waits it out and asks
again. Whoever first sees an invocation end retires it, and its outline is kept unless the file was
invalidated meanwhile. A new provider forgets all that the old one made or is making.
-/
import SpecExplorer.Outline.Basic
import SpecExplorer.Outline.Signature
import SpecExplorer.Table
import SpecExplorer.Tool.Fault

namespace SpecExplorer

/-- A file to outline: where it is, its text, and the signature of the text. -/
structure OutlineRequest where
  path : FilePath
  content : String
  signature : Signature
  deriving DecidableEq, Repr

namespace OutlineRequest

/-- The request for the text of an open document. -/
def ofText (path : FilePath) (content : String) : OutlineRequest :=
  ⟨path, content, .ofText content⟩

end OutlineRequest

/-- Who makes outlines: the tool at a path, or a stand-in that takes some milliseconds. -/
inductive OutlineProvider where
  | tool (path : FilePath)
  | standIn (name : String) (millis : Nat)
  deriving DecidableEq, Repr

/-- An outline and the invocation that made it. Two requests got the same outline exactly when they
got it from the same invocation. -/
structure MadeOutline where
  ticket : Nat
  outline : Outline
  deriving Repr

/-- What a request is answered with. -/
abbrev OutlineAnswer := Except OutlineFault MadeOutline

/-- An outline that is kept. -/
structure CacheEntry where
  signature : Signature
  made : MadeOutline
  created : Nat
  deriving Repr

/-- An invocation under way. -/
structure Flight where
  ticket : Nat
  signature : Signature
  /-- The file was invalidated since, so the outline is handed out but not kept. -/
  stale : Bool
  deriving DecidableEq, Repr

/-- How requests were met so far. -/
structure CacheStats where
  /-- From an outline that was kept. -/
  hits : Nat
  /-- By an invocation that was already under way. -/
  shared : Nat
  /-- By a new invocation. -/
  computations : Nat
  deriving DecidableEq, Repr

structure OutlineCache where
  provider : OutlineProvider
  /-- How often the provider was replaced. -/
  epoch : Nat
  /-- For how many milliseconds an outline counts. -/
  ttl : Nat
  entries : Table FilePath.Route CacheEntry
  flights : Table FilePath.Route Flight
  nextTicket : Nat
  stats : CacheStats
  deriving Repr

/-- What the cache says to a request. -/
inductive Asked where
  /-- The outline is at hand. -/
  | hit (made : MadeOutline)
  /-- An invocation is under way; `own` says whether it is for the same content. -/
  | wait (ticket : Nat) (own : Bool)
  /-- An invocation has to be started under this ticket. -/
  | start (ticket : Nat)
  deriving Repr

namespace OutlineCache

def empty (provider : OutlineProvider) (ttl : Nat) : OutlineCache where
  provider := provider
  epoch := 0
  ttl := ttl
  entries := .empty
  flights := .empty
  nextTicket := 0
  stats := ⟨0, 0, 0⟩

def size (c : OutlineCache) : Nat := c.entries.size

def isEmpty (c : OutlineCache) : Bool := c.size == 0

/-- The outline that may be served to a request at a time. -/
def valid? (c : OutlineCache) (now : Nat) (r : OutlineRequest) : Option MadeOutline :=
  match c.entries.get? r.path.route with
  | some e => if now - e.created < c.ttl && e.signature == r.signature then some e.made else none
  | none => none

/-- Asks for an outline. -/
def ask (c : OutlineCache) (now : Nat) (r : OutlineRequest) : OutlineCache × Asked :=
  match c.valid? now r, c.flights.get? r.path.route with
  | some made, _ => ({ c with stats := { c.stats with hits := c.stats.hits + 1 } }, .hit made)
  | none, some f =>
    if f.signature = r.signature then
      ({ c with stats := { c.stats with shared := c.stats.shared + 1 } }, .wait f.ticket true)
    else (c, .wait f.ticket false)
  | none, none =>
    ({ c with
        flights := c.flights.put r.path.route ⟨c.nextTicket, r.signature, false⟩
        nextTicket := c.nextTicket + 1
        stats := { c.stats with computations := c.stats.computations + 1 } },
      .start c.nextTicket)

/-- Takes note that an invocation has ended. Only the first to say so finds it under way. -/
def retire (c : OutlineCache) (now : Nat) (path : FilePath) (ticket : Nat)
    (result : Except OutlineFault Outline) : OutlineCache :=
  match c.flights.get? path.route with
  | none => c
  | some f =>
    if f.ticket ≠ ticket then c
    else
      let c := { c with flights := c.flights.erase path.route }
      match result with
      | .ok outline =>
        if f.stale then c
        else { c with entries := c.entries.put path.route ⟨f.signature, ⟨ticket, outline⟩, now⟩ }
      | .error _ => c

/-- Forgets the outline of one file. -/
def invalidate (c : OutlineCache) (path : FilePath) : OutlineCache :=
  { c with
    entries := c.entries.erase path.route
    flights := c.flights.modify path.route fun f => { f with stale := true } }

/-- Forgets all outlines. -/
def clear (c : OutlineCache) : OutlineCache :=
  { c with
    entries := .empty
    flights := c.flights.map fun f => { f with stale := true } }

def setTtl (c : OutlineCache) (ttl : Nat) : OutlineCache := { c with ttl := ttl }

/-- Goes over to another provider. -/
def setProvider (c : OutlineCache) (provider : OutlineProvider) : OutlineCache :=
  { c with
    provider := provider
    epoch := c.epoch + 1
    entries := .empty
    flights := .empty }

end OutlineCache

/-! ### Requests over time -/

/-- Where a request stands. -/
inductive CallPhase where
  | asking
  /-- It waits for an invocation, for its own content or for other content. -/
  | awaiting (ticket : Nat) (own : Bool)
  | answered (answer : OutlineAnswer)
  deriving Repr

/-- A request under way. -/
structure OutlineCall where
  request : OutlineRequest
  phase : CallPhase
  deriving Repr

namespace OutlineCall

def start (r : OutlineRequest) : OutlineCall := ⟨r, .asking⟩

/-- Asks the cache. The ticket is that of an invocation to start. -/
def ask (call : OutlineCall) (c : OutlineCache) (now : Nat) :
    OutlineCache × OutlineCall × Option Nat :=
  let (c, asked) := c.ask now call.request
  match asked with
  | .hit made => (c, { call with phase := .answered (.ok made) }, none)
  | .wait ticket own => (c, { call with phase := .awaiting ticket own }, none)
  | .start ticket => (c, { call with phase := .awaiting ticket true }, some ticket)

/-- Goes on after the invocation it waited for has ended. After other content it asks again. -/
def resume (call : OutlineCall) (c : OutlineCache) (now : Nat) (ticket : Nat) (own : Bool)
    (result : Except OutlineFault Outline) : OutlineCache × OutlineCall :=
  let c := c.retire now call.request.path ticket result
  let answer : OutlineAnswer := result.map fun outline => ⟨ticket, outline⟩
  (c, { call with phase := if own then .answered answer else .asking })

end OutlineCall

end SpecExplorer
