/-
# Traffic at the outline cache

Any number of requests stand at one cache. Each of them asks, waits for an invocation of the
provider, and goes on when that has ended; in between files are invalidated, the cache is cleared,
and the provider or the time that outlines count for is changed. All of that happens in any order:
`step` makes one move, and a move that is not possible changes nothing. The moves of a request are
those of `OutlineCall`. What the provider gives, and when, is left open.
-/
import Mathlib.Data.List.Basic
import SpecExplorer.Explorer.Refresh

namespace SpecExplorer

/-- An invocation of a provider, with the request that it was started for. -/
structure OutlineInvocation where
  request : OutlineRequest
  provider : OutlineProvider
  /-- How often the provider had been replaced when the invocation was started. -/
  epoch : Nat

/-- Whether the provider of an invocation is the one that a cache has. -/
def OutlineInvocation.isOf (inv : OutlineInvocation) (c : OutlineCache) : Prop :=
  inv.epoch = c.epoch ∧ inv.provider = c.provider

/-- A cache with all requests to it and all invocations that were started. -/
structure OutlineTraffic where
  cache : OutlineCache
  now : Nat
  /-- The requests in the order in which they came. -/
  calls : List OutlineCall
  /-- The invocations in the order of their tickets, counted from zero. -/
  invocations : List OutlineInvocation
  /-- What the invocations that have ended gave, by ticket. -/
  results : Table Nat (Except OutlineFault Outline)

inductive TrafficStep where
  /-- A request comes. -/
  | request (r : OutlineRequest)
  /-- The request at a place asks the cache. -/
  | ask (i : Nat)
  /-- An invocation ends. -/
  | complete (ticket : Nat) (result : Except OutlineFault Outline)
  /-- The request at a place goes on after the invocation that it waited for. -/
  | resume (i : Nat)
  | invalidate (path : FilePath)
  | clear
  | setTtl (ttl : Nat)
  | setProvider (provider : OutlineProvider)
  /-- Time goes by. -/
  | pass (millis : Nat)

namespace OutlineTraffic

/-- Nothing has been asked yet. -/
def empty (provider : OutlineProvider) (ttl : Nat) : OutlineTraffic :=
  ⟨.empty provider ttl, 0, [], [], .empty⟩

/-- One move. -/
def step (x : OutlineTraffic) : TrafficStep → OutlineTraffic
  | .request r => { x with calls := x.calls ++ [.start r] }
  | .ask i =>
    match x.calls[i]? with
    | some ⟨r, .asking⟩ =>
      let (cache, call, ticket?) := OutlineCall.ask ⟨r, .asking⟩ x.cache x.now
      let started := (ticket?.map fun _ => ⟨r, x.cache.provider, x.cache.epoch⟩).toList
      { x with
        cache := cache
        calls := x.calls.set i call
        invocations := x.invocations ++ started }
    | _ => x
  | .complete ticket result =>
    if ticket < x.invocations.length ∧ x.results.get? ticket = none then
      { x with results := x.results.put ticket result }
    else x
  | .resume i =>
    match x.calls[i]? with
    | some ⟨r, .awaiting ticket own⟩ =>
      match x.results.get? ticket with
      | some result =>
        let (cache, call) :=
          OutlineCall.resume ⟨r, .awaiting ticket own⟩ x.cache x.now ticket own result
        { x with cache := cache, calls := x.calls.set i call }
      | none => x
    | _ => x
  | .invalidate path => { x with cache := x.cache.invalidate path }
  | .clear => { x with cache := x.cache.clear }
  | .setTtl ttl => { x with cache := x.cache.setTtl ttl }
  | .setProvider provider => { x with cache := x.cache.setProvider provider }
  | .pass millis => { x with now := x.now + millis }

/-- What a list of moves comes to, from a cache that nothing was asked of. -/
def run (provider : OutlineProvider) (ttl : Nat) (steps : List TrafficStep) : OutlineTraffic :=
  steps.foldl step (empty provider ttl)

theorem run_append_singleton (provider : OutlineProvider) (ttl : Nat) (steps : List TrafficStep)
    (st : TrafficStep) : run provider ttl (steps ++ [st]) = (run provider ttl steps).step st := by
  rw [run, List.foldl_append]
  rfl

/-! ### What a move can do -/

/-- How a cache answers to a request. -/
inductive Asks (c : OutlineCache) (now : Nat) (r : OutlineRequest) :
    OutlineCache → CallPhase → Option Nat → Prop
  | /-- From an entry that is young enough and of the same content. -/
    served {e : CacheEntry} (hhit : c.valid? now r = some e.made)
      (hentry : c.entries.get? r.path.route = some e)
      (hyoung : now - e.created < c.ttl) (hsame : e.signature = r.signature) :
      Asks c now r { c with stats := { c.stats with hits := c.stats.hits + 1 } }
        (.answered (.ok e.made)) none
  | /-- By an invocation under way for the same content. -/
    joined {f : Flight} (hmiss : c.valid? now r = none)
      (hflight : c.flights.get? r.path.route = some f) (hsame : f.signature = r.signature) :
      Asks c now r { c with stats := { c.stats with shared := c.stats.shared + 1 } }
        (.awaiting f.ticket true) none
  | /-- Not yet, since an invocation is under way for other content. -/
    putOff {f : Flight} (hmiss : c.valid? now r = none)
      (hflight : c.flights.get? r.path.route = some f) (hother : f.signature ≠ r.signature) :
      Asks c now r c (.awaiting f.ticket false) none
  | /-- By a new invocation. -/
    started (hmiss : c.valid? now r = none) (hnone : c.flights.get? r.path.route = none) :
      Asks c now r
        { c with
          flights := c.flights.put r.path.route ⟨c.nextTicket, r.signature, false⟩
          nextTicket := c.nextTicket + 1
          stats := { c.stats with computations := c.stats.computations + 1 } }
        (.awaiting c.nextTicket true) (some c.nextTicket)

theorem exists_of_valid? {c : OutlineCache} {now : Nat} {r : OutlineRequest} {made : MadeOutline}
    (h : c.valid? now r = some made) :
    ∃ e, c.entries.get? r.path.route = some e ∧ now - e.created < c.ttl ∧
      e.signature = r.signature ∧ e.made = made := by
  unfold OutlineCache.valid? at h
  split at h
  next e hentry =>
      split at h
      next hvalid =>
          rw [Bool.and_eq_true, decide_eq_true_eq, beq_iff_eq] at hvalid
          exact ⟨e, hentry, hvalid.1, hvalid.2, Option.some.inj h⟩
      next => cases h
  next => cases h

theorem asks (c : OutlineCache) (now : Nat) (r : OutlineRequest) :
    ∃ c' phase ticket?, OutlineCall.ask ⟨r, .asking⟩ c now = (c', ⟨r, phase⟩, ticket?) ∧
      Asks c now r c' phase ticket? := by
  unfold OutlineCall.ask OutlineCache.ask
  cases hvalid : c.valid? now r with
  | some made =>
      obtain ⟨e, hentry, hyoung, hsame, rfl⟩ := exists_of_valid? hvalid
      exact ⟨_, _, _, rfl, .served hvalid hentry hyoung hsame⟩
  | none =>
      cases hflight : c.flights.get? r.path.route with
      | none => exact ⟨_, _, _, rfl, .started hvalid hflight⟩
      | some f =>
          by_cases hsame : f.signature = r.signature
          · simp only [hsame, if_true]
            exact ⟨_, _, _, rfl, .joined hvalid hflight hsame⟩
          · simp only [hsame, if_false]
            exact ⟨_, _, _, rfl, .putOff hvalid hflight hsame⟩

/-- What comes of the note that an invocation has ended. -/
inductive Retires (c : OutlineCache) (now : Nat) (route : FilePath.Route) (ticket : Nat)
    (result : Except OutlineFault Outline) : OutlineCache → Prop
  | /-- It is no longer, or never was, the one under way for the file. -/
    foreign (hforeign : ∀ f, c.flights.get? route = some f → f.ticket ≠ ticket) :
      Retires c now route ticket result c
  | /-- It failed, or the file was invalidated meanwhile. -/
    dropped {f : Flight} (hflight : c.flights.get? route = some f) (hticket : f.ticket = ticket)
      (hdropped : f.stale = true ∨ ∃ fault, result = .error fault) :
      Retires c now route ticket result { c with flights := c.flights.erase route }
  | /-- Its outline is kept. -/
    kept {f : Flight} {outline : Outline} (hflight : c.flights.get? route = some f)
      (hticket : f.ticket = ticket) (hfresh : f.stale = false) (hresult : result = .ok outline) :
      Retires c now route ticket result
        { c with
          flights := c.flights.erase route
          entries := c.entries.put route ⟨f.signature, ⟨ticket, outline⟩, now⟩ }

theorem retires (c : OutlineCache) (now : Nat) (path : FilePath) (ticket : Nat)
    (result : Except OutlineFault Outline) :
    Retires c now path.route ticket result (c.retire now path ticket result) := by
  unfold OutlineCache.retire
  cases hflight : c.flights.get? path.route with
  | none => exact .foreign (by simp [hflight])
  | some f =>
      dsimp only
      by_cases hticket : f.ticket = ticket
      · rw [if_neg (not_not.mpr hticket)]
        cases result with
        | error fault => exact .dropped hflight hticket (.inr ⟨fault, rfl⟩)
        | ok outline =>
            dsimp only
            cases hstale : f.stale with
            | true => exact .dropped hflight hticket (.inl hstale)
            | false => exact .kept hflight hticket hstale rfl
      · rw [if_pos hticket]
        refine .foreign ?_
        intro f' hf'
        obtain rfl : f = f' := Option.some.inj (hflight.symm.trans hf')
        exact hticket

/-- What one move makes of the traffic. -/
inductive Moves (x : OutlineTraffic) : TrafficStep → OutlineTraffic → Prop
  | /-- The move was not possible. -/
    idle {st : TrafficStep} : Moves x st x
  | requested (r : OutlineRequest) : Moves x (.request r) { x with calls := x.calls ++ [.start r] }
  | asked {i : Nat} {r : OutlineRequest} {c : OutlineCache} {phase : CallPhase}
      {ticket? : Option Nat} (hcall : x.calls[i]? = some ⟨r, .asking⟩)
      (hasks : Asks x.cache x.now r c phase ticket?) :
      Moves x (.ask i)
        { x with
          cache := c
          calls := x.calls.set i ⟨r, phase⟩
          invocations := x.invocations ++
            (ticket?.map fun _ => ⟨r, x.cache.provider, x.cache.epoch⟩).toList }
  | completed {ticket : Nat} (result : Except OutlineFault Outline)
      (hstarted : ticket < x.invocations.length) (hopen : x.results.get? ticket = none) :
      Moves x (.complete ticket result) { x with results := x.results.put ticket result }
  | resumed {i ticket : Nat} {own : Bool} {r : OutlineRequest} {c : OutlineCache}
      {result : Except OutlineFault Outline}
      (hcall : x.calls[i]? = some ⟨r, .awaiting ticket own⟩)
      (hresult : x.results.get? ticket = some result)
      (hretires : Retires x.cache x.now r.path.route ticket result c) :
      Moves x (.resume i)
        { x with
          cache := c
          calls := x.calls.set i
            ⟨r, if own then .answered (result.map fun outline => ⟨ticket, outline⟩)
              else .asking⟩ }
  | invalidated (path : FilePath) :
      Moves x (.invalidate path) { x with cache := x.cache.invalidate path }
  | cleared : Moves x .clear { x with cache := x.cache.clear }
  | ttlSet (ttl : Nat) : Moves x (.setTtl ttl) { x with cache := x.cache.setTtl ttl }
  | providerSet (provider : OutlineProvider) :
      Moves x (.setProvider provider) { x with cache := x.cache.setProvider provider }
  | passed (millis : Nat) : Moves x (.pass millis) { x with now := x.now + millis }

/-- A request that asks is met in one of the listed ways. -/
theorem step_ask {x : OutlineTraffic} {i : Nat} {r : OutlineRequest}
    (hcall : x.calls[i]? = some ⟨r, .asking⟩) :
    ∃ c phase ticket?, Asks x.cache x.now r c phase ticket? ∧
      x.step (.ask i) =
        { x with
          cache := c
          calls := x.calls.set i ⟨r, phase⟩
          invocations := x.invocations ++
            (ticket?.map fun _ => ⟨r, x.cache.provider, x.cache.epoch⟩).toList } := by
  obtain ⟨c, phase, ticket?, heq, hasks⟩ := asks x.cache x.now r
  refine ⟨c, phase, ticket?, hasks, ?_⟩
  simp only [step, hcall, heq]

theorem moves (x : OutlineTraffic) (st : TrafficStep) : Moves x st (x.step st) := by
  cases st with
  | ask i =>
      by_cases hasking : ∃ r, x.calls[i]? = some ⟨r, .asking⟩
      · obtain ⟨r, hcall⟩ := hasking
        obtain ⟨c, phase, ticket?, hasks, heq⟩ := step_ask hcall
        rw [heq]
        exact .asked hcall hasks
      · unfold step
        dsimp only
        split
        next r hcall => exact absurd ⟨r, hcall⟩ hasking
        next => exact .idle
  | complete ticket result =>
      unfold step
      dsimp only
      split
      next hopen => exact .completed result hopen.1 hopen.2
      next => exact .idle
  | resume i =>
      unfold step
      dsimp only
      split
      next r ticket own hcall =>
          cases hresult : x.results.get? ticket with
          | none => exact .idle
          | some result => exact .resumed hcall hresult (retires _ _ _ _ _)
      next => exact .idle
  | request r => exact .requested r
  | invalidate path => exact .invalidated path
  | clear => exact .cleared
  | setTtl ttl => exact .ttlSet ttl
  | setProvider provider => exact .providerSet provider
  | pass millis => exact .passed millis

/-! ### The requests of the explorer -/

/-- The move that a request at a place makes next. -/
def moveOf (i : Nat) (call : OutlineCall) : TrafficStep :=
  match call.phase with
  | .awaiting _ _ => .resume i
  | _ => .ask i

/-- A turn of a request of the explorer is a move of the traffic at its cache. -/
theorem turn_eq_step {x : OutlineTraffic} {s : Surroundings} {e : Explorer} {i : Nat}
    {call : OutlineCall} (hcall : x.calls[i]? = some call) (hcache : x.cache = e.cache)
    (hnow : x.now = s.now) (hended : ∀ ticket, s.ended ticket = x.results.get? ticket) :
    (call.turn s e).explorer.cache = (x.step (moveOf i call)).cache ∧
      ∀ call', ((call.turn s e).next = .go call' ∨ ∃ w, (call.turn s e).next = .wait w call') →
        (x.step (moveOf i call)).calls[i]? = some call' := by
  have hlt := (List.getElem?_eq_some_iff.mp hcall).1
  obtain ⟨r, phase⟩ := call
  cases phase with
  | answered answer =>
      rw [moveOf, step, hcall]
      exact ⟨hcache.symm, by simp [OutlineCall.turn]⟩
  | asking =>
      obtain ⟨c, phase, ticket?, heq, hasks⟩ := asks x.cache x.now r
      have hturn := heq
      rw [hcache, hnow] at hturn
      simp only [moveOf, step, hcall, heq, OutlineCall.turn, hturn, true_and]
      intro call' hnext
      rw [List.getElem?_set, if_pos rfl, if_pos hlt]
      cases phase <;> simp_all
  | awaiting ticket own =>
      cases hresult : x.results.get? ticket with
      | none =>
          simp only [moveOf, step, hcall, hresult, OutlineCall.turn, hended]
          refine ⟨hcache.symm, fun call' hnext => ?_⟩
          simpa using hnext
      | some result =>
          simp only [moveOf, step, hcall, hresult, OutlineCall.turn, hended, hcache, hnow, true_and]
          intro call' hnext
          rw [List.getElem?_set, if_pos rfl, if_pos hlt]
          simpa using hnext

/-! ### What stays -/

section Stays

variable {x y : OutlineTraffic} {st : TrafficStep}

theorem Moves.invocation (h : Moves x st y) {ticket : Nat} {inv : OutlineInvocation}
    (hinv : x.invocations[ticket]? = some inv) : y.invocations[ticket]? = some inv := by
  cases h with
  | asked hcall hasks =>
      rw [List.getElem?_append_left (List.getElem?_eq_some_iff.mp hinv).1]
      exact hinv
  | idle | requested | completed | resumed | invalidated | cleared | ttlSet | providerSet
  | passed => exact hinv

theorem Moves.result (h : Moves x st y) {ticket : Nat} {result : Except OutlineFault Outline}
    (hresult : x.results.get? ticket = some result) : y.results.get? ticket = some result := by
  cases h with
  | @completed other result' hstarted hopen =>
      rw [Table.get?_put, if_neg, hresult]
      rintro rfl
      rw [hopen] at hresult
      cases hresult
  | idle | requested | asked | resumed | invalidated | cleared | ttlSet | providerSet
  | passed => exact hresult

theorem Moves.now_le (h : Moves x st y) : x.now ≤ y.now := by
  cases h with
  | passed millis => exact Nat.le_add_right _ _
  | idle | requested | asked | completed | resumed | invalidated | cleared | ttlSet
  | providerSet => exact Nat.le_refl _

theorem Moves.exists_call (h : Moves x st y) {i : Nat} {call : OutlineCall}
    (hcall : x.calls[i]? = some call) : ∃ call', y.calls[i]? = some call' := by
  have hlt := (List.getElem?_eq_some_iff.mp hcall).1
  have hle : x.calls.length ≤ y.calls.length := by
    cases h <;> simp
  exact ⟨_, List.getElem?_eq_getElem (Nat.lt_of_lt_of_le hlt hle)⟩

/-- Whether two caches have the same provider. -/
def SameProvider (c c' : OutlineCache) : Prop := c'.epoch = c.epoch ∧ c'.provider = c.provider

theorem isOf_congr {c c' : OutlineCache} (h : SameProvider c c') {inv : OutlineInvocation} :
    inv.isOf c' ↔ inv.isOf c := by
  rw [OutlineInvocation.isOf, OutlineInvocation.isOf, h.1, h.2]

theorem Asks.sameProvider {c c' : OutlineCache} {now : Nat} {r : OutlineRequest}
    {phase : CallPhase} {ticket? : Option Nat} (h : Asks c now r c' phase ticket?) :
    SameProvider c c' := by
  cases h <;> exact ⟨rfl, rfl⟩

theorem Retires.sameProvider {c c' : OutlineCache} {now ticket : Nat} {route : FilePath.Route}
    {result : Except OutlineFault Outline} (h : Retires c now route ticket result c') :
    SameProvider c c' := by
  cases h <;> exact ⟨rfl, rfl⟩

/-! ### Where requests, flights and entries come from -/

theorem eq_or_of_getElem?_set {α : Type} {l : List α} {i j : Nat} {a b : α}
    (h : (l.set i a)[j]? = some b) : i = j ∧ b = a ∨ l[j]? = some b := by
  rw [List.getElem?_set] at h
  split at h
  next hij =>
      split at h
      · exact .inl ⟨hij, (Option.some.inj h).symm⟩
      · cases h
  next => exact .inr h

/-- A request is new or stands as before, unless it has just asked, or gone on after the invocation
that it waited for. -/
theorem Moves.call (h : Moves x st y) {i : Nat} {call : OutlineCall}
    (hcall : y.calls[i]? = some call) :
    x.calls[i]? = some call ∨ (x.calls[i]? = none ∧ ∃ r, call = .start r) ∨
      (∃ r c phase ticket?, x.calls[i]? = some ⟨r, .asking⟩ ∧ call = ⟨r, phase⟩ ∧
        Asks x.cache x.now r c phase ticket? ∧
        y.invocations = x.invocations ++
          (ticket?.map fun _ => ⟨r, x.cache.provider, x.cache.epoch⟩).toList) ∨
      ∃ r ticket own result, x.calls[i]? = some ⟨r, .awaiting ticket own⟩ ∧
        x.results.get? ticket = some result ∧
        call = ⟨r, if own then .answered (result.map fun outline => ⟨ticket, outline⟩)
          else .asking⟩ := by
  cases h with
  | idle | completed | invalidated | cleared | ttlSet | providerSet | passed => exact .inl hcall
  | requested r =>
      rcases Nat.lt_trichotomy i x.calls.length with hlt | rfl | hgt
      · rw [List.getElem?_append_left hlt] at hcall
        exact .inl hcall
      · rw [List.getElem?_concat_length] at hcall
        obtain rfl := Option.some.inj hcall
        exact .inr (.inl ⟨List.getElem?_eq_none_iff.mpr (Nat.le_refl _), r, rfl⟩)
      · rw [List.getElem?_eq_none_iff.mpr (by simpa [Nat.succ_le_iff] using hgt)] at hcall
        cases hcall
  | @asked j r c phase ticket? hj hasks =>
      rcases eq_or_of_getElem?_set hcall with ⟨rfl, rfl⟩ | hbefore
      · exact .inr (.inr (.inl ⟨r, c, phase, ticket?, hj, rfl, hasks, rfl⟩))
      · exact .inl hbefore
  | @resumed j ticket own r c result hj hresult hretires =>
      rcases eq_or_of_getElem?_set hcall with ⟨rfl, rfl⟩ | hbefore
      · exact .inr (.inr (.inr ⟨r, ticket, own, result, hj, hresult, rfl⟩))
      · exact .inl hbefore

/-- Everything under way was under way before, unless a request has just started it. -/
theorem Moves.flight (h : Moves x st y) {route : FilePath.Route} {f : Flight}
    (hf : y.cache.flights.get? route = some f) :
    (∃ f₀, x.cache.flights.get? route = some f₀ ∧ f₀.ticket = f.ticket ∧
        f₀.signature = f.signature ∧ SameProvider x.cache y.cache) ∨
      ∃ r : OutlineRequest, r.path.route = route ∧ f = ⟨x.cache.nextTicket, r.signature, false⟩ ∧
        y.invocations = x.invocations ++ [⟨r, x.cache.provider, x.cache.epoch⟩] ∧
        SameProvider x.cache y.cache := by
  cases h with
  | idle | requested | completed | ttlSet | passed =>
      exact .inl ⟨f, hf, rfl, rfl, rfl, rfl⟩
  | @asked i r c phase ticket? hcall hasks =>
      cases hasks with
      | served | joined | putOff => exact .inl ⟨f, hf, rfl, rfl, rfl, rfl⟩
      | started hmiss hnone =>
          rw [Table.get?_put] at hf
          split at hf
          next hroute => exact .inr ⟨r, hroute.symm, (Option.some.inj hf).symm, rfl, rfl, rfl⟩
          next => exact .inl ⟨f, hf, rfl, rfl, rfl, rfl⟩
  | resumed hcall hresult hretires =>
      cases hretires with
      | foreign => exact .inl ⟨f, hf, rfl, rfl, rfl, rfl⟩
      | dropped | kept =>
          rw [Table.get?_erase] at hf
          split at hf
          next => cases hf
          next => exact .inl ⟨f, hf, rfl, rfl, rfl, rfl⟩
  | invalidated path =>
      rw [OutlineCache.invalidate, Table.get?_modify] at hf
      split at hf
      next =>
          obtain ⟨f₀, hf₀, rfl⟩ := Option.map_eq_some_iff.mp hf
          exact .inl ⟨f₀, hf₀, rfl, rfl, rfl, rfl⟩
      next => exact .inl ⟨f, hf, rfl, rfl, rfl, rfl⟩
  | cleared =>
      rw [OutlineCache.clear, Table.get?_map] at hf
      obtain ⟨f₀, hf₀, rfl⟩ := Option.map_eq_some_iff.mp hf
      exact .inl ⟨f₀, hf₀, rfl, rfl, rfl, rfl⟩
  | providerSet => cases hf

/-- Every entry was there before, unless the invocation that made it has just been retired. -/
theorem Moves.entry (h : Moves x st y) {route : FilePath.Route} {e : CacheEntry}
    (he : y.cache.entries.get? route = some e) :
    (x.cache.entries.get? route = some e ∧ SameProvider x.cache y.cache) ∨
      ∃ f outline, x.cache.flights.get? route = some f ∧ f.stale = false ∧
        x.results.get? f.ticket = some (.ok outline) ∧
        e = ⟨f.signature, ⟨f.ticket, outline⟩, x.now⟩ ∧
        y.cache.flights.get? route = none ∧ SameProvider x.cache y.cache := by
  cases h with
  | idle | requested | completed | ttlSet | passed => exact .inl ⟨he, rfl, rfl⟩
  | asked hcall hasks => cases hasks <;> exact .inl ⟨he, rfl, rfl⟩
  | @resumed i ticket own r c result hcall hresult hretires =>
      cases hretires with
      | foreign | dropped => exact .inl ⟨he, rfl, rfl⟩
      | @kept f outline hflight hticket hfresh hok =>
          rw [Table.get?_put] at he
          split at he
          next hroute =>
              subst hroute hticket hok
              refine .inr ⟨f, outline, hflight, hfresh, hresult, (Option.some.inj he).symm, ?_,
                rfl, rfl⟩
              rw [Table.get?_erase, if_pos rfl]
          next => exact .inl ⟨he, rfl, rfl⟩
  | invalidated path =>
      rw [OutlineCache.invalidate, Table.get?_erase] at he
      split at he
      next => cases he
      next => exact .inl ⟨he, rfl, rfl⟩
  | cleared => cases he
  | providerSet => cases he

end Stays

end OutlineTraffic

end SpecExplorer
