/-
# What is kept

An outline that is kept answers later requests without the provider. So nothing may be kept that
was started before its file was last invalidated, the cache last cleared, or the provider last
replaced, wherever that moment finds it: stored already, under way, or ended with nobody having
taken note yet. Such a move drops the entry and marks or drops the flight. A flight without a mark
was therefore started later, and only such a flight leaves an entry, if its invocation succeeds.
An invocation that fails leaves nothing, so whoever asks next starts another.
-/
import SpecExplorer.Proofs.Outline.Flight

namespace SpecExplorer

namespace OutlineTraffic

/-- A move that makes all outlines of a file void. -/
def Voids (route : FilePath.Route) : TrafficStep → Prop
  | .invalidate path => path.route = route
  | .clear => True
  | .setProvider _ => True
  | _ => False

section History

variable (provider : OutlineProvider) (ttl : Nat) (steps : List TrafficStep)

/-- No invocation had the ticket yet when the outlines of a file were last made void. -/
def StartedSince (route : FilePath.Route) (ticket : Nat) : Prop :=
  ∃ past rest, steps = past ++ rest ∧ (∀ st ∈ rest, ¬ Voids route st) ∧
    (run provider ttl past).invocations.length ≤ ticket

/-- An entry of a file is what an invocation has made that counts. -/
structure Vouched (route : FilePath.Route) (e : CacheEntry) : Prop where
  /-- The provider in use was asked, for the file and with the signature of the entry. -/
  made : (run provider ttl steps).MadeFor e.made.ticket route e.signature
  /-- It gave the outline. -/
  gave : (run provider ttl steps).results.get? e.made.ticket = some (.ok e.made.outline)
  /-- That was after all that has made outlines of the file void. -/
  since : StartedSince provider ttl steps route e.made.ticket

/-- What is under way without a mark, and what is kept, was started after the last move that made
outlines of its file void. -/
structure Current : Prop where
  flight : ∀ route f, (run provider ttl steps).cache.flights.get? route = some f →
    f.stale = false → StartedSince provider ttl steps route f.ticket
  entry : ∀ route e, (run provider ttl steps).cache.entries.get? route = some e →
    StartedSince provider ttl steps route e.made.ticket

end History

/-! ### One move -/

section Move

variable {x y : OutlineTraffic} {st : TrafficStep} {route : FilePath.Route}

/-- A move that makes the outlines of a file void leaves no entry, and a mark on what is under
way. -/
theorem step_of_voids (x : OutlineTraffic) (hvoids : Voids route st) :
    (x.step st).cache.entries.get? route = none ∧
      ∀ f, (x.step st).cache.flights.get? route = some f → f.stale = true := by
  cases st with
  | invalidate path =>
      obtain rfl : path.route = route := hvoids
      constructor
      · exact (Table.get?_erase _ _ _).trans (if_pos rfl)
      · intro f hf
        rw [step, OutlineCache.invalidate, Table.get?_modify, if_pos rfl] at hf
        obtain ⟨f₀, -, rfl⟩ := Option.map_eq_some_iff.mp hf
        rfl
  | clear =>
      refine ⟨rfl, ?_⟩
      intro f hf
      rw [step, OutlineCache.clear, Table.get?_map] at hf
      obtain ⟨f₀, -, rfl⟩ := Option.map_eq_some_iff.mp hf
      rfl
  | setProvider next =>
      refine ⟨rfl, ?_⟩
      intro f hf
      cases hf
  | request | ask | complete | resume | setTtl | pass => cases hvoids

/-- A flight without a mark has had none before, unless the move has started it. -/
theorem Moves.fresh_flight (h : Moves x st y) {f : Flight}
    (hf : y.cache.flights.get? route = some f) (hfresh : f.stale = false) :
    x.cache.flights.get? route = some f ∨ f.ticket = x.cache.nextTicket := by
  cases h with
  | idle | requested | completed | ttlSet | passed => exact .inl hf
  | asked hcall hasks =>
      cases hasks with
      | served | joined | putOff => exact .inl hf
      | started hmiss hnone =>
          rw [Table.get?_put] at hf
          split at hf
          · exact .inr (congrArg Flight.ticket (Option.some.inj hf)).symm
          · exact .inl hf
  | resumed hcall hresult hretires =>
      cases hretires with
      | foreign => exact .inl hf
      | dropped | kept =>
          rw [Table.get?_erase] at hf
          split at hf
          · cases hf
          · exact .inl hf
  | invalidated path =>
      rw [OutlineCache.invalidate, Table.get?_modify] at hf
      split at hf
      · obtain ⟨f₀, -, rfl⟩ := Option.map_eq_some_iff.mp hf
        cases hfresh
      · exact .inl hf
  | cleared =>
      rw [OutlineCache.clear, Table.get?_map] at hf
      obtain ⟨f₀, -, rfl⟩ := Option.map_eq_some_iff.mp hf
      cases hfresh
  | providerSet => cases hf

/-- When a request goes on after an invocation that failed, no entry changes, and the flight of
that invocation is gone. -/
theorem Retires.failed {c c' : OutlineCache} {now ticket : Nat} {fault : OutlineFault}
    (h : Retires c now route ticket (.error fault) c') :
    c'.entries = c.entries ∧ ∀ f, c'.flights.get? route = some f → f.ticket ≠ ticket := by
  cases h with
  | foreign hforeign => exact ⟨rfl, hforeign⟩
  | dropped =>
      refine ⟨rfl, ?_⟩
      intro f hf
      rw [Table.get?_erase, if_pos rfl] at hf
      cases hf
  | kept hflight hticket hfresh hresult => cases hresult

end Move

/-! ### All moves -/

section Moves

variable {provider : OutlineProvider} {ttl : Nat} {steps : List TrafficStep} {st : TrafficStep}
  {route : FilePath.Route} {ticket : Nat}

theorem StartedSince.later (h : StartedSince provider ttl steps route ticket)
    (hst : ¬ Voids route st) : StartedSince provider ttl (steps ++ [st]) route ticket := by
  obtain ⟨past, rest, rfl, hrest, hle⟩ := h
  refine ⟨past, rest ++ [st], List.append_assoc past rest [st], ?_, hle⟩
  intro st' hmem
  rcases List.mem_append.mp hmem with hmem | hmem
  · exact hrest st' hmem
  · rw [List.mem_singleton.mp hmem]
    exact hst

/-- What a move starts was started after all moves before. -/
theorem StartedSince.next (hst : ¬ Voids route st)
    (hle : (run provider ttl steps).invocations.length ≤ ticket) :
    StartedSince provider ttl (steps ++ [st]) route ticket := by
  refine ⟨steps, [st], rfl, ?_, hle⟩
  intro st' hmem
  rw [List.mem_singleton.mp hmem]
  exact hst

theorem current_nil (provider : OutlineProvider) (ttl : Nat) : Current provider ttl [] where
  flight _ _ h := by cases h
  entry _ _ h := by cases h

namespace Current

variable (h : Current provider ttl steps) (st : TrafficStep)

include h

theorem step_flight (f : Flight)
    (hf : (run provider ttl (steps ++ [st])).cache.flights.get? route = some f)
    (hfresh : f.stale = false) : StartedSince provider ttl (steps ++ [st]) route f.ticket := by
  by_cases hvoids : Voids route st
  · rw [run_append_singleton] at hf
    rw [(step_of_voids _ hvoids).2 f hf] at hfresh
    cases hfresh
  · rcases (moves_run provider ttl steps st).fresh_flight hf hfresh with hbefore | hnext
    · exact (h.flight route f hbefore hfresh).later hvoids
    · have hticket : f.ticket = (run provider ttl steps).invocations.length :=
        hnext.trans (sound provider ttl steps).tickets
      exact .next hvoids (Nat.le_of_eq hticket.symm)

theorem step_entry (e : CacheEntry)
    (he : (run provider ttl (steps ++ [st])).cache.entries.get? route = some e) :
    StartedSince provider ttl (steps ++ [st]) route e.made.ticket := by
  by_cases hvoids : Voids route st
  · rw [run_append_singleton, (step_of_voids _ hvoids).1] at he
    cases he
  · rcases (moves_run provider ttl steps st).entry he with
      ⟨hbefore, -⟩ | ⟨f, outline, hf, hfresh, -, rfl, -⟩
    · exact (h.entry route e hbefore).later hvoids
    · exact (h.flight route f hf hfresh).later hvoids

/-- One move keeps all that is unmarked or kept up to date. -/
theorem append_singleton : Current provider ttl (steps ++ [st]) where
  flight _ f hf hfresh := h.step_flight st f hf hfresh
  entry _ e he := h.step_entry st e he

end Current

theorem current (provider : OutlineProvider) (ttl : Nat) (steps : List TrafficStep) :
    Current provider ttl steps := by
  induction steps using List.reverseRecOn with
  | nil => exact current_nil provider ttl
  | append_singleton steps st ih => exact ih.append_singleton st

end Moves

/-! ### Every entry -/

section Every

variable (provider : OutlineProvider) (ttl : Nat) (steps : List TrafficStep)

/-- How outlines are kept. -/
structure KeepsCarefully : Prop where
  /-- Whatever is kept comes from an invocation that counts. -/
  vouched : ∀ route e, (run provider ttl steps).cache.entries.get? route = some e →
    Vouched provider ttl steps route e
  /-- The end of an invocation that fails changes nothing in the cache. -/
  failed : ∀ ticket fault, (run provider ttl (steps ++ [.complete ticket (.error fault)])).cache =
    (run provider ttl steps).cache
  /-- When a request goes on after it, no entry changes, and its flight is gone. -/
  retired : ∀ i r ticket own fault,
    (run provider ttl steps).calls[i]? = some ⟨r, .awaiting ticket own⟩ →
    (run provider ttl steps).results.get? ticket = some (.error fault) →
    (run provider ttl (steps ++ [.resume i])).cache.entries =
        (run provider ttl steps).cache.entries ∧
      ¬ (run provider ttl (steps ++ [.resume i])).Holds r.path.route ticket
  /-- A request that finds neither a valid entry nor a flight starts an invocation of the provider
  in use and waits for it. -/
  restarted : ∀ i r, (run provider ttl steps).calls[i]? = some ⟨r, .asking⟩ →
    (run provider ttl steps).cache.valid? (run provider ttl steps).now r = none →
    (run provider ttl steps).cache.flights.get? r.path.route = none →
    (run provider ttl (steps ++ [.ask i])).invocations = (run provider ttl steps).invocations ++
        [⟨r, (run provider ttl steps).cache.provider, (run provider ttl steps).cache.epoch⟩] ∧
      (run provider ttl (steps ++ [.ask i])).calls[i]? =
        some ⟨r, .awaiting (run provider ttl steps).invocations.length true⟩

variable {provider ttl steps}

theorem vouched {route : FilePath.Route} {e : CacheEntry}
    (he : (run provider ttl steps).cache.entries.get? route = some e) :
    Vouched provider ttl steps route e where
  made := ((sound provider ttl steps).entry route e he).1
  gave := ((sound provider ttl steps).entry route e he).2
  since := (current provider ttl steps).entry route e he

theorem cache_complete (ticket : Nat) (result : Except OutlineFault Outline) :
    (run provider ttl (steps ++ [.complete ticket result])).cache =
      (run provider ttl steps).cache := by
  rw [run_append_singleton, step]
  split <;> rfl

theorem resume_failed {i ticket : Nat} {r : OutlineRequest} {own : Bool} {fault : OutlineFault}
    (hcall : (run provider ttl steps).calls[i]? = some ⟨r, .awaiting ticket own⟩)
    (hresult : (run provider ttl steps).results.get? ticket = some (.error fault)) :
    (run provider ttl (steps ++ [.resume i])).cache.entries =
        (run provider ttl steps).cache.entries ∧
      ¬ (run provider ttl (steps ++ [.resume i])).Holds r.path.route ticket := by
  have hretires := retires (run provider ttl steps).cache (run provider ttl steps).now r.path
    ticket (.error fault)
  obtain ⟨hentries, hgone⟩ := hretires.failed
  rw [run_append_singleton, step, hcall]
  simp only [hresult]
  refine ⟨hentries, ?_⟩
  rintro ⟨f, hf, hticket⟩
  exact hgone f hf hticket

theorem ask_restarts {i : Nat} {r : OutlineRequest}
    (hcall : (run provider ttl steps).calls[i]? = some ⟨r, .asking⟩)
    (hmiss : (run provider ttl steps).cache.valid? (run provider ttl steps).now r = none)
    (hnone : (run provider ttl steps).cache.flights.get? r.path.route = none) :
    (run provider ttl (steps ++ [.ask i])).invocations = (run provider ttl steps).invocations ++
        [⟨r, (run provider ttl steps).cache.provider, (run provider ttl steps).cache.epoch⟩] ∧
      (run provider ttl (steps ++ [.ask i])).calls[i]? =
        some ⟨r, .awaiting (run provider ttl steps).invocations.length true⟩ := by
  obtain ⟨c, phase, ticket?, hasks, heq⟩ := step_ask hcall
  have hlt := (List.getElem?_eq_some_iff.mp hcall).1
  rw [run_append_singleton, heq]
  cases hasks with
  | served hhit =>
      rw [hmiss] at hhit
      cases hhit
  | joined hmiss' hflight | putOff hmiss' hflight =>
      rw [hnone] at hflight
      cases hflight
  | started =>
      refine ⟨rfl, ?_⟩
      rw [List.getElem?_set, if_pos rfl, if_pos hlt, (sound provider ttl steps).tickets]

/-- After any moves, in any order, the cache keeps only what the provider in use has made for the
file since its outlines were last made void, and an invocation that fails leaves nothing that could
keep the next from being started. -/
theorem entries_are_current_and_failures_leave_none (provider : OutlineProvider) (ttl : Nat)
    (steps : List TrafficStep) : KeepsCarefully provider ttl steps where
  vouched _ _ he := vouched he
  failed ticket fault := cache_complete ticket (.error fault)
  retired _ _ _ _ _ hcall hresult := resume_failed hcall hresult
  restarted _ _ hcall hmiss hnone := ask_restarts hcall hmiss hnone

end Every

end OutlineTraffic

end SpecExplorer
