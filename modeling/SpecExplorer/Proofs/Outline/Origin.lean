/-
# Where answers come from

An answer of the outline cache is never made up and never old. In any order of moves it is what
one invocation gave, and that invocation was started for the same file with the same content, by
a provider that was in use while the request stood. An answer from an entry is younger than the
time that outlines count for. An invocation for other content is waited out, and what it gives
never answers the request.

The invariant ties whatever the cache holds to the invocation that made it: a flight and an entry
belong to an invocation of the provider in use, since a new provider drops both.
-/
import Mathlib.Data.List.Induction
import SpecExplorer.Proofs.Outline.Traffic

namespace SpecExplorer

namespace OutlineTraffic

/-! ### Moments of a history -/

section Moments

variable (provider : OutlineProvider) (ttl : Nat)

/-- At some moment of a history. -/
def Sometime (steps : List TrafficStep) (p : OutlineTraffic → Prop) : Prop :=
  ∃ past, past <+: steps ∧ p (run provider ttl past)

/-- The request at a place has come and has no answer yet. -/
def Stands (i : Nat) (x : OutlineTraffic) : Prop :=
  ∃ call, x.calls[i]? = some call ∧ ∀ answer, call.phase ≠ .answered answer

/-- An entry was stored by one of the moves, less than a time before the end of them. -/
def StoredWithin (millis : Nat) (steps : List TrafficStep) (route : FilePath.Route)
    (e : CacheEntry) : Prop :=
  ∃ past st, past ++ [st] <+: steps ∧
    (run provider ttl past).cache.entries.get? route ≠ some e ∧
    (run provider ttl (past ++ [st])).cache.entries.get? route = some e ∧
    (run provider ttl steps).now < (run provider ttl past).now + millis

variable {provider ttl}
variable {steps : List TrafficStep} {p : OutlineTraffic → Prop}

theorem Sometime.now (h : p (run provider ttl steps)) : Sometime provider ttl steps p :=
  ⟨steps, List.prefix_refl _, h⟩

theorem Sometime.later (h : Sometime provider ttl steps p) (st : TrafficStep) :
    Sometime provider ttl (steps ++ [st]) p := by
  obtain ⟨past, hpast, hp⟩ := h
  exact ⟨past, hpast.trans (List.prefix_append _ _), hp⟩

end Moments

/-! ### Invocations and what they are for -/

/-- A ticket is that of an invocation for a file and a content, by the provider in use. -/
def MadeFor (x : OutlineTraffic) (ticket : Nat) (route : FilePath.Route) (signature : Signature) :
    Prop :=
  ∃ inv, x.invocations[ticket]? = some inv ∧ inv.request.path.route = route ∧
    inv.request.signature = signature ∧ inv.isOf x.cache

theorem MadeFor.of_moves {x y : OutlineTraffic} {st : TrafficStep} (hmoves : Moves x st y)
    (hsame : SameProvider x.cache y.cache) {ticket : Nat} {route : FilePath.Route}
    {signature : Signature} (h : x.MadeFor ticket route signature) :
    y.MadeFor ticket route signature := by
  obtain ⟨inv, hinv, hroute, hsignature, hof⟩ := h
  exact ⟨inv, hmoves.invocation hinv, hroute, hsignature, (isOf_congr hsame).mpr hof⟩

section Requests

variable (provider : OutlineProvider) (ttl : Nat) (steps : List TrafficStep)

/-- An invocation that may answer the request at a place: it was started for the same file with
the same content, by a provider that was in use at some moment while the request stood. -/
def Suits (i : Nat) (r : OutlineRequest) (ticket : Nat) : Prop :=
  ∃ inv, (run provider ttl steps).invocations[ticket]? = some inv ∧
    inv.request.path.route = r.path.route ∧ inv.request.signature = r.signature ∧
    Sometime provider ttl steps fun x => Stands i x ∧ inv.isOf x.cache

/-- An invocation for other content of the file of a request. -/
def IsOther (r : OutlineRequest) (ticket : Nat) : Prop :=
  ∃ inv, (run provider ttl steps).invocations[ticket]? = some inv ∧
    inv.request.path.route = r.path.route ∧ inv.request.signature ≠ r.signature

/-- What the request at a place waits for, or was answered with. -/
structure Accounted (i : Nat) (call : OutlineCall) : Prop where
  answered : ∀ answer, call.phase = .answered answer →
    ∃ ticket result, Suits provider ttl steps i call.request ticket ∧
      (run provider ttl steps).results.get? ticket = some result ∧
      answer = result.map fun outline => ⟨ticket, outline⟩
  own : ∀ ticket, call.phase = .awaiting ticket true →
    Suits provider ttl steps i call.request ticket
  other : ∀ ticket, call.phase = .awaiting ticket false →
    IsOther provider ttl steps call.request ticket

variable {provider ttl steps} {i : Nat} {r : OutlineRequest} {ticket : Nat}

theorem MadeFor.suits
    (h : (run provider ttl steps).MadeFor ticket r.path.route r.signature)
    (hstands : Stands i (run provider ttl steps)) : Suits provider ttl steps i r ticket := by
  obtain ⟨inv, hinv, hroute, hsignature, hof⟩ := h
  exact ⟨inv, hinv, hroute, hsignature, .now ⟨hstands, hof⟩⟩

theorem moves_run (provider : OutlineProvider) (ttl : Nat) (steps : List TrafficStep)
    (st : TrafficStep) :
    Moves (run provider ttl steps) st (run provider ttl (steps ++ [st])) := by
  rw [run_append_singleton]
  exact moves _ st

/-- What holds at a moment and is kept by each move holds from then on. -/
theorem run_append_of_kept (P : OutlineTraffic → Prop) (h : P (run provider ttl steps))
    (hkept : ∀ x st y, Moves x st y → P x → P y) (rest : List TrafficStep) :
    P (run provider ttl (steps ++ rest)) := by
  induction rest using List.reverseRecOn with
  | nil => rwa [List.append_nil]
  | append_singleton rest st ih =>
      rw [← List.append_assoc]
      exact hkept _ st _ (moves_run provider ttl (steps ++ rest) st) ih

theorem Suits.later (h : Suits provider ttl steps i r ticket) (st : TrafficStep) :
    Suits provider ttl (steps ++ [st]) i r ticket := by
  obtain ⟨inv, hinv, hroute, hsignature, hsometime⟩ := h
  exact ⟨inv, (moves_run _ _ _ st).invocation hinv, hroute, hsignature, hsometime.later st⟩

theorem IsOther.later (h : IsOther provider ttl steps r ticket) (st : TrafficStep) :
    IsOther provider ttl (steps ++ [st]) r ticket := by
  obtain ⟨inv, hinv, hroute, hsignature⟩ := h
  exact ⟨inv, (moves_run _ _ _ st).invocation hinv, hroute, hsignature⟩

theorem Accounted.later {call : OutlineCall} (h : Accounted provider ttl steps i call)
    (st : TrafficStep) : Accounted provider ttl (steps ++ [st]) i call where
  answered answer hphase := by
    obtain ⟨ticket, result, hsuits, hresult, hanswer⟩ := h.answered answer hphase
    exact ⟨ticket, result, hsuits.later st, (moves_run _ _ _ st).result hresult, hanswer⟩
  own ticket hphase := (h.own ticket hphase).later st
  other ticket hphase := (h.other ticket hphase).later st

/-- A request that only asks has nothing to account for. -/
theorem accounted_asking (i : Nat) (r : OutlineRequest) :
    Accounted provider ttl steps i ⟨r, .asking⟩ where
  answered _ h := by cases h
  own _ h := by cases h
  other _ h := by cases h

/-! ### The invariant -/

variable (provider ttl steps) in
/-- All that the cache holds, and all that the requests wait for, is tied to the invocation that
it comes from. -/
structure Sound : Prop where
  tickets : (run provider ttl steps).cache.nextTicket =
    (run provider ttl steps).invocations.length
  flight : ∀ route f, (run provider ttl steps).cache.flights.get? route = some f →
    (run provider ttl steps).MadeFor f.ticket route f.signature
  entry : ∀ route e, (run provider ttl steps).cache.entries.get? route = some e →
    (run provider ttl steps).MadeFor e.made.ticket route e.signature ∧
      (run provider ttl steps).results.get? e.made.ticket = some (.ok e.made.outline)
  apart : ∀ route e f, (run provider ttl steps).cache.entries.get? route = some e →
    (run provider ttl steps).cache.flights.get? route = some f → e.made.ticket ≠ f.ticket
  stored : ∀ route e, (run provider ttl steps).cache.entries.get? route = some e →
    e.created ≤ (run provider ttl steps).now ∧
      ∃ past st, past ++ [st] <+: steps ∧
        (run provider ttl past).cache.entries.get? route ≠ some e ∧
        (run provider ttl (past ++ [st])).cache.entries.get? route = some e ∧
        (run provider ttl past).now = e.created
  calls : ∀ i call, (run provider ttl steps).calls[i]? = some call →
    Accounted provider ttl steps i call

theorem sound_nil (provider : OutlineProvider) (ttl : Nat) : Sound provider ttl [] where
  tickets := rfl
  flight _ _ h := by cases h
  entry _ _ h := by cases h
  apart _ _ _ h := by cases h
  stored _ _ h := by cases h
  calls _ _ h := by cases h

namespace Sound

variable (h : Sound provider ttl steps) (st : TrafficStep)

include h

theorem step_tickets : (run provider ttl (steps ++ [st])).cache.nextTicket =
    (run provider ttl (steps ++ [st])).invocations.length := by
  have htickets := h.tickets
  have hmoves := moves_run provider ttl steps st
  generalize run provider ttl (steps ++ [st]) = y at hmoves
  cases hmoves with
  | asked hcall hasks =>
      cases hasks <;> simp [htickets]
  | resumed hcall hresult hretires =>
      cases hretires <;> exact htickets
  | idle | requested | completed | invalidated | cleared | ttlSet | providerSet | passed =>
      exact htickets

theorem step_flight (route : FilePath.Route) (f : Flight)
    (hf : (run provider ttl (steps ++ [st])).cache.flights.get? route = some f) :
    (run provider ttl (steps ++ [st])).MadeFor f.ticket route f.signature := by
  have hmoves := moves_run provider ttl steps st
  rcases hmoves.flight hf with ⟨f₀, hf₀, hticket, hsignature, hsame⟩ |
    ⟨r, hroute, rfl, hinvocations, hsame⟩
  · rw [← hticket, ← hsignature]
    exact (h.flight route f₀ hf₀).of_moves hmoves hsame
  · refine ⟨⟨r, _, _⟩, ?_, hroute, rfl, (isOf_congr hsame).mpr ⟨rfl, rfl⟩⟩
    rw [hinvocations, h.tickets, List.getElem?_concat_length]

theorem step_entry (route : FilePath.Route) (e : CacheEntry)
    (he : (run provider ttl (steps ++ [st])).cache.entries.get? route = some e) :
    (run provider ttl (steps ++ [st])).MadeFor e.made.ticket route e.signature ∧
      (run provider ttl (steps ++ [st])).results.get? e.made.ticket =
        some (.ok e.made.outline) := by
  have hmoves := moves_run provider ttl steps st
  rcases hmoves.entry he with ⟨he₀, hsame⟩ | ⟨f, outline, hf, -, hresult, rfl, -, hsame⟩
  · obtain ⟨hmade, hresult⟩ := h.entry route e he₀
    exact ⟨hmade.of_moves hmoves hsame, hmoves.result hresult⟩
  · exact ⟨(h.flight route f hf).of_moves hmoves hsame, hmoves.result hresult⟩

/-- A flight that has just been started has a ticket that no entry has, and one that is retired
leaves the entry that it made alone. -/
theorem step_apart (route : FilePath.Route) (e : CacheEntry) (f : Flight)
    (he : (run provider ttl (steps ++ [st])).cache.entries.get? route = some e)
    (hf : (run provider ttl (steps ++ [st])).cache.flights.get? route = some f) :
    e.made.ticket ≠ f.ticket := by
  have hmoves := moves_run provider ttl steps st
  rcases hmoves.entry he with ⟨he₀, -⟩ | ⟨-, -, -, -, -, -, hnone, -⟩
  · rcases hmoves.flight hf with ⟨f₀, hf₀, hticket, -, -⟩ | ⟨r, -, rfl, -, -⟩
    · rw [← hticket]
      exact h.apart route e f₀ he₀ hf₀
    · obtain ⟨⟨inv, hinv, -⟩, -⟩ := h.entry route e he₀
      have hlt := (List.getElem?_eq_some_iff.mp hinv).1
      rw [h.tickets]
      exact Nat.ne_of_lt hlt
  · rw [hnone] at hf
    cases hf

theorem step_stored (route : FilePath.Route) (e : CacheEntry)
    (he : (run provider ttl (steps ++ [st])).cache.entries.get? route = some e) :
    e.created ≤ (run provider ttl (steps ++ [st])).now ∧
      ∃ past st', past ++ [st'] <+: steps ++ [st] ∧
        (run provider ttl past).cache.entries.get? route ≠ some e ∧
        (run provider ttl (past ++ [st'])).cache.entries.get? route = some e ∧
        (run provider ttl past).now = e.created := by
  have hmoves := moves_run provider ttl steps st
  rcases hmoves.entry he with ⟨he₀, -⟩ | ⟨f, outline, hf, -, -, rfl, -, -⟩
  · obtain ⟨hcreated, past, st', hpast, hstored⟩ := h.stored route e he₀
    exact ⟨Nat.le_trans hcreated hmoves.now_le, past, st',
      hpast.trans (List.prefix_append _ _), hstored⟩
  · refine ⟨hmoves.now_le, steps, st, List.prefix_refl _, fun hbefore => ?_, he, rfl⟩
    exact h.apart route _ f hbefore hf rfl

/-- However the cache meets a request that asks, what the request then waits for or has got is
accounted for. -/
theorem accounted_asked {i : Nat} {r : OutlineRequest} {c : OutlineCache} {phase : CallPhase}
    {ticket? : Option Nat} (hcall : (run provider ttl steps).calls[i]? = some ⟨r, .asking⟩)
    (hasks : Asks (run provider ttl steps).cache (run provider ttl steps).now r c phase ticket?)
    (hinvocations : (run provider ttl (steps ++ [st])).invocations =
      (run provider ttl steps).invocations ++
        (ticket?.map fun _ => ⟨r, (run provider ttl steps).cache.provider,
          (run provider ttl steps).cache.epoch⟩).toList) :
    Accounted provider ttl (steps ++ [st]) i ⟨r, phase⟩ := by
  have hstands : Stands i (run provider ttl steps) := ⟨_, hcall, nofun⟩
  cases hasks with
  | @served e hhit hentry hyoung hsame =>
      obtain ⟨hmade, hresult⟩ := h.entry _ e hentry
      rw [hsame] at hmade
      refine ⟨fun answer hphase => ?_, nofun, nofun⟩
      cases hphase
      exact ⟨e.made.ticket, _, (hmade.suits hstands).later st,
        (moves_run provider ttl steps st).result hresult, rfl⟩
  | @joined f hmiss hflight hsame =>
      have hmade := h.flight _ f hflight
      rw [hsame] at hmade
      refine ⟨nofun, fun ticket hphase => ?_, nofun⟩
      cases hphase
      exact (hmade.suits hstands).later st
  | @putOff f hmiss hflight hother =>
      obtain ⟨inv, hinv, hroute, hsignature, -⟩ := h.flight _ f hflight
      refine ⟨nofun, nofun, fun ticket hphase => ?_⟩
      cases hphase
      exact IsOther.later ⟨inv, hinv, hroute, hsignature ▸ hother⟩ st
  | started hmiss hnone =>
      refine ⟨nofun, fun ticket hphase => ?_, nofun⟩
      cases hphase
      refine ⟨⟨r, _, _⟩, ?_, rfl, rfl, steps, List.prefix_append _ _, hstands, rfl, rfl⟩
      rw [hinvocations, h.tickets]
      exact List.getElem?_concat_length

theorem step_calls (i : Nat) (call : OutlineCall)
    (hcall : (run provider ttl (steps ++ [st])).calls[i]? = some call) :
    Accounted provider ttl (steps ++ [st]) i call := by
  obtain ⟨r, phase⟩ := call
  rcases (moves_run provider ttl steps st).call hcall with hbefore | ⟨-, r', heq⟩ |
    ⟨r', c, phase', ticket?, hbefore, heq, hasks, hinvocations⟩ |
    ⟨r', ticket, own, result, hbefore, hresult, heq⟩
  · exact (h.calls i _ hbefore).later st
  · rw [heq]
    exact accounted_asking i r'
  · rw [heq]
    exact h.accounted_asked st hbefore hasks hinvocations
  · cases own with
    | false =>
        rw [heq]
        exact accounted_asking i r'
    | true =>
        obtain ⟨rfl, rfl⟩ := OutlineCall.mk.inj heq
        refine ⟨fun answer hphase => ?_, nofun, nofun⟩
        cases hphase
        exact ⟨ticket, result, ((h.calls i _ hbefore).own ticket rfl).later st,
          (moves_run provider ttl steps st).result hresult, rfl⟩

/-- One move keeps everything tied to its invocation. -/
theorem append_singleton : Sound provider ttl (steps ++ [st]) where
  tickets := h.step_tickets st
  flight := h.step_flight st
  entry := h.step_entry st
  apart := h.step_apart st
  stored := h.step_stored st
  calls := h.step_calls st

end Sound

theorem sound (provider : OutlineProvider) (ttl : Nat) (steps : List TrafficStep) :
    Sound provider ttl steps := by
  induction steps using List.reverseRecOn with
  | nil => exact sound_nil provider ttl
  | append_singleton steps st ih => exact ih.append_singleton st

/-! ### Every request -/

variable (provider ttl steps) in
/-- How the request at a place is met after some moves. -/
structure HonestlyMet (i : Nat) (call : OutlineCall) : Prop where
  /-- An answer, be it an outline or a fault, is what an invocation gave that suits the
  request. -/
  answered : ∀ answer, call.phase = .answered answer →
    ∃ ticket result, Suits provider ttl steps i call.request ticket ∧
      (run provider ttl steps).results.get? ticket = some result ∧
      answer = result.map fun outline => ⟨ticket, outline⟩
  /-- Where asking alone answers the request, an entry does that was stored less than the time
  in force ago. -/
  served : ∀ answer, call.phase = .asking →
    (run provider ttl (steps ++ [.ask i])).calls[i]? = some ⟨call.request, .answered answer⟩ →
    ∃ e, answer = .ok e.made ∧ e.signature = call.request.signature ∧
      StoredWithin provider ttl (run provider ttl steps).cache.ttl steps call.request.path.route e
  /-- Where an invocation for other content is under way and no entry serves the request, it
  waits for the end of that, and no invocation is started. -/
  putOff : ∀ f, call.phase = .asking →
    (run provider ttl steps).cache.flights.get? call.request.path.route = some f →
    f.signature ≠ call.request.signature →
    (run provider ttl steps).cache.valid? (run provider ttl steps).now call.request = none →
    (run provider ttl (steps ++ [.ask i])).calls[i]? =
        some ⟨call.request, .awaiting f.ticket false⟩ ∧
      (run provider ttl (steps ++ [.ask i])).invocations = (run provider ttl steps).invocations
  /-- Whatever an invocation for other content gives, the request asks again after its end. -/
  waitedOut : ∀ ticket, call.phase = .awaiting ticket false →
    IsOther provider ttl steps call.request ticket ∧
      ∀ st, (run provider ttl (steps ++ [st])).calls[i]? = some call ∨
        ((run provider ttl steps).results.get? ticket).isSome ∧
          (run provider ttl (steps ++ [st])).calls[i]? = some ⟨call.request, .asking⟩

theorem Sound.storedWithin (h : Sound provider ttl steps) {route : FilePath.Route}
    {e : CacheEntry} (he : (run provider ttl steps).cache.entries.get? route = some e)
    {millis : Nat} (hyoung : (run provider ttl steps).now - e.created < millis) :
    StoredWithin provider ttl millis steps route e := by
  obtain ⟨hcreated, past, st, hpast, habsent, hpresent, hnow⟩ := h.stored route e he
  refine ⟨past, st, hpast, habsent, hpresent, ?_⟩
  rw [hnow]
  omega

/-- A request that asking alone answers is answered from a young entry. -/
theorem Sound.served (h : Sound provider ttl steps)
    (hcall : (run provider ttl steps).calls[i]? = some ⟨r, .asking⟩) {answer : OutlineAnswer}
    (hanswered : (run provider ttl (steps ++ [.ask i])).calls[i]? = some ⟨r, .answered answer⟩) :
    ∃ e, answer = .ok e.made ∧ e.signature = r.signature ∧
      StoredWithin provider ttl (run provider ttl steps).cache.ttl steps r.path.route e := by
  rcases (moves_run provider ttl steps (.ask i)).call hanswered with hbefore | ⟨hnone, -⟩ |
    ⟨r', c, phase, ticket?, hbefore, heq, hasks, -⟩ | ⟨r', ticket, own, result, hbefore, -, -⟩
  · rw [hcall] at hbefore
    cases hbefore
  · rw [hcall] at hnone
    cases hnone
  · obtain ⟨rfl, rfl⟩ := OutlineCall.mk.inj heq
    cases hasks with
    | @served e hhit hentry hyoung hsame =>
        exact ⟨e, rfl, hsame, h.storedWithin hentry hyoung⟩
  · rw [hcall] at hbefore
    cases hbefore

/-- A request that no entry serves is put off while an invocation for other content is under
way. -/
theorem putOff_ask (hcall : (run provider ttl steps).calls[i]? = some ⟨r, .asking⟩) {f : Flight}
    (hflight : (run provider ttl steps).cache.flights.get? r.path.route = some f)
    (hother : f.signature ≠ r.signature)
    (hmiss : (run provider ttl steps).cache.valid? (run provider ttl steps).now r = none) :
    (run provider ttl (steps ++ [.ask i])).calls[i]? = some ⟨r, .awaiting f.ticket false⟩ ∧
      (run provider ttl (steps ++ [.ask i])).invocations =
        (run provider ttl steps).invocations := by
  obtain ⟨c, phase, ticket?, hasks, heq⟩ := step_ask hcall
  rw [run_append_singleton, heq]
  have hlt := (List.getElem?_eq_some_iff.mp hcall).1
  cases hasks with
  | served hhit =>
      rw [hmiss] at hhit
      cases hhit
  | @joined f' hmiss' hflight' hsame =>
      obtain rfl : f = f' := Option.some.inj (hflight.symm.trans hflight')
      exact absurd hsame hother
  | @putOff f' hmiss' hflight' hother' =>
      obtain rfl : f = f' := Option.some.inj (hflight.symm.trans hflight')
      refine ⟨?_, List.append_nil _⟩
      rw [List.getElem?_set, if_pos rfl, if_pos hlt]
  | started hmiss' hnone =>
      rw [hflight] at hnone
      cases hnone

/-- A request that was put off stays so until the invocation has ended, and then asks again. -/
theorem waitedOut_step
    (hcall : (run provider ttl steps).calls[i]? = some ⟨r, .awaiting ticket false⟩)
    (st : TrafficStep) :
    (run provider ttl (steps ++ [st])).calls[i]? = some ⟨r, .awaiting ticket false⟩ ∨
      ((run provider ttl steps).results.get? ticket).isSome ∧
        (run provider ttl (steps ++ [st])).calls[i]? = some ⟨r, .asking⟩ := by
  obtain ⟨call', hcall'⟩ := (moves_run provider ttl steps st).exists_call hcall
  rcases (moves_run provider ttl steps st).call hcall' with hbefore | ⟨hnone, -⟩ |
    ⟨r', c, phase', ticket?, hbefore, -⟩ | ⟨r', ticket', own, result, hbefore, hresult, heq⟩
  · rw [hcall] at hbefore
    rw [hcall', ← hbefore]
    exact .inl rfl
  · rw [hcall] at hnone
    cases hnone
  · rw [hcall] at hbefore
    cases hbefore
  · rw [hcall] at hbefore
    cases hbefore
    rw [hcall', heq, hresult]
    exact .inr ⟨rfl, rfl⟩

/-- After any moves, in any order, every request to the cache is honestly met. -/
theorem requests_are_honestly_met (provider : OutlineProvider) (ttl : Nat)
    (steps : List TrafficStep) {i : Nat} {call : OutlineCall}
    (hcall : (run provider ttl steps).calls[i]? = some call) :
    HonestlyMet provider ttl steps i call where
  answered := ((sound provider ttl steps).calls i call hcall).answered
  served answer hphase hanswered := by
    obtain ⟨r, phase⟩ := call
    obtain rfl : phase = .asking := hphase
    exact (sound provider ttl steps).served hcall hanswered
  putOff f hphase hflight hother hmiss := by
    obtain ⟨r, phase⟩ := call
    obtain rfl : phase = .asking := hphase
    exact putOff_ask hcall hflight hother hmiss
  waitedOut ticket hphase := by
    obtain ⟨r, phase⟩ := call
    obtain rfl : phase = .awaiting ticket false := hphase
    exact ⟨((sound provider ttl steps).calls i _ hcall).other ticket rfl, waitedOut_step hcall⟩

end Requests

/-- A request for the content of a file whose text is of a size. -/
def sized (size : Nat) : OutlineRequest := ⟨⟨[0x61]⟩, "", ⟨size, none, 0⟩⟩

/-- A file is edited while it is outlined. The second request waits the first invocation out and
gets one of its own. -/
def overtaken : List TrafficStep :=
  [.request (sized 1), .ask 0, .request (sized 2), .ask 1, .complete 0 (.ok ⟨[]⟩), .resume 1,
    .resume 0, .pass 3, .ask 1, .complete 1 (.error .unreadable), .resume 1]

theorem requests_are_honestly_met_overtaken :
    (run (.standIn "slow" 5) 100 overtaken).calls[1]? =
        some ⟨sized 2, .answered (.error .unreadable)⟩ ∧
      HonestlyMet (.standIn "slow" 5) 100 overtaken 1
        ⟨sized 2, .answered (.error .unreadable)⟩ := by
  have hcall : (run (.standIn "slow" 5) 100 overtaken).calls[1]? =
      some ⟨sized 2, .answered (.error .unreadable)⟩ := by
    rfl
  exact ⟨hcall, requests_are_honestly_met _ _ overtaken hcall⟩

end OutlineTraffic

end SpecExplorer
