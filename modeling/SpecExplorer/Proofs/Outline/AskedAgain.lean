/-
# Asking again

A request that was answered with an outline can be asked again for nothing, as long as the outline
is young and nothing else happens to the file: the entry is still there, no invocation is started,
and both get the same outline. That holds whether the first request started the invocation, joined
it or found the entry, and whoever stored it.

There is one exception. An entry that has lapsed counts again once the time that outlines count
for is raised. An invocation that was started in between for the same content is then under way
beside the entry, and replaces it when it ends.

The proof follows the entry from where the first request got it, or from where it was stored. What
could replace it is a flight, and a flight is held only as long as the request that started it
waits. So all flights of the file are for the content of the entry, and none is started while that
counts.
-/
import SpecExplorer.Proofs.Outline.Flight
import SpecExplorer.Proofs.Outline.Stored

namespace SpecExplorer

namespace OutlineTraffic

section History

variable (provider : OutlineProvider) (ttl : Nat)

/-- Some moves that come after others leave the requests for one content of a file to
themselves. -/
structure Undisturbed (past rest : List TrafficStep) (route : FilePath.Route)
    (signature : Signature) : Prop where
  /-- None makes the outlines of the file void or changes the time that outlines count for. -/
  kept : ∀ st ∈ rest, ¬ Voids route st ∧ ∀ millis, st ≠ .setTtl millis
  /-- At no moment does a request for other content of the file wait. One that comes and finds an
  answer at once, or does not ask meanwhile, is no concern. -/
  alone : ∀ more, more <+: rest → ∀ call ∈ (run provider ttl (past ++ more)).calls,
    ∀ ticket own, call.request.path.route = route → call.phase = .awaiting ticket own →
      call.request.signature = signature

/-- At some moment an entry was there and had become too old. -/
def Lapsed (steps : List TrafficStep) (route : FilePath.Route) (e : CacheEntry) : Prop :=
  Sometime provider ttl steps fun x =>
    x.cache.entries.get? route = some e ∧ x.cache.ttl ≤ x.now - e.created

/-- Another outline has come in place of the one that the request at a place was answered with. -/
structure Renewed (past : List TrafficStep) (i : Nat) (r : OutlineRequest) (e : CacheEntry)
    (again : MadeOutline) : Prop where
  /-- The request was answered from the entry as soon as it asked. -/
  served : (run provider ttl (past ++ [.ask i])).calls[i]? = some ⟨r, .answered (.ok e.made)⟩
  /-- The invocation that made the other outline was under way for the same content by then, -/
  beside : ∃ f, (run provider ttl past).cache.flights.get? r.path.route = some f ∧
    f.ticket = again.ticket ∧ f.signature = r.signature
  /-- since the entry had been too old before the time that outlines count for was raised. -/
  raised : Sometime provider ttl past fun x =>
    x.cache.entries.get? r.path.route = some e ∧ x.cache.ttl ≤ x.now - e.created ∧
      x.cache.ttl < (run provider ttl past).cache.ttl

end History

/-- For every flight there is a request that waits for it and has started it. -/
def Attended (x : OutlineTraffic) : Prop :=
  ∀ route f, x.cache.flights.get? route = some f → ∃ (k : Nat) (r : OutlineRequest),
    x.calls[k]? = some ⟨r, .awaiting f.ticket true⟩ ∧ r.path.route = route ∧
      r.signature = f.signature

/-! ### One move -/

section Move

variable {x y : OutlineTraffic} {st : TrafficStep} {route : FilePath.Route}

/-- A flight goes no later than the request that started it goes on. -/
theorem Moves.attended (h : Moves x st y) (hattended : Attended x) : Attended y := by
  intro route f hf
  cases h with
  | idle | completed | ttlSet | passed => exact hattended route f hf
  | requested r =>
      obtain ⟨k, r', hcall, hr⟩ := hattended route f hf
      exact ⟨k, r', by rw [List.getElem?_append_left (List.getElem?_eq_some_iff.mp hcall).1, hcall],
        hr⟩
  | @asked i r c phase ticket? hi hasks =>
      have hbefore (hf : x.cache.flights.get? route = some f) : ∃ (k : Nat) (r' : OutlineRequest),
          (x.calls.set i ⟨r, phase⟩)[k]? = some ⟨r', .awaiting f.ticket true⟩ ∧
            r'.path.route = route ∧ r'.signature = f.signature := by
        obtain ⟨k, r', hcall, hr⟩ := hattended route f hf
        refine ⟨k, r', ?_, hr⟩
        rw [List.getElem?_set_ne, hcall]
        rintro rfl
        rw [hi] at hcall
        cases hcall
      cases hasks with
      | served | joined | putOff => exact hbefore hf
      | started hmiss hnone =>
          rw [Table.get?_put] at hf
          split at hf
          next hroute =>
              obtain rfl := Option.some.inj hf
              refine ⟨i, r, ?_, hroute.symm, rfl⟩
              rw [List.getElem?_set_self (List.getElem?_eq_some_iff.mp hi).1]
          next => exact hbefore hf
  | @resumed i ticket own r c result hi hresult hretires =>
      obtain ⟨hbefore, hother⟩ : x.cache.flights.get? route = some f ∧
          ¬ (route = r.path.route ∧ f.ticket = ticket) := by
        cases hretires with
        | foreign hforeign =>
            exact ⟨hf, fun h => hforeign f (h.1 ▸ hf) h.2⟩
        | dropped | kept =>
            rw [Table.get?_erase] at hf
            split at hf
            next => cases hf
            next hroute => exact ⟨hf, fun h => hroute h.1⟩
      obtain ⟨k, r', hcall, hroute, hsignature⟩ := hattended route f hbefore
      refine ⟨k, r', ?_, hroute, hsignature⟩
      rw [List.getElem?_set_ne, hcall]
      rintro rfl
      obtain ⟨rfl, hphase⟩ := OutlineCall.mk.inj (Option.some.inj (hi.symm.trans hcall))
      exact hother ⟨hroute.symm, (CallPhase.awaiting.inj hphase).1.symm⟩
  | invalidated path =>
      rw [OutlineCache.invalidate, Table.get?_modify] at hf
      split at hf
      next =>
          obtain ⟨f₀, hf₀, rfl⟩ := Option.map_eq_some_iff.mp hf
          exact hattended route f₀ hf₀
      next => exact hattended route f hf
  | cleared =>
      rw [OutlineCache.clear, Table.get?_map] at hf
      obtain ⟨f₀, hf₀, rfl⟩ := Option.map_eq_some_iff.mp hf
      exact hattended route f₀ hf₀
  | providerSet => cases hf

/-- An invocation is started only where no entry serves the request. -/
theorem Moves.valid?_of_started (h : Moves x st y) {inv : OutlineInvocation}
    (hinv : y.invocations = x.invocations ++ [inv]) :
    x.cache.valid? x.now inv.request = none := by
  have hmore {more : List OutlineInvocation} (h : x.invocations ++ more = x.invocations ++ [inv]) :
      more = [inv] := List.append_cancel_left h
  cases h with
  | @asked i r c phase ticket? hcall hasks =>
      cases hasks with
      | served | joined | putOff => exact absurd (hmore hinv) nofun
      | started hmiss =>
          obtain rfl := List.singleton_inj.mp (hmore hinv)
          exact hmiss
  | idle | requested | completed | resumed | invalidated | cleared | ttlSet | providerSet
  | passed => exact absurd (hmore ((List.append_nil _).trans hinv)) nofun

/-- A flight of a file was there before, or has just been started for a request that no entry
serves. -/
theorem Moves.flight_or_missed (h : Moves x st y) {f : Flight}
    (hf : y.cache.flights.get? route = some f) :
    (∃ f₀, x.cache.flights.get? route = some f₀ ∧ f₀.ticket = f.ticket ∧
        f₀.signature = f.signature) ∨
      ∃ r : OutlineRequest, r.path.route = route ∧ r.signature = f.signature ∧
        x.cache.valid? x.now r = none := by
  rcases h.flight hf with ⟨f₀, hf₀, hticket, hsignature, -⟩ | ⟨r, hroute, rfl, hinv, -⟩
  · exact .inl ⟨f₀, hf₀, hticket, hsignature⟩
  · exact .inr ⟨r, hroute, rfl, h.valid?_of_started hinv⟩

/-- An entry stays until it is made void or what a flight of its file has made replaces it. -/
theorem Moves.entry_or_replaced (h : Moves x st y) (hvoids : ¬ Voids route st) {e : CacheEntry}
    (he : x.cache.entries.get? route = some e) :
    y.cache.entries.get? route = some e ∨
      ∃ f outline, x.cache.flights.get? route = some f ∧
        y.cache.entries.get? route = some ⟨f.signature, ⟨f.ticket, outline⟩, x.now⟩ := by
  cases h with
  | idle | requested | completed | ttlSet | passed => exact .inl he
  | asked hcall hasks => cases hasks <;> exact .inl he
  | @resumed i ticket own r c result hcall hresult hretires =>
      cases hretires with
      | foreign | dropped => exact .inl he
      | @kept f outline hflight hticket hfresh hok =>
          by_cases hroute : route = r.path.route
          · subst hroute hticket
            exact .inr ⟨f, outline, hflight, by rw [Table.get?_put, if_pos rfl]⟩
          · exact .inl (by rw [Table.get?_put, if_neg hroute, he])
  | invalidated path =>
      refine .inl ?_
      rw [OutlineCache.invalidate, Table.get?_erase, if_neg, he]
      exact fun hroute => hvoids hroute.symm
  | cleared => exact absurd trivial hvoids
  | providerSet => exact absurd trivial hvoids

theorem Moves.ttl_eq (h : Moves x st y) (hst : ∀ millis, st ≠ .setTtl millis) :
    y.cache.ttl = x.cache.ttl := by
  cases h with
  | asked hcall hasks => cases hasks <;> rfl
  | resumed hcall hresult hretires => cases hretires <;> rfl
  | ttlSet millis => exact absurd rfl (hst millis)
  | idle | requested | completed | invalidated | cleared | providerSet | passed => rfl

theorem valid?_of_entry {c : OutlineCache} {now : Nat} {r : OutlineRequest} {e : CacheEntry}
    (he : c.entries.get? r.path.route = some e) (hyoung : now - e.created < c.ttl)
    (hsame : e.signature = r.signature) : c.valid? now r = some e.made := by
  simp [OutlineCache.valid?, he, hyoung, hsame]

end Move

/-! ### All moves -/

section Moves

variable {provider : OutlineProvider} {ttl : Nat} {steps past rest : List TrafficStep}
  {route : FilePath.Route} {signature : Signature} {e e' : CacheEntry}

theorem attended (provider : OutlineProvider) (ttl : Nat) (steps : List TrafficStep) :
    Attended (run provider ttl steps) := by
  induction steps using List.reverseRecOn with
  | nil => exact fun _ _ hf => by cases hf
  | append_singleton steps st ih => exact (moves_run provider ttl steps st).attended ih

/-- Beside an entry an invocation is under way for the same content only if the entry has been too
old. -/
theorem lapsed_of_flight {f : Flight}
    (he : (run provider ttl steps).cache.entries.get? route = some e)
    (hf : (run provider ttl steps).cache.flights.get? route = some f)
    (hsame : f.signature = e.signature) : Lapsed provider ttl steps route e := by
  induction steps using List.reverseRecOn generalizing f with
  | nil => cases hf
  | append_singleton steps st ih =>
      have hmoves := moves_run provider ttl steps st
      rcases hmoves.entry he with ⟨hbefore, -⟩ | ⟨-, -, -, -, -, -, hnone, -⟩
      · rcases hmoves.flight_or_missed hf with ⟨f₀, hf₀, -, hsignature⟩ |
          ⟨r, rfl, hsignature, hmiss⟩
        · exact (ih hbefore hf₀ (hsignature.trans hsame)).later st
        · refine (Sometime.now ⟨hbefore, ?_⟩).later st
          by_contra hyoung
          rw [valid?_of_entry hbefore (Nat.lt_of_not_le hyoung) (hsignature.trans hsame).symm]
            at hmiss
          cases hmiss
      · rw [hnone] at hf
        cases hf

theorem now_le_append (provider : OutlineProvider) (ttl : Nat) (past rest : List TrafficStep) :
    (run provider ttl past).now ≤ (run provider ttl (past ++ rest)).now := by
  refine run_append_of_kept (fun x => (run provider ttl past).now ≤ x.now) (Nat.le_refl _) ?_ rest
  exact fun _ _ _ hmoves hle => Nat.le_trans hle hmoves.now_le

/-- An entry that counts beside an invocation for the same content was too old before the time that
outlines count for was raised. -/
theorem raised_of_flight {f : Flight}
    (he : (run provider ttl steps).cache.entries.get? route = some e)
    (hf : (run provider ttl steps).cache.flights.get? route = some f)
    (hsame : f.signature = e.signature)
    (hcounts : (run provider ttl steps).now - e.created < (run provider ttl steps).cache.ttl) :
    Sometime provider ttl steps fun x => x.cache.entries.get? route = some e ∧
      x.cache.ttl ≤ x.now - e.created ∧ x.cache.ttl < (run provider ttl steps).cache.ttl := by
  obtain ⟨past, hpast, hentry, hold⟩ := lapsed_of_flight he hf hsame
  refine ⟨past, hpast, hentry, hold, ?_⟩
  obtain ⟨rest, rfl⟩ := hpast
  have hnow := now_le_append provider ttl past rest
  omega

/-- Once stored, what an invocation has made is not under way any more. -/
theorem not_holds_after_stored (he : (run provider ttl past).cache.entries.get? route = some e)
    (rest : List TrafficStep) :
    ¬ (run provider ttl (past ++ rest)).Holds route e.made.ticket := by
  have hsound := sound provider ttl past
  obtain ⟨⟨inv, hinv, -⟩, -⟩ := hsound.entry route e he
  have hgone : ¬ (run provider ttl past).Holds route e.made.ticket := by
    rintro ⟨f, hf, hticket⟩
    exact hsound.apart route e f he hf hticket.symm
  exact (not_holds_later (List.getElem?_eq_some_iff.mp hinv).1 hgone rest).1

/-- What an invocation has made is stored once. -/
theorem entry_eq_of_ticket (he : (run provider ttl past).cache.entries.get? route = some e)
    (he' : (run provider ttl (past ++ rest)).cache.entries.get? route = some e')
    (hticket : e'.made.ticket = e.made.ticket) : e' = e := by
  induction rest using List.reverseRecOn with
  | nil =>
      rw [List.append_nil] at he'
      exact Option.some.inj (he'.symm.trans he)
  | append_singleton rest st ih =>
      rw [← List.append_assoc] at he'
      rcases (moves_run provider ttl (past ++ rest) st).entry he' with
        ⟨hbefore, -⟩ | ⟨f, outline, hf, -, -, rfl, -⟩
      · exact ih hbefore
      · exact absurd ⟨f, hf, hticket⟩ (not_holds_after_stored he rest)

/-- All through some moves, one entry at most is made by an invocation. -/
theorem entry_eq_of_prefix {past' : List TrafficStep} (hpast : past <+: steps)
    (hpast' : past' <+: steps) (he : (run provider ttl past).cache.entries.get? route = some e)
    (he' : (run provider ttl past').cache.entries.get? route = some e')
    (hticket : e'.made.ticket = e.made.ticket) : e' = e := by
  rcases List.prefix_or_prefix_of_prefix hpast hpast' with ⟨rest, rfl⟩ | ⟨rest, rfl⟩
  · exact entry_eq_of_ticket he he' hticket
  · exact (entry_eq_of_ticket he' he hticket.symm).symm

theorem answered_append {i : Nat} {r : OutlineRequest} {answer : OutlineAnswer}
    (h : (run provider ttl past).calls[i]? = some ⟨r, .answered answer⟩)
    (rest : List TrafficStep) :
    (run provider ttl (past ++ rest)).calls[i]? = some ⟨r, .answered answer⟩ := by
  refine run_append_of_kept (fun x => x.calls[i]? = some ⟨r, .answered answer⟩) h ?_ rest
  exact fun _ _ _ hmoves => hmoves.answered

namespace Undisturbed

variable (h : Undisturbed provider ttl past rest route signature)

include h

theorem left {more last : List TrafficStep} (heq : rest = more ++ last) :
    Undisturbed provider ttl past more route signature where
  kept st hst := h.kept st (heq ▸ List.mem_append_left last hst)
  alone more' hmore := h.alone more' (hmore.trans ⟨last, heq.symm⟩)

theorem right {more last : List TrafficStep} (heq : rest = more ++ last) :
    Undisturbed provider ttl (past ++ more) last route signature where
  kept st hst := h.kept st (heq ▸ List.mem_append_right more hst)
  alone last' hlast call hcall := by
    rw [List.append_assoc] at hcall
    refine h.alone (more ++ last') ?_ call hcall
    rw [heq]
    exact (List.prefix_append_right_inj more).mpr hlast

/-- Whatever is under way for the file is for the one content. -/
theorem flight {f : Flight}
    (hf : (run provider ttl (past ++ rest)).cache.flights.get? route = some f) :
    f.signature = signature := by
  obtain ⟨k, r, hcall, hroute, hsignature⟩ := attended provider ttl (past ++ rest) route f hf
  rw [← hsignature]
  exact h.alone rest (List.prefix_refl rest) _ (List.mem_of_getElem? hcall) f.ticket true hroute rfl

end Undisturbed

/-- In place of an entry there is that entry or one that a flight held at an earlier moment has
made, and nothing else is under way. -/
structure Succeeds (base x : OutlineTraffic) (route : FilePath.Route) (e e' : CacheEntry) :
    Prop where
  entry : x.cache.entries.get? route = some e'
  signature : e'.signature = e.signature
  created : e.created ≤ e'.created
  either : e' = e ∨ base.Holds route e'.made.ticket
  flight : ∀ f, x.cache.flights.get? route = some f → base.Holds route f.ticket

/-- As long as the entry counts and no other content is outlined, no flight is added, so at most
one of those at hand replaces the entry. -/
theorem Succeeds.step {base x y : OutlineTraffic} {st : TrafficStep}
    (h : Succeeds base x route e e') (hmoves : Moves x st y) (hvoids : ¬ Voids route st)
    (hcreated : e'.created ≤ x.now) (hyoung : x.now < e.created + x.cache.ttl)
    (hx : ∀ f, x.cache.flights.get? route = some f → f.signature = e.signature)
    (hy : ∀ f, y.cache.flights.get? route = some f → f.signature = e.signature) :
    ∃ e'', Succeeds base y route e e'' := by
  have hflight : ∀ f, y.cache.flights.get? route = some f → base.Holds route f.ticket := by
    intro f hf
    rcases hmoves.flight_or_missed hf with ⟨f₀, hf₀, hticket, -⟩ | ⟨r, rfl, hsignature, hmiss⟩
    · exact hticket ▸ h.flight f₀ hf₀
    · -- the entry would have served the request that started the flight
      have hcount : x.now - e'.created < x.cache.ttl := by
        have hle := h.created
        omega
      rw [valid?_of_entry h.entry hcount (h.signature.trans ((hy f hf).symm.trans hsignature.symm))]
        at hmiss
      cases hmiss
  rcases hmoves.entry_or_replaced hvoids h.entry with hentry | ⟨f, outline, hf, hentry⟩
  · exact ⟨e', hentry, h.signature, h.created, h.either, hflight⟩
  · exact ⟨_, hentry, hx f hf, Nat.le_trans h.created hcreated, .inr (h.flight f hf), hflight⟩

/-- An entry that counts at the end of moves that leave its file undisturbed is still there, or an
invocation that was under way at their beginning has replaced it. -/
theorem exists_succeeds (h : Undisturbed provider ttl past rest route signature)
    (he : (run provider ttl past).cache.entries.get? route = some e)
    (hsignature : e.signature = signature)
    (hyoung : (run provider ttl (past ++ rest)).now <
      e.created + (run provider ttl (past ++ rest)).cache.ttl) :
    ∃ e', Succeeds (run provider ttl past) (run provider ttl (past ++ rest)) route e e' := by
  induction rest using List.reverseRecOn with
  | nil =>
      rw [List.append_nil]
      exact ⟨e, he, rfl, Nat.le_refl _, .inl rfl, fun f hf => ⟨f, hf, rfl⟩⟩
  | append_singleton rest st ih =>
      have hmoves := moves_run provider ttl (past ++ rest) st
      have hquiet := h.kept st (List.mem_append_right rest List.mem_cons_self)
      have hbefore := h.left rfl
      have hend (f : Flight) (hf : (run provider ttl (past ++ (rest ++ [st]))).cache.flights.get?
          route = some f) : f.signature = e.signature := (h.flight hf).trans hsignature.symm
      rw [← List.append_assoc] at hyoung hend ⊢
      rw [hmoves.ttl_eq hquiet.2] at hyoung
      have hyoung := Nat.lt_of_le_of_lt hmoves.now_le hyoung
      obtain ⟨e', hsucceeds⟩ := ih hbefore hyoung
      have hcreated := ((sound provider ttl (past ++ rest)).stored route e' hsucceeds.entry).1
      exact hsucceeds.step hmoves hquiet.1 hcreated hyoung
        (fun f hf => (hbefore.flight hf).trans hsignature.symm) hend

end Moves

/-! ### The second request -/

section Again

variable {provider : OutlineProvider} {ttl : Nat} {steps past rest : List TrafficStep}
  {i j : Nat} {r r' : OutlineRequest} {e e' : CacheEntry} {made : MadeOutline}

/-- A request that an entry serves is answered as soon as it asks. -/
theorem ask_served (hcall : (run provider ttl steps).calls[j]? = some ⟨r', .asking⟩)
    (hvalid : (run provider ttl steps).cache.valid? (run provider ttl steps).now r' = some made) :
    (run provider ttl (steps ++ [.ask j])).calls[j]? = some ⟨r', .answered (.ok made)⟩ ∧
      (run provider ttl (steps ++ [.ask j])).invocations =
        (run provider ttl steps).invocations := by
  obtain ⟨c, phase, ticket?, hasks, heq⟩ := step_ask hcall
  rw [run_append_singleton, heq]
  have hlt := (List.getElem?_eq_some_iff.mp hcall).1
  cases hasks with
  | served hhit =>
      rw [hvalid] at hhit
      obtain rfl := Option.some.inj hhit
      exact ⟨by rw [List.getElem?_set_self hlt], List.append_nil _⟩
  | joined hmiss | putOff hmiss | started hmiss =>
      rw [hvalid] at hmiss
      cases hmiss

/-- A request that asks and is answered with an outline later, while no request for other content
waits, was answered from an entry at once, or has waited for an invocation of its own content. -/
theorem asked_first (hcall : (run provider ttl past).calls[i]? = some ⟨r, .asking⟩)
    (hanswered : (run provider ttl (past ++ .ask i :: rest)).calls[i]? =
      some ⟨r, .answered (.ok made)⟩)
    (h : Undisturbed provider ttl past (.ask i :: rest) r.path.route r.signature) :
    ((run provider ttl (past ++ [.ask i])).calls[i]? = some ⟨r, .answered (.ok made)⟩ ∧
        ∃ e, (run provider ttl past).cache.entries.get? r.path.route = some e ∧
          (run provider ttl past).now - e.created < (run provider ttl past).cache.ttl ∧
          e.made = made) ∨
      (run provider ttl (past ++ [.ask i])).Holds r.path.route made.ticket := by
  obtain ⟨c, phase, ticket?, hasks, heq⟩ := step_ask hcall
  have hrun := (run_append_singleton provider ttl past (.ask i)).trans heq
  have hphase : (run provider ttl (past ++ [.ask i])).calls[i]? = some ⟨r, phase⟩ := by
    rw [hrun, List.getElem?_set_self (List.getElem?_eq_some_iff.mp hcall).1]
  have happend : past ++ .ask i :: rest = past ++ [.ask i] ++ rest := by simp
  have hshares {ticket : Nat} (hwaits : phase = .awaiting ticket true) : made.ticket = ticket := by
    subst hwaits
    have hshares : Shares provider ttl (past ++ .ask i :: rest) i ticket :=
      ⟨past ++ [.ask i], ⟨rest, happend.symm⟩, r, hphase⟩
    obtain ⟨result, -, hresult⟩ := hshares.eq_answer hanswered rfl
    cases result with
    | error fault => cases hresult
    | ok outline =>
        cases hresult
        rfl
  cases hasks with
  | @served e hhit hentry hyoung hsame =>
      rw [happend, answered_append hphase rest] at hanswered
      cases hanswered
      exact .inl ⟨hphase, e, hentry, hyoung, rfl⟩
  | @joined f hmiss hflight hsame =>
      refine .inr ⟨f, ?_, (hshares rfl).symm⟩
      rw [hrun]
      exact hflight
  | @putOff f hmiss hflight hother =>
      have hbefore : Undisturbed provider ttl past [] r.path.route r.signature := h.left rfl
      exact absurd (hbefore.flight (by rw [List.append_nil]; exact hflight)) hother
  | started hmiss hnone =>
      refine .inr ⟨⟨_, r.signature, false⟩, ?_, (hshares rfl).symm⟩
      rw [hrun]
      exact (Table.get?_put _ _ _ _).trans (if_pos rfl)

/-- An outline is for the content of whoever is answered with it. -/
theorem signature_eq_of_answered
    (hanswered : (run provider ttl steps).calls[i]? = some ⟨r, .answered (.ok e.made)⟩)
    (hpast : past <+: steps)
    (he : (run provider ttl past).cache.entries.get? r.path.route = some e) :
    e.signature = r.signature := by
  obtain ⟨ticket, result, ⟨inv, hinv, -, hsignature, -⟩, -, hanswer⟩ :=
    ((sound provider ttl steps).calls i _ hanswered).answered _ rfl
  obtain ⟨⟨inv', hinv', -, hsignature', -⟩, -⟩ := (sound provider ttl past).entry _ e he
  obtain ⟨rest, rfl⟩ := hpast
  cases result with
  | error fault => cases hanswer
  | ok outline =>
      have hticket : e.made.ticket = ticket :=
        congrArg MadeOutline.ticket (Except.ok.inj hanswer)
      rw [hticket] at hinv'
      obtain rfl := Option.some.inj ((invocation_later hinv' rest).symm.trans hinv)
      exact hsignature'.symm.trans hsignature

/-- What a request waits for at a moment is stored later. -/
theorem stored_after {before : List TrafficStep} {st : TrafficStep}
    (hbefore : before ++ [st] <+: past ++ .ask i :: rest)
    (hpresent : (run provider ttl (before ++ [st])).cache.entries.get? r.path.route = some e)
    (hwaited : (run provider ttl (past ++ [.ask i])).Holds r.path.route e.made.ticket) :
    ∃ more after, .ask i :: rest = .ask i :: more ++ after ∧
      before ++ [st] = past ++ .ask i :: more := by
  have hpast : past ++ [.ask i] <+: past ++ .ask i :: rest :=
    (List.prefix_append_right_inj past).mpr ⟨rest, rfl⟩
  rcases List.prefix_or_prefix_of_prefix hpast hbefore with ⟨more, hmore⟩ | ⟨more, hmore⟩
  · obtain ⟨after, hafter⟩ := hbefore
    refine ⟨more, after, ?_, by simp [← hmore]⟩
    rw [← hmore] at hafter
    simpa using hafter.symm
  · rw [← hmore] at hwaited
    exact absurd hwaited (not_holds_after_stored hpresent more)

/-- Where an entry that counts is succeeded by the time of the second request, that is answered
from what is there. -/
theorem ask_succeeded {base : List TrafficStep}
    (hcall : (run provider ttl steps).calls[j]? = some ⟨r', .asking⟩)
    (hpath : r'.path.route = r.path.route) (hsame : e.signature = r'.signature)
    (hsucceeds : Succeeds (run provider ttl base) (run provider ttl steps) r.path.route e e')
    (hyoung : (run provider ttl steps).now < e.created + (run provider ttl steps).cache.ttl) :
    (run provider ttl (steps ++ [.ask j])).calls[j]? = some ⟨r', .answered (.ok e'.made)⟩ ∧
      (run provider ttl (steps ++ [.ask j])).invocations =
        (run provider ttl steps).invocations := by
  refine ask_served hcall (valid?_of_entry (hpath ▸ hsucceeds.entry) ?_
    (hsucceeds.signature.trans hsame))
  have hle := hsucceeds.created
  have hpast := ((sound provider ttl steps).stored _ e' hsucceeds.entry).1
  omega

/-- A request is answered with an outline, and from when it asked until another request for the
same content of the file asks, the file is undisturbed. If the outline was stored less than the
time in force ago, the second request starts no invocation and is answered at once, with the same
outline unless another has come in its place. -/
theorem asking_again_starts_nothing (hpath : r'.path.route = r.path.route)
    (hsame : r'.signature = r.signature)
    (hfirst : (run provider ttl past).calls[i]? = some ⟨r, .asking⟩)
    (hanswered : (run provider ttl (past ++ .ask i :: rest)).calls[i]? =
      some ⟨r, .answered (.ok e.made)⟩)
    (hsecond : (run provider ttl (past ++ .ask i :: rest)).calls[j]? = some ⟨r', .asking⟩)
    (hundisturbed : Undisturbed provider ttl past (.ask i :: rest) r.path.route r.signature)
    (hstored : StoredWithin provider ttl (run provider ttl (past ++ .ask i :: rest)).cache.ttl
      (past ++ .ask i :: rest) r.path.route e) :
    ∃ again, (run provider ttl (past ++ .ask i :: rest ++ [.ask j])).calls[j]? =
        some ⟨r', .answered (.ok again)⟩ ∧
      (run provider ttl (past ++ .ask i :: rest ++ [.ask j])).invocations =
        (run provider ttl (past ++ .ask i :: rest)).invocations ∧
      (again = e.made ∨ Renewed provider ttl past i r e again) := by
  obtain ⟨before, st, hbefore, habsent, hpresent, hnow⟩ := hstored
  have hsignature := signature_eq_of_answered hanswered hbefore hpresent
  obtain ⟨f, outline, -, -, -, heq, hnone, -⟩ :=
    ((moves_run provider ttl before st).entry hpresent).resolve_left fun h => habsent h.1
  have hyoung : (run provider ttl (past ++ .ask i :: rest)).now <
      e.created + (run provider ttl (past ++ .ask i :: rest)).cache.ttl := by
    rw [heq]
    exact hnow
  rcases asked_first hfirst hanswered hundisturbed with
    ⟨hserved, e₀, he₀, hcounts, hmade⟩ | hwaited
  · -- the entry it got is the stored one, since what an invocation has made is stored once
    obtain rfl := entry_eq_of_prefix hbefore (List.prefix_append past _) hpresent he₀
      (congrArg MadeOutline.ticket hmade)
    obtain ⟨e', hsucceeds⟩ := exists_succeeds hundisturbed he₀ hsignature hyoung
    obtain ⟨hcall, hinvocations⟩ :=
      ask_succeeded hsecond hpath (hsignature.trans hsame.symm) hsucceeds hyoung
    refine ⟨e'.made, hcall, hinvocations, ?_⟩
    rcases hsucceeds.either with rfl | ⟨f', hf', hticket⟩
    · exact .inl rfl
    · have hquiet : Undisturbed provider ttl past [] r.path.route r.signature :=
        hundisturbed.left rfl
      have hf'' := hquiet.flight (by rw [List.append_nil]; exact hf')
      exact .inr ⟨hserved, ⟨f', hf', hticket, hf''⟩,
        raised_of_flight he₀ hf' (hf''.trans hsignature.symm) hcounts⟩
  · -- the entry was stored since, and at that moment nothing was under way any more
    obtain ⟨more, after, hwindow, hmore⟩ := stored_after hbefore hpresent hwaited
    rw [hmore] at hpresent hnone
    rw [hwindow, ← List.append_assoc] at hyoung hsecond ⊢
    obtain ⟨e', hsucceeds⟩ :=
      exists_succeeds (hundisturbed.right hwindow) hpresent hsignature hyoung
    obtain ⟨hcall, hinvocations⟩ :=
      ask_succeeded hsecond hpath (hsignature.trans hsame.symm) hsucceeds hyoung
    obtain rfl := hsucceeds.either.resolve_right fun ⟨f', hf', _⟩ => by
      rw [hnone] at hf'
      cases hf'
    exact ⟨_, hcall, hinvocations, .inl rfl⟩

end Again

/-! ### Moves for one content -/

theorem request_mem_of_call {provider : OutlineProvider} {ttl : Nat} {steps : List TrafficStep}
    {call : OutlineCall} (hcall : call ∈ (run provider ttl steps).calls) :
    .request call.request ∈ steps := by
  induction steps using List.reverseRecOn generalizing call with
  | nil => cases hcall
  | append_singleton steps st ih =>
      have hmoves := moves_run provider ttl steps st
      generalize run provider ttl (steps ++ [st]) = y at hmoves hcall
      cases hmoves with
      | requested r =>
          rcases List.mem_append.mp hcall with hbefore | hnew
          · exact List.mem_append_left _ (ih hbefore)
          · rw [List.mem_singleton.mp hnew]
            exact List.mem_append_right _ List.mem_cons_self
      | asked hbefore | resumed hbefore =>
          have hrequest := ih (List.mem_of_getElem? hbefore)
          refine List.mem_append_left _ ?_
          rcases List.mem_or_eq_of_mem_set hcall with hcall | rfl
          · exact ih hcall
          · exact hrequest
      | idle | completed | invalidated | cleared | ttlSet | providerSet | passed =>
          exact List.mem_append_left _ (ih hcall)

/-- Moves leave a file undisturbed if they hold no request for other content of it. -/
theorem undisturbed_of_requests {provider : OutlineProvider} {ttl : Nat}
    {past rest : List TrafficStep} {route : FilePath.Route} {signature : Signature}
    (hkept : ∀ st ∈ rest, ¬ Voids route st ∧ ∀ millis, st ≠ .setTtl millis)
    (hrequests : ∀ r, .request r ∈ past ++ rest → r.path.route = route →
      r.signature = signature) : Undisturbed provider ttl past rest route signature where
  kept := hkept
  alone more hmore call hcall ticket own hroute _ := by
    refine hrequests call.request ?_ hroute
    exact ((List.prefix_append_right_inj past).mpr hmore).subset (request_mem_of_call hcall)

/-- What an invocation for a small text gives, stored at once. -/
def plainEntry : CacheEntry := ⟨(sized 1).signature, ⟨0, ⟨[]⟩⟩, 0⟩

/-- A request for another file. -/
def elsewhere : OutlineRequest := ⟨⟨[0x62]⟩, "", ⟨2, none, 0⟩⟩

/-- One request has started an invocation, and another one has come. -/
def starting : List TrafficStep := [.request (sized 1), .ask 0, .request (sized 1)]

/-- The first request stores what the invocation gives, another file is made void and outlined,
and only then the second request goes on. -/
def joining : List TrafficStep :=
  [.complete 0 (.ok ⟨[]⟩), .resume 0, .request elsewhere, .invalidate elsewhere.path, .ask 2,
    .pass 3, .resume 1, .request (sized 1)]

theorem asking_again_starts_nothing_joining :
    Undisturbed (.standIn "slow" 5) 100 starting (.ask 1 :: joining) (sized 1).path.route
        (sized 1).signature ∧
      StoredWithin (.standIn "slow" 5) 100 100 (starting ++ .ask 1 :: joining)
        (sized 1).path.route plainEntry ∧
      ∃ again, (run (.standIn "slow" 5) 100 (starting ++ .ask 1 :: joining ++ [.ask 3])).calls[3]? =
          some ⟨sized 1, .answered (.ok again)⟩ ∧
        (run (.standIn "slow" 5) 100 (starting ++ .ask 1 :: joining ++ [.ask 3])).invocations =
          (run (.standIn "slow" 5) 100 (starting ++ .ask 1 :: joining)).invocations ∧
        (again = plainEntry.made ∨
          Renewed (.standIn "slow" 5) 100 starting 1 (sized 1) plainEntry again) := by
  have hundisturbed : Undisturbed (.standIn "slow" 5) 100 starting (.ask 1 :: joining)
      (sized 1).path.route (sized 1).signature := by
    refine undisturbed_of_requests ?_ ?_
    · have hother : elsewhere.path.route ≠ (sized 1).path.route := by decide
      simp [joining, Voids, hother]
    · have hother : elsewhere.path.route ≠ (sized 1).path.route := by decide
      simp [starting, joining, hother]
  have hstored : StoredWithin (.standIn "slow" 5) 100 100 (starting ++ .ask 1 :: joining)
      (sized 1).path.route plainEntry :=
    ⟨starting ++ [.ask 1, .complete 0 (.ok ⟨[]⟩)], .resume 0, ⟨joining.drop 2, rfl⟩, nofun, rfl,
      by decide⟩
  exact ⟨hundisturbed, hstored,
    asking_again_starts_nothing rfl rfl rfl rfl rfl hundisturbed hstored⟩

/-- An entry becomes too old, a request starts another invocation, and the entry counts again. -/
def prolonged : List TrafficStep :=
  [.request (sized 1), .ask 0, .complete 0 (.ok ⟨[]⟩), .resume 0, .pass 20, .request (sized 1),
    .ask 1, .setTtl 1000, .request (sized 1)]

/-- The other invocation ends. -/
def renewing : List TrafficStep := [.complete 1 (.ok ⟨[]⟩), .resume 1, .request (sized 1)]

/-- A request that the entry serves beside the other invocation, and the next one after that has
ended, get different outlines. -/
theorem prolonged_entry_is_renewed :
    Undisturbed (.standIn "slow" 5) 10 prolonged (.ask 2 :: renewing) (sized 1).path.route
        (sized 1).signature ∧
      StoredWithin (.standIn "slow" 5) 10
        (run (.standIn "slow" 5) 10 (prolonged ++ .ask 2 :: renewing)).cache.ttl
        (prolonged ++ .ask 2 :: renewing) (sized 1).path.route plainEntry ∧
      (run (.standIn "slow" 5) 10 prolonged).calls[2]? = some ⟨sized 1, .asking⟩ ∧
      (run (.standIn "slow" 5) 10 (prolonged ++ .ask 2 :: renewing)).calls[2]? =
        some ⟨sized 1, .answered (.ok plainEntry.made)⟩ ∧
      (run (.standIn "slow" 5) 10 (prolonged ++ .ask 2 :: renewing ++ [.ask 3])).calls[3]? =
        some ⟨sized 1, .answered (.ok ⟨1, ⟨[]⟩⟩)⟩ := by
  refine ⟨undisturbed_of_requests ?_ ?_, ?_, rfl, rfl, rfl⟩
  · simp [renewing, Voids]
  · simp [prolonged, renewing]
  · exact ⟨prolonged.take 3, .resume 0, ⟨prolonged.drop 4 ++ .ask 2 :: renewing, rfl⟩, nofun, rfl,
      by decide⟩

end OutlineTraffic

end SpecExplorer
