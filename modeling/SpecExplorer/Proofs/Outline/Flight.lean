/-
# Invocations under way

An invocation of a provider is a process, so a file has one under way at most, and requests for the
same content share it. This module follows an invocation from its start until its flight is taken
from the cache. As long as it runs its flight is held for its file, so no other is started there.
Whoever waits for it with its own content gets what it gives. Its flight goes when a request that
waited for this very invocation finds it ended, or with the provider. Since no ticket is given
twice, a flight that is gone never comes back.
-/
import SpecExplorer.Proofs.Outline.Origin

namespace SpecExplorer

namespace OutlineTraffic

/-- The flight of a ticket is held for a file. -/
def Holds (x : OutlineTraffic) (route : FilePath.Route) (ticket : Nat) : Prop :=
  ∃ f, x.cache.flights.get? route = some f ∧ f.ticket = ticket

section History

variable (provider : OutlineProvider) (ttl : Nat)

/-- An invocation for a file has not ended, and the provider was not changed since it was
started. -/
structure UnderWay (steps : List TrafficStep) (route : FilePath.Route) (ticket : Nat) : Prop where
  started : ∃ inv, (run provider ttl steps).invocations[ticket]? = some inv ∧
    inv.request.path.route = route
  unended : (run provider ttl steps).results.get? ticket = none
  current : ∃ past rest, steps = past ++ rest ∧ (∀ next, .setProvider next ∉ rest) ∧
    (run provider ttl past).invocations.length ≤ ticket

/-- The request at a place has at some moment waited for an invocation with its own content, be it
that it had started the invocation or that it joined it. -/
def Shares (steps : List TrafficStep) (i ticket : Nat) : Prop :=
  Sometime provider ttl steps fun x => ∃ r, x.calls[i]? = some ⟨r, .awaiting ticket true⟩

/-- A move takes the flight of a ticket from the cache. -/
structure Retired (past : List TrafficStep) (st : TrafficStep) (route : FilePath.Route)
    (ticket : Nat) : Prop where
  before : (run provider ttl past).Holds route ticket
  after : ¬ (run provider ttl (past ++ [st])).Holds route ticket

end History

/-! ### One move -/

section Move

variable {x y : OutlineTraffic} {st : TrafficStep} {route : FilePath.Route} {ticket : Nat}

theorem Holds.eq_of_holds {ticket' : Nat} (h : x.Holds route ticket) (h' : x.Holds route ticket') :
    ticket = ticket' := by
  obtain ⟨f, hf, rfl⟩ := h
  obtain ⟨f', hf', rfl⟩ := h'
  obtain rfl := Option.some.inj (hf.symm.trans hf')
  rfl

/-- A flight stays where it is, until the provider is changed or a request that waited for its
invocation finds that ended. -/
theorem Moves.holds (h : Moves x st y) (hholds : x.Holds route ticket) :
    y.Holds route ticket ∨ (∃ next, st = .setProvider next) ∨
      ∃ i r own, st = .resume i ∧ x.calls[i]? = some ⟨r, .awaiting ticket own⟩ ∧
        r.path.route = route ∧ (x.results.get? ticket).isSome := by
  obtain ⟨f, hf, rfl⟩ := hholds
  cases h with
  | idle | requested | completed | ttlSet | passed => exact .inl ⟨f, hf, rfl⟩
  | providerSet next => exact .inr (.inl ⟨next, rfl⟩)
  | @asked i r c phase ticket? hcall hasks =>
      refine .inl ⟨f, ?_, rfl⟩
      cases hasks with
      | served | joined | putOff => exact hf
      | started hmiss hnone =>
          rw [Table.get?_put, if_neg, hf]
          rintro rfl
          rw [hnone] at hf
          cases hf
  | invalidated path =>
      refine .inl ?_
      rw [Holds, OutlineCache.invalidate, Table.get?_modify, hf]
      split
      · exact ⟨_, rfl, rfl⟩
      · exact ⟨f, rfl, rfl⟩
  | cleared =>
      refine .inl ?_
      rw [Holds, OutlineCache.clear, Table.get?_map, hf]
      exact ⟨_, rfl, rfl⟩
  | @resumed i waited own r c result hcall hresult hretires =>
      by_cases hroute : route = r.path.route
      · subst hroute
        cases hretires with
        | foreign => exact .inl ⟨f, hf, rfl⟩
        | dropped hflight hticket | kept hflight hticket =>
            obtain rfl := Option.some.inj (hf.symm.trans hflight)
            subst hticket
            exact .inr (.inr ⟨i, r, own, rfl, hcall, rfl, by rw [hresult]; rfl⟩)
      · refine .inl ⟨f, ?_, rfl⟩
        cases hretires with
        | foreign => exact hf
        | dropped | kept => rw [Table.get?_erase, if_neg hroute, hf]

/-- The flight of an invocation that has just been started is held for its file. -/
theorem Moves.holds_started (h : Moves x st y)
    (htickets : x.cache.nextTicket = x.invocations.length) {inv : OutlineInvocation}
    (hbefore : x.invocations[ticket]? = none) (hinv : y.invocations[ticket]? = some inv) :
    y.Holds inv.request.path.route ticket := by
  cases h with
  | idle | requested | completed | resumed | invalidated | cleared | ttlSet | providerSet
  | passed =>
      rw [hbefore] at hinv
      cases hinv
  | @asked i r c phase ticket? hcall hasks =>
      cases hasks with
      | served | joined | putOff =>
          rw [Option.map_none, Option.toList_none, List.append_nil, hbefore] at hinv
          cases hinv
      | started hmiss hnone =>
          rw [Option.map_some, Option.toList_some] at hinv
          have hle : x.invocations.length ≤ ticket := List.getElem?_eq_none_iff.mp hbefore
          have hlt := (List.getElem?_eq_some_iff.mp hinv).1
          rw [List.length_append, List.length_singleton] at hlt
          obtain rfl : ticket = x.invocations.length := by omega
          rw [List.getElem?_concat_length] at hinv
          obtain rfl := Option.some.inj hinv
          exact ⟨_, by rw [Table.get?_put, if_pos rfl], htickets⟩

/-- A flight that was not held before has the next ticket. -/
theorem Moves.holds_before (h : Moves x st y) (hholds : y.Holds route ticket) :
    x.Holds route ticket ∨ ticket = x.cache.nextTicket := by
  obtain ⟨f, hf, rfl⟩ := hholds
  rcases h.flight hf with ⟨f₀, hf₀, hticket, -⟩ | ⟨r, -, rfl, -⟩
  · exact .inl ⟨f₀, hf₀, hticket⟩
  · exact .inr rfl

theorem Moves.invocations_le (h : Moves x st y) : x.invocations.length ≤ y.invocations.length := by
  cases h with
  | asked => simp
  | idle | requested | completed | resumed | invalidated | cleared | ttlSet | providerSet
  | passed => exact Nat.le_refl _

/-- A request that waits for an invocation with its own content still does, or has just been
answered with what that gave. -/
theorem Moves.awaiting_own (h : Moves x st y) {i : Nat} {r : OutlineRequest}
    (hcall : x.calls[i]? = some ⟨r, .awaiting ticket true⟩) :
    y.calls[i]? = some ⟨r, .awaiting ticket true⟩ ∨
      ∃ result, y.results.get? ticket = some result ∧
        y.calls[i]? = some ⟨r, .answered (result.map fun outline => ⟨ticket, outline⟩)⟩ := by
  obtain ⟨call', hcall'⟩ := h.exists_call hcall
  rcases h.call hcall' with hbefore | ⟨hnone, -⟩ | ⟨r', c, phase, ticket?, hbefore, -⟩ |
    ⟨r', ticket', own, result, hbefore, hresult, heq⟩
  · exact .inl (hcall'.trans (hbefore.symm.trans hcall))
  · rw [hcall] at hnone
    cases hnone
  · rw [hcall] at hbefore
    cases hbefore
  · rw [hcall] at hbefore
    cases hbefore
    exact .inr ⟨result, h.result hresult, by rw [hcall', heq]; rfl⟩

/-- An answer is for good. -/
theorem Moves.answered (h : Moves x st y) {i : Nat} {r : OutlineRequest} {answer : OutlineAnswer}
    (hcall : x.calls[i]? = some ⟨r, .answered answer⟩) :
    y.calls[i]? = some ⟨r, .answered answer⟩ := by
  obtain ⟨call', hcall'⟩ := h.exists_call hcall
  rcases h.call hcall' with hbefore | ⟨hnone, -⟩ | ⟨r', c, phase, ticket?, hbefore, -⟩ |
    ⟨r', ticket', own, result, hbefore, -⟩
  · exact hcall'.trans (hbefore.symm.trans hcall)
  · rw [hcall] at hnone
    cases hnone
  · rw [hcall] at hbefore
    cases hbefore
  · rw [hcall] at hbefore
    cases hbefore

end Move

/-! ### All moves -/

section Moves

variable {provider : OutlineProvider} {ttl : Nat} {steps : List TrafficStep}
  {route : FilePath.Route} {ticket : Nat}

/-- An invocation under way was so before the last move, unless that has started it. -/
theorem UnderWay.before {st : TrafficStep}
    (h : UnderWay provider ttl (steps ++ [st]) route ticket) :
    (∀ next, st ≠ .setProvider next) ∧
      (UnderWay provider ttl steps route ticket ∨
        (run provider ttl steps).invocations[ticket]? = none) := by
  obtain ⟨⟨inv, hinv, hroute⟩, hunended, past, rest, heq, hcurrent, hle⟩ := h
  have hlt := (List.getElem?_eq_some_iff.mp hinv).1
  rcases List.eq_nil_or_concat' rest with rfl | ⟨rest, last, rfl⟩
  · rw [List.append_nil] at heq
    rw [heq] at hlt
    omega
  · rw [← List.append_assoc] at heq
    obtain ⟨rfl, hlast⟩ := List.append_inj' heq rfl
    obtain rfl := List.singleton_inj.mp hlast
    refine ⟨fun next hnext => hcurrent next (by simp [hnext]), ?_⟩
    have hmoves := moves_run provider ttl (past ++ rest) st
    cases hbefore : (run provider ttl (past ++ rest)).invocations[ticket]? with
    | none => exact .inr rfl
    | some inv' =>
        obtain rfl := Option.some.inj ((hmoves.invocation hbefore).symm.trans hinv)
        refine .inl ⟨⟨inv', hbefore, hroute⟩, ?_, past, rest, rfl, fun next hnext =>
          hcurrent next (List.mem_append_left _ hnext), hle⟩
        by_contra hended
        obtain ⟨result, hresult⟩ := Option.ne_none_iff_exists'.mp hended
        rw [hmoves.result hresult] at hunended
        cases hunended

/-- As long as an invocation is under way, its flight is held for its file. -/
theorem UnderWay.holds (h : UnderWay provider ttl steps route ticket) :
    (run provider ttl steps).Holds route ticket := by
  induction steps using List.reverseRecOn with
  | nil =>
      obtain ⟨inv, hinv, -⟩ := h.started
      cases hinv
  | append_singleton steps st ih =>
      have hmoves := moves_run provider ttl steps st
      obtain ⟨hprovider, hbefore | hbefore⟩ := h.before
      · refine (hmoves.holds (ih hbefore)).resolve_right ?_
        rintro (⟨next, hnext⟩ | ⟨i, r, own, -, -, -, hended⟩)
        · exact hprovider next hnext
        · rw [hbefore.unended] at hended
          cases hended
      · obtain ⟨inv, hinv, rfl⟩ := h.started
        exact hmoves.holds_started (sound provider ttl steps).tickets hbefore hinv

/-- A request that shares an invocation waits for it, or was answered with what it gave. -/
theorem Shares.waits_or_answered {i : Nat} (h : Shares provider ttl steps i ticket) :
    ∃ r, (run provider ttl steps).calls[i]? = some ⟨r, .awaiting ticket true⟩ ∨
      ∃ result, (run provider ttl steps).results.get? ticket = some result ∧
        (run provider ttl steps).calls[i]? =
          some ⟨r, .answered (result.map fun outline => ⟨ticket, outline⟩)⟩ := by
  induction steps using List.reverseRecOn with
  | nil =>
      obtain ⟨past, hpast, r, hcall⟩ := h
      rw [List.prefix_nil.mp hpast] at hcall
      cases hcall
  | append_singleton steps st ih =>
      have hmoves := moves_run provider ttl steps st
      obtain ⟨past, hpast, r, hcall⟩ := h
      rcases List.prefix_concat_iff.mp hpast with rfl | hpast
      · exact ⟨r, .inl hcall⟩
      · obtain ⟨r', hwaits | ⟨result, hresult, hanswered⟩⟩ := ih ⟨past, hpast, r, hcall⟩
        · exact ⟨r', hmoves.awaiting_own hwaits⟩
        · exact ⟨r', .inr ⟨result, hmoves.result hresult, hmoves.answered hanswered⟩⟩

/-- The flight of a ticket that was given and is not held is never held again. -/
theorem not_holds_later (hstarted : ticket < (run provider ttl steps).invocations.length)
    (h : ¬ (run provider ttl steps).Holds route ticket) (rest : List TrafficStep) :
    ¬ (run provider ttl (steps ++ rest)).Holds route ticket ∧
      ticket < (run provider ttl (steps ++ rest)).invocations.length := by
  induction rest using List.reverseRecOn with
  | nil =>
      rw [List.append_nil]
      exact ⟨h, hstarted⟩
  | append_singleton rest st ih =>
      obtain ⟨hgone, hlt⟩ := ih
      have hmoves := moves_run provider ttl (steps ++ rest) st
      rw [← List.append_assoc]
      refine ⟨fun hholds => ?_, Nat.lt_of_lt_of_le hlt hmoves.invocations_le⟩
      rcases hmoves.holds_before hholds with hbefore | hnext
      · exact hgone hbefore
      · rw [(sound provider ttl (steps ++ rest)).tickets] at hnext
        omega

/-- A flight that is held belongs to an invocation for the file. -/
theorem Holds.invocation (h : (run provider ttl steps).Holds route ticket) :
    ∃ inv, (run provider ttl steps).invocations[ticket]? = some inv ∧
      inv.request.path.route = route := by
  obtain ⟨f, hf, rfl⟩ := h
  obtain ⟨inv, hinv, hroute, -⟩ := (sound provider ttl steps).flight route f hf
  exact ⟨inv, hinv, hroute⟩

theorem invocation_later {inv : OutlineInvocation}
    (h : (run provider ttl steps).invocations[ticket]? = some inv) (rest : List TrafficStep) :
    (run provider ttl (steps ++ rest)).invocations[ticket]? = some inv := by
  refine run_append_of_kept (fun x => x.invocations[ticket]? = some inv) h ?_ rest
  exact fun _ _ _ hmoves => hmoves.invocation

/-- Once a flight is retired, no later move retires it. -/
theorem Retired.not_later {past : List TrafficStep} {st st' : TrafficStep}
    (h : Retired provider ttl past st route ticket) {route' : FilePath.Route}
    (rest : List TrafficStep) :
    ¬ Retired provider ttl (past ++ [st] ++ rest) st' route' ticket := by
  intro h'
  obtain ⟨inv, hinv, hroute⟩ := h.before.invocation
  obtain ⟨inv', hinv', hroute'⟩ := h'.before.invocation
  have hinv₁ := (moves_run provider ttl past st).invocation hinv
  obtain rfl := Option.some.inj ((invocation_later hinv₁ rest).symm.trans hinv')
  subst hroute hroute'
  exact (not_holds_later (List.getElem?_eq_some_iff.mp hinv₁).1 h.after rest).1 h'.before

end Moves

/-! ### Every invocation -/

section Every

variable (provider : OutlineProvider) (ttl : Nat) (steps : List TrafficStep)

/-- How invocations go in some moves. -/
structure Orderly : Prop where
  /-- A file has one invocation under way at most that was started since the last change of
  provider. -/
  single : ∀ route ticket ticket', UnderWay provider ttl steps route ticket →
    UnderWay provider ttl steps route ticket' → ticket = ticket'
  /-- A request that shares an invocation has got what that gave, or still waits and gets it as
  soon as it goes on after the end. -/
  shared : ∀ i ticket, Shares provider ttl steps i ticket →
    ∃ r, (∃ result, (run provider ttl steps).results.get? ticket = some result ∧
        (run provider ttl steps).calls[i]? =
          some ⟨r, .answered (result.map fun outline => ⟨ticket, outline⟩)⟩) ∨
      (run provider ttl steps).calls[i]? = some ⟨r, .awaiting ticket true⟩ ∧
        ∀ result, (run provider ttl steps).results.get? ticket = some result →
          (run provider ttl (steps ++ [.resume i])).calls[i]? =
            some ⟨r, .answered (result.map fun outline => ⟨ticket, outline⟩)⟩
  /-- Requests that share an invocation have the same answer, once they have one. -/
  alike : ∀ i j ticket call call' answer answer', Shares provider ttl steps i ticket →
    Shares provider ttl steps j ticket →
    (run provider ttl steps).calls[i]? = some call → call.phase = .answered answer →
    (run provider ttl steps).calls[j]? = some call' → call'.phase = .answered answer' →
    answer = answer'
  /-- A flight goes with the provider, or when a request that waited for its invocation finds that
  ended. -/
  retired : ∀ past st route ticket, past ++ [st] <+: steps →
    Retired provider ttl past st route ticket →
    (∃ next, st = .setProvider next) ∨
      ∃ i r own, st = .resume i ∧
        (run provider ttl past).calls[i]? = some ⟨r, .awaiting ticket own⟩ ∧
        r.path.route = route ∧ ((run provider ttl past).results.get? ticket).isSome
  /-- A flight goes once. -/
  once : ∀ past st past' st' route route' ticket, past ++ [st] <+: steps →
    past' ++ [st'] <+: steps → Retired provider ttl past st route ticket →
    Retired provider ttl past' st' route' ticket → past = past'

variable {provider ttl steps}

/-- A request that waits for an invocation with its own content is answered when it goes on after
the end of that. -/
theorem resume_own {i ticket : Nat} {r : OutlineRequest} {result : Except OutlineFault Outline}
    (hcall : (run provider ttl steps).calls[i]? = some ⟨r, .awaiting ticket true⟩)
    (hresult : (run provider ttl steps).results.get? ticket = some result) :
    (run provider ttl (steps ++ [.resume i])).calls[i]? =
      some ⟨r, .answered (result.map fun outline => ⟨ticket, outline⟩)⟩ := by
  have hlt := (List.getElem?_eq_some_iff.mp hcall).1
  rw [run_append_singleton, step, hcall]
  simp [hresult, OutlineCall.resume, hlt]

theorem Shares.eq_answer {i ticket : Nat} (h : Shares provider ttl steps i ticket)
    {call : OutlineCall} {answer : OutlineAnswer}
    (hcall : (run provider ttl steps).calls[i]? = some call)
    (hphase : call.phase = .answered answer) :
    ∃ result, (run provider ttl steps).results.get? ticket = some result ∧
      answer = result.map fun outline => ⟨ticket, outline⟩ := by
  obtain ⟨r, hwaits | ⟨result, hresult, hanswered⟩⟩ := h.waits_or_answered
  · obtain rfl := Option.some.inj (hwaits.symm.trans hcall)
    cases hphase
  · obtain rfl := Option.some.inj (hanswered.symm.trans hcall)
    cases hphase
    exact ⟨result, hresult, rfl⟩

/-- After any moves, in any order, invocations go orderly: a file has one under way at most, all
that share it get the same, and its flight goes once, by one that waited for it. -/
theorem invocations_are_shared_and_retired_once (provider : OutlineProvider) (ttl : Nat)
    (steps : List TrafficStep) : Orderly provider ttl steps where
  single route ticket ticket' h h' := h.holds.eq_of_holds h'.holds
  shared i ticket h := by
    obtain ⟨r, hwaits | hanswered⟩ := h.waits_or_answered
    · exact ⟨r, .inr ⟨hwaits, fun result hresult => resume_own hwaits hresult⟩⟩
    · exact ⟨r, .inl hanswered⟩
  alike i j ticket call call' answer answer' hi hj hcall hphase hcall' hphase' := by
    obtain ⟨result, hresult, rfl⟩ := hi.eq_answer hcall hphase
    obtain ⟨result', hresult', rfl⟩ := hj.eq_answer hcall' hphase'
    obtain rfl := Option.some.inj (hresult.symm.trans hresult')
    rfl
  retired past st route ticket _ h :=
    ((moves_run provider ttl past st).holds h.before).resolve_left h.after
  once past st past' st' route route' ticket hpast hpast' h h' := by
    rcases Nat.lt_trichotomy past.length past'.length with hlt | heq | hlt
    · obtain ⟨rest, rfl⟩ : past ++ [st] <+: past' :=
        List.prefix_of_prefix_length_le hpast ((List.prefix_append _ _).trans hpast')
          (by simpa [Nat.succ_le_iff] using hlt)
      exact absurd h' (h.not_later rest)
    · exact (List.prefix_of_prefix_length_le ((List.prefix_append _ _).trans hpast)
        ((List.prefix_append _ _).trans hpast') (Nat.le_of_eq heq)).eq_of_length heq
    · obtain ⟨rest, rfl⟩ : past' ++ [st'] <+: past :=
        List.prefix_of_prefix_length_le hpast' ((List.prefix_append _ _).trans hpast)
          (by simpa [Nat.succ_le_iff] using hlt)
      exact absurd h (h'.not_later rest)

end Every

end OutlineTraffic

end SpecExplorer
