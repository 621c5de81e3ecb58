/-
# How requests are counted

The cache counts how it met requests: from an entry, by an invocation under way, or by a new one.
A request is met when it is answered or waits for an invocation for its own content, and it counts
from then on. While it waits for other content, it does not, however often it has to ask again. The
counters rise in the middle of a request; that none is counted twice or left out holds after every
move of all requests, and whatever is done to the cache in between.
-/
import Mathlib.Data.List.Induction
import SpecExplorer.Proofs.Outline.Origin

namespace SpecExplorer

/-- How many requests have been met, one way or another. -/
def CacheStats.met (s : CacheStats) : Nat := s.hits + s.shared + s.computations

namespace OutlineCall

/-- Whether a request has its answer. -/
def hasReturned (call : OutlineCall) : Bool :=
  match call.phase with
  | .answered _ => true
  | _ => false

/-- Whether a request waits for an invocation for its own content. -/
def awaitsOwn (call : OutlineCall) : Bool :=
  match call.phase with
  | .awaiting _ own => own
  | _ => false

def isMet (call : OutlineCall) : Bool := call.hasReturned || call.awaitsOwn

theorem countP_isMet (calls : List OutlineCall) :
    calls.countP isMet = calls.countP hasReturned + calls.countP awaitsOwn := by
  induction calls with
  | nil => rfl
  | cons call rest ih =>
      -- What has returned waits for nothing.
      have hone : (if call.isMet then 1 else 0) =
          (if call.hasReturned then 1 else 0) + if call.awaitsOwn then 1 else 0 := by
        obtain ⟨r, phase⟩ := call
        cases phase with
        | asking => rfl
        | awaiting ticket own => cases own <;> rfl
        | answered answer => rfl
      rw [List.countP_cons, List.countP_cons, List.countP_cons, ih, hone]
      omega

end OutlineCall

/-- Whether a move is one of the request at a place. -/
def TrafficStep.isOf (i : Nat) : TrafficStep → Bool
  | .ask j => j = i
  | .resume j => j = i
  | _ => false

namespace OutlineTraffic

open OutlineCall

/-- Whether there is a request at a place, and it has been met. -/
def isMetAt (x : OutlineTraffic) (i : Nat) : Bool := x.calls[i]?.any isMet

/-- How often the counters have risen by moves of the request at a place. -/
def timesCounted (x : OutlineTraffic) (i : Nat) : List TrafficStep → Nat
  | [] => 0
  | st :: rest =>
    (if st.isOf i then (x.step st).cache.stats.met - x.cache.stats.met else 0) +
      (x.step st).timesCounted i rest

/-- The counters say what has happened. -/
structure Accounts (x : OutlineTraffic) : Prop where
  /-- Every invocation was counted. -/
  computations : x.cache.stats.computations = x.invocations.length
  /-- Every request that has been met was counted once. -/
  met : x.cache.stats.met = x.calls.countP isMet

/-! ### One move -/

section Moves

variable {x y : OutlineTraffic} {st : TrafficStep}

theorem countP_set_of_getElem? {α : Type} {p : α → Bool} {l : List α} {i : Nat} {a : α}
    (h : l[i]? = some a) (b : α) :
    (l.set i b).countP p + (p a).toNat = l.countP p + (p b).toNat := by
  obtain ⟨hlt, rfl⟩ := List.getElem?_eq_some_iff.mp h
  have hcounted : (if p l[i] then 1 else 0) ≤ l.countP p := List.boole_getElem_le_countP hlt
  have hnat : ∀ a, (p a).toNat = if p a then 1 else 0 := fun a => by cases p a <;> rfl
  rw [List.countP_set hlt, hnat, hnat]
  omega

theorem Retires.stats_eq {c c' : OutlineCache} {now ticket : Nat} {route : FilePath.Route}
    {result : Except OutlineFault Outline} (h : Retires c now route ticket result c') :
    c'.stats = c.stats := by
  cases h <;> rfl

/-- A request that asks is met and counted, or it is put off and not counted. -/
theorem Asks.met {c c' : OutlineCache} {now : Nat} {r : OutlineRequest} {phase : CallPhase}
    {ticket? : Option Nat} (h : Asks c now r c' phase ticket?) :
    c'.stats.met = c.stats.met + (isMet ⟨r, phase⟩).toNat := by
  cases h with
  | served => simp [CacheStats.met, isMet, hasReturned, Nat.add_right_comm]
  | joined =>
      simp [CacheStats.met, isMet, hasReturned, awaitsOwn, ← Nat.add_assoc, Nat.add_right_comm]
  | started | putOff => rfl

theorem Asks.computations {c c' : OutlineCache} {now : Nat} {r : OutlineRequest}
    {phase : CallPhase} {ticket? : Option Nat} (h : Asks c now r c' phase ticket?) :
    c'.stats.computations = c.stats.computations + ticket?.toList.length := by
  cases h <;> rfl

/-- A request that goes on is met if it was. -/
theorem isMet_resumed (r : OutlineRequest) (ticket : Nat) (own : Bool) (answer : OutlineAnswer) :
    isMet ⟨r, if own then .answered answer else .asking⟩ = isMet ⟨r, .awaiting ticket own⟩ := by
  cases own <;> rfl

theorem Moves.accounts (h : Moves x st y) (hx : x.Accounts) : y.Accounts := by
  cases h with
  | idle | completed | invalidated | cleared | ttlSet | providerSet | passed =>
      exact ⟨hx.computations, hx.met⟩
  | requested r =>
      refine ⟨hx.computations, ?_⟩
      show x.cache.stats.met = (x.calls ++ [OutlineCall.start r]).countP isMet
      rw [hx.met, List.countP_append]
      rfl
  | @asked i r c phase ticket? hcall hasks =>
      constructor
      · show c.stats.computations = _
        rw [hasks.computations, hx.computations, List.length_append]
        cases ticket? <;> rfl
      · show c.stats.met = (x.calls.set i ⟨r, phase⟩).countP isMet
        rw [hasks.met, hx.met, ← countP_set_of_getElem? hcall]
        rfl
  | @resumed i ticket own r c result hcall hresult hretires =>
      refine ⟨?_, ?_⟩
      · show c.stats.computations = x.invocations.length
        rw [hretires.stats_eq, hx.computations]
      · have hset := countP_set_of_getElem? (p := isMet) hcall
          ⟨r, if own then .answered (result.map fun outline => ⟨ticket, outline⟩) else .asking⟩
        rw [isMet_resumed, Nat.add_right_cancel_iff] at hset
        show c.stats.met = (x.calls.set i _).countP isMet
        rw [hretires.stats_eq, hx.met, hset]

theorem isMetAt_eq {i : Nat} {call : OutlineCall} (h : x.calls[i]? = some call) :
    x.isMetAt i = call.isMet := by
  rw [isMetAt, h, Option.any_some]

theorem isMetAt_congr {i : Nat} (h : y.calls[i]? = x.calls[i]?) : y.isMetAt i = x.isMetAt i := by
  rw [isMetAt, isMetAt, h]

/-- A request that has just come has not been met. -/
theorem isMetAt_start (x : OutlineTraffic) (r : OutlineRequest) (i : Nat) :
    ({ x with calls := x.calls ++ [OutlineCall.start r] } : OutlineTraffic).isMetAt i =
      x.isMetAt i := by
  rcases Nat.lt_trichotomy i x.calls.length with hlt | rfl | hgt
  · exact isMetAt_congr (List.getElem?_append_left hlt)
  · rw [isMetAt, List.getElem?_concat_length, isMetAt,
      List.getElem?_eq_none_iff.mpr (Nat.le_refl _)]
    rfl
  · have hnone : x.calls[i]? = none := List.getElem?_eq_none_iff.mpr (Nat.le_of_lt hgt)
    refine isMetAt_congr (hnone ▸ List.getElem?_eq_none_iff.mpr ?_)
    simpa using Nat.succ_le_of_lt hgt

/-- A move of a request changes nothing for the others. -/
theorem isMetAt_of_ne {i j : Nat} {call : OutlineCall} (hne : j ≠ i)
    (h : y.calls = x.calls.set j call) : y.isMetAt i = x.isMetAt i :=
  isMetAt_congr (by rw [h, List.getElem?_set_ne hne])

theorem isMetAt_set {i : Nat} {call call' : OutlineCall} (hcall : x.calls[i]? = some call)
    (h : y.calls = x.calls.set i call') : y.isMetAt i = call'.isMet :=
  isMetAt_eq (by rw [h, List.getElem?_set_self (List.getElem?_eq_some_iff.mp hcall).1])

/-- The counters rise for a request when it becomes met, and only then. -/
theorem Moves.isMetAt (h : Moves x st y) (i : Nat) : (y.isMetAt i).toNat =
    (x.isMetAt i).toNat + if st.isOf i then y.cache.stats.met - x.cache.stats.met else 0 := by
  cases h with
  | idle => rw [Nat.sub_self, ite_self, Nat.add_zero]
  | completed | invalidated | cleared | ttlSet | providerSet | passed => rfl
  | requested r => exact congrArg Bool.toNat (isMetAt_start x r i)
  | @asked j r c phase ticket? hcall hasks =>
      by_cases hj : j = i
      · subst hj
        rw [isMetAt_eq hcall, isMetAt_set hcall rfl, TrafficStep.isOf, decide_eq_true rfl,
          if_pos rfl, hasks.met, Nat.add_sub_cancel_left]
        exact (Nat.zero_add _).symm
      · rw [isMetAt_of_ne hj rfl, TrafficStep.isOf, decide_eq_false hj, if_neg nofun, Nat.add_zero]
  | @resumed j ticket own r c result hcall hresult hretires =>
      by_cases hj : j = i
      · subst hj
        rw [isMetAt_eq hcall, isMetAt_set hcall rfl, isMet_resumed, hretires.stats_eq, Nat.sub_self,
          ite_self, Nat.add_zero]
      · rw [isMetAt_of_ne hj rfl, TrafficStep.isOf, decide_eq_false hj, if_neg nofun, Nat.add_zero]

end Moves

/-! ### All moves -/

theorem accounts (provider : OutlineProvider) (ttl : Nat) (steps : List TrafficStep) :
    (run provider ttl steps).Accounts := by
  induction steps using List.reverseRecOn with
  | nil => exact ⟨rfl, rfl⟩
  | append_singleton steps st ih =>
      rw [run_append_singleton]
      exact (moves _ st).accounts ih

/-- A request has been counted as often as it has become met. -/
theorem isMetAt_foldl (x : OutlineTraffic) (i : Nat) (steps : List TrafficStep) :
    ((steps.foldl step x).isMetAt i).toNat = (x.isMetAt i).toNat + x.timesCounted i steps := by
  induction steps generalizing x with
  | nil => rfl
  | cons st rest ih =>
      rw [List.foldl_cons, ih, (moves x st).isMetAt i, timesCounted, Nat.add_assoc]

/-- The counters of the cache account for all that was asked: the computations are the invocations
that were started, and all counters together are the requests that have returned and those that
wait for an invocation for their own content. Each of these has been counted by just one of its own
moves, and no other request by any. -/
theorem counters_account_for_requests (provider : OutlineProvider) (ttl : Nat)
    (steps : List TrafficStep) :
    (run provider ttl steps).cache.stats.computations =
        (run provider ttl steps).invocations.length ∧
      (run provider ttl steps).cache.stats.hits + (run provider ttl steps).cache.stats.shared +
          (run provider ttl steps).cache.stats.computations =
        (run provider ttl steps).calls.countP hasReturned +
          (run provider ttl steps).calls.countP awaitsOwn ∧
      ∀ i call, (run provider ttl steps).calls[i]? = some call →
        (empty provider ttl).timesCounted i steps =
          if call.hasReturned ∨ call.awaitsOwn then 1 else 0 := by
  have haccounts := accounts provider ttl steps
  refine ⟨haccounts.computations, haccounts.met.trans (countP_isMet _), fun i call hcall => ?_⟩
  have htimes := isMetAt_foldl (empty provider ttl) i steps
  have hnone : (empty provider ttl).isMetAt i = false := rfl
  rw [← run, isMetAt_eq hcall, hnone, Bool.toNat_false, Nat.zero_add] at htimes
  rw [← htimes, isMet]
  cases call.hasReturned <;> cases call.awaitsOwn <;> rfl

end OutlineTraffic

end SpecExplorer
