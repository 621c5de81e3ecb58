/-
# Clicks side by side

Any number of calls wait for a second click, each on a target of its own or on one that others wait
on as well, while all that wait are dropped from time to time. When the time of a call is up and the
call was dropped as well before it is looked at, it may notice either. All else is in order: what
is told apart as the second of a double click has used up just one call that waited, that call is
never used up again, and it does nothing, unless it notices its time only.
-/
import SpecExplorer.Proofs.Explorer.Activities
import SpecExplorer.Proofs.Explorer.Succession

namespace SpecExplorer

/-! ### The tracker -/

namespace ClickTracker

/-- What a click does: it takes the place of the one that waits, or waits in turn. -/
inductive Presses (t : ClickTracker) (target : ClickTarget) : ClickTracker × Pressed → Prop
  | double {id : Nat} (hwaiting : t.waiting.get? target = some id) :
      Presses t target
        ({ t with waiting := t.waiting.erase target, dropped := t.dropped ++ [id] }, .double)
  | first (hfree : t.waiting.get? target = none) :
      Presses t target
        ({ t with next := t.next + 1, waiting := t.waiting.put target t.next }, .first t.next)

theorem presses (t : ClickTracker) (target : ClickTarget) : Presses t target (t.press target) := by
  unfold press
  split
  next id hwaiting => exact .double hwaiting
  next hfree => exact .first hfree

/-- A click waits on one target at most, and then it was not dropped. -/
structure Regular (t : ClickTracker) : Prop where
  keys : t.waiting.keys.Nodup
  given : ∀ target id, t.waiting.get? target = some id → id < t.next
  dropped : ∀ id, t.isDropped id → id < t.next
  own : ∀ target other id, t.waiting.get? target = some id → t.waiting.get? other = some id →
    target = other
  kept : ∀ target id, t.waiting.get? target = some id → ¬ t.isDropped id

section

variable {t : ClickTracker} {target other : ClickTarget} {id k : Nat}

theorem isDropped_iff : t.isDropped k ↔ k ∈ t.dropped := by
  rw [isDropped, List.contains_iff_mem]

theorem get?_expire :
    (t.expire target id).waiting.get? other = some k ↔
      t.waiting.get? other = some k ∧ ¬ (other = target ∧ k = id) := by
  unfold expire
  split
  next hwaiting =>
      show (t.waiting.erase target).get? other = some k ↔ _
      rw [Table.get?_erase]
      split
      next heq =>
          subst heq
          simp [hwaiting, eq_comm]
      next hne => simp [hne]
  next hnot =>
      refine ⟨fun hk => ⟨hk, ?_⟩, And.left⟩
      rintro ⟨rfl, rfl⟩
      exact hnot hk

theorem dropped_expire : (t.expire target id).dropped = t.dropped := by
  unfold expire
  split <;> rfl

theorem next_expire : (t.expire target id).next = t.next := by
  unfold expire
  split <;> rfl

theorem Regular.isDropped_cancelAll (h : t.Regular) :
    t.cancelAll.isDropped k ↔ t.isDropped k ∨ ∃ target, t.waiting.get? target = some k := by
  simp only [isDropped_iff, cancelAll, List.mem_append, List.mem_map,
    Table.get?_eq_some_iff_mem h.keys, Prod.exists, exists_eq_right]

theorem regular_empty : empty.Regular where
  keys := List.nodup_nil
  given := by intro target id hwaiting; cases hwaiting
  dropped := by intro id hdropped; cases hdropped
  own := by intro target other id hwaiting; cases hwaiting
  kept := by intro target id hwaiting; cases hwaiting

/-- The number of the next click is not in use. -/
theorem Regular.next_fresh (h : t.Regular) (target : ClickTarget) :
    t.waiting.get? target ≠ some t.next :=
  fun hwaiting => Nat.lt_irrefl _ (h.given target _ hwaiting)

theorem Regular.double (h : t.Regular) (hwaiting : t.waiting.get? target = some id) :
    Regular { t with waiting := t.waiting.erase target, dropped := t.dropped ++ [id] } := by
  have herase : ∀ other k, (t.waiting.erase target).get? other = some k →
      other ≠ target ∧ t.waiting.get? other = some k := by
    intro other k hk
    rw [Table.get?_erase] at hk
    split at hk
    next => cases hk
    next hne => exact ⟨hne, hk⟩
  refine ⟨Table.nodup_keys_erase h.keys target, ?_, ?_, ?_, ?_⟩
  · exact fun other k hk => h.given other k (herase other k hk).2
  · intro k hk
    rcases List.mem_append.mp (isDropped_iff.mp hk) with hbefore | hnew
    · exact h.dropped k (isDropped_iff.mpr hbefore)
    · obtain rfl := List.mem_singleton.mp hnew
      exact h.given target k hwaiting
  · exact fun a b k ha hb => h.own a b k (herase a k ha).2 (herase b k hb).2
  · intro other k hk hdropped
    obtain ⟨hne, hother⟩ := herase other k hk
    rcases List.mem_append.mp (isDropped_iff.mp hdropped) with hbefore | hnew
    · exact h.kept other k hother (isDropped_iff.mpr hbefore)
    · obtain rfl := List.mem_singleton.mp hnew
      exact hne (h.own other target k hother hwaiting)

theorem Regular.first (h : t.Regular) (target : ClickTarget) :
    Regular { t with next := t.next + 1, waiting := t.waiting.put target t.next } := by
  have hput : ∀ other k, (t.waiting.put target t.next).get? other = some k →
      other = target ∧ k = t.next ∨ t.waiting.get? other = some k := by
    intro other k hk
    rw [Table.get?_put] at hk
    split at hk
    next heq => exact .inl ⟨heq, (Option.some.inj hk).symm⟩
    next => exact .inr hk
  refine ⟨Table.nodup_keys_put h.keys target _, ?_, ?_, ?_, ?_⟩
  · intro other k hk
    rcases hput other k hk with ⟨-, rfl⟩ | hother
    · exact Nat.lt_succ_self _
    · exact Nat.lt_succ_of_lt (h.given other k hother)
  · exact fun k hk => Nat.lt_succ_of_lt (h.dropped k hk)
  · intro a b k ha hb
    rcases hput a k ha with ⟨rfl, rfl⟩ | ha'
    · rcases hput b _ hb with ⟨rfl, -⟩ | hb'
      · rfl
      · exact absurd hb' (h.next_fresh b)
    · rcases hput b k hb with ⟨rfl, rfl⟩ | hb'
      · exact absurd ha' (h.next_fresh a)
      · exact h.own a b k ha' hb'
  · intro other k hk hdropped
    rcases hput other k hk with ⟨-, rfl⟩ | hother
    · exact Nat.lt_irrefl _ (h.dropped _ hdropped)
    · exact h.kept other k hother hdropped

theorem Regular.expire (h : t.Regular) (target : ClickTarget) (id : Nat) :
    (t.expire target id).Regular where
  keys := by
    unfold ClickTracker.expire
    split
    · exact Table.nodup_keys_erase h.keys target
    · exact h.keys
  given other k hk := by
    rw [next_expire]
    exact h.given other k (get?_expire.mp hk).1
  dropped k hk := by
    rw [isDropped, dropped_expire] at hk
    rw [next_expire]
    exact h.dropped k hk
  own a b k ha hb := h.own a b k (get?_expire.mp ha).1 (get?_expire.mp hb).1
  kept other k hk := by
    rw [isDropped, dropped_expire]
    exact h.kept other k (get?_expire.mp hk).1

theorem Regular.cancelAll (h : t.Regular) : t.cancelAll.Regular where
  keys := List.nodup_nil
  given := by intro target id hwaiting; cases hwaiting
  dropped k hk := by
    rcases h.isDropped_cancelAll.mp hk with hbefore | ⟨target, hwaiting⟩
    · exact h.dropped k hbefore
    · exact h.given target k hwaiting
  own := by intro target other id hwaiting; cases hwaiting
  kept := by intro target id hwaiting; cases hwaiting

end

end ClickTracker

/-! ### The world of clicks -/

structure ClickTraffic where
  explorer : Explorer
  now : Nat
  /-- The calls in the order in which they came, `none` for one that has been answered. -/
  calls : List (Option Activity)
  /-- What they were answered, by place. -/
  answers : List (Nat × Option ClickAction)

inductive ClickStep where
  /-- A target is clicked. -/
  | press (target : ClickTarget) (threshold : Nat) (s : Surroundings)
  /-- The call at a place looks whether it was dropped, and then whether its time is up. -/
  | poll (i : Nat) (s : Surroundings)
  /-- It only looks whether its time is up. -/
  | lapse (i : Nat)
  /-- All calls that wait are dropped. -/
  | dropAll
  /-- The clock moves to a time. -/
  | tick (time : Nat)

namespace ClickTraffic

/-- An explorer that has just been started. -/
def start (settings : Settings) (provider : OutlineProvider) : ClickTraffic :=
  ⟨.start settings provider, 0, [], []⟩

/-- The call at a place, unless it has been answered. -/
def at? (x : ClickTraffic) (i : Nat) : Option Activity := x.calls[i]?.join

/-- A clock that shows the time. -/
def surroundings (x : ClickTraffic) (s : Surroundings) : Surroundings := { s with now := x.now }

/-- The answer of a call that is over. -/
def answerOf (i : Nat) : Next Activity Answer → List (Nat × Option ClickAction)
  | .done (.action action) => [(i, action)]
  | _ => []

/-- The call at a place has had a turn. -/
def goOn (x : ClickTraffic) (i : Nat) (t : Turn Activity Answer) : ClickTraffic :=
  { x with
    explorer := t.explorer
    calls := x.calls.set i t.next.phase?
    answers := x.answers ++ answerOf i t.next }

/-- One move. A move that is not possible changes nothing. -/
def step (x : ClickTraffic) : ClickStep → ClickTraffic
  | .press target threshold s =>
    let t := (Activity.press target threshold).turn (x.surroundings s) x.explorer
    { x with
      explorer := t.explorer
      calls := x.calls ++ [t.next.phase?]
      answers := x.answers ++ answerOf x.calls.length t.next }
  | .poll i s =>
    match x.at? i with
    | none => x
    | some a => x.goOn i (a.turn (x.surroundings s) x.explorer)
  | .lapse i =>
    match x.at? i with
    | some (.pressed target id due) =>
      if due ≤ x.now then
        x.goOn i ⟨{ x.explorer with clicks := x.explorer.clicks.expire target id }, [],
          .done (.action (some .expand))⟩
      else x
    | _ => x
  | .dropAll => { x with explorer := { x.explorer with clicks := x.explorer.clicks.cancelAll } }
  | .tick time => if x.now ≤ time then { x with now := time } else x

/-- What a list of moves comes to, from an explorer that has just been started. -/
def run (settings : Settings) (provider : OutlineProvider) (steps : List ClickStep) :
    ClickTraffic :=
  steps.foldl step (start settings provider)

theorem run_append_singleton (settings : Settings) (provider : OutlineProvider)
    (steps : List ClickStep) (st : ClickStep) :
    run settings provider (steps ++ [st]) = (run settings provider steps).step st :=
  List.foldl_append

/-! ### What a move can do -/

/-- The call at a place waits for a second click. -/
def Waits (x : ClickTraffic) (i : Nat) (target : ClickTarget) (id due : Nat) : Prop :=
  x.at? i = some (.pressed target id due)

/-- The explorer with another tracker. -/
def withClicks (x : ClickTraffic) (clicks : ClickTracker) : Explorer :=
  { x.explorer with clicks := clicks }

/-- What one move makes of the calls. -/
inductive Moves (x : ClickTraffic) : ClickStep → ClickTraffic → Prop
  | idle {st : ClickStep} : Moves x st x
  | doubled {target : ClickTarget} {threshold : Nat} {s : Surroundings} {id : Nat}
      (hwaiting : x.explorer.clicks.waiting.get? target = some id) :
      Moves x (.press target threshold s) { x with
        explorer := x.withClicks { x.explorer.clicks with
          waiting := x.explorer.clicks.waiting.erase target
          dropped := x.explorer.clicks.dropped ++ [id] }
        calls := x.calls ++ [none]
        answers := x.answers ++ [(x.calls.length, some .run)] }
  | begun {target : ClickTarget} {threshold : Nat} {s : Surroundings}
      (hfree : x.explorer.clicks.waiting.get? target = none) :
      Moves x (.press target threshold s) { x with
        explorer := x.withClicks { x.explorer.clicks with
          next := x.explorer.clicks.next + 1
          waiting := x.explorer.clicks.waiting.put target x.explorer.clicks.next }
        calls := x.calls ++ [some (.pressed target x.explorer.clicks.next (x.now + threshold))] }
  | givenUp {i : Nat} {s : Surroundings} {target : ClickTarget} {id due : Nat}
      (hwaits : x.Waits i target id due) (hdropped : x.explorer.clicks.isDropped id) :
      Moves x (.poll i s) { x with
        calls := x.calls.set i none
        answers := x.answers ++ [(i, none)] }
  | acted {st : ClickStep} {i : Nat} {target : ClickTarget} {id due : Nat}
      (hwaits : x.Waits i target id due) (hdue : due ≤ x.now)
      (hst : ¬ x.explorer.clicks.isDropped id ∨ st = .lapse i) :
      Moves x st { x with
        explorer := x.withClicks (x.explorer.clicks.expire target id)
        calls := x.calls.set i none
        answers := x.answers ++ [(i, some .expand)] }
  | cleared : Moves x .dropAll { x with explorer := x.withClicks x.explorer.clicks.cancelAll }
  | ticked {time : Nat} (hle : x.now ≤ time) : Moves x (.tick time) { x with now := time }

theorem moves_poll {x : ClickTraffic} {i : Nat} {target : ClickTarget} {id due : Nat}
    (hwaits : x.Waits i target id due) (s : Surroundings) :
    Moves x (.poll i s) (x.step (.poll i s)) := by
  have hat : x.at? i = some (.pressed target id due) := hwaits
  simp only [step, hat, Activity.turn]
  split
  next hdropped => exact .givenUp hwaits hdropped
  next hkept =>
      split
      next =>
          obtain ⟨hlt, heq⟩ := List.getElem?_eq_some_iff.mp (Option.join_eq_some_iff.mp hat)
          simp only [goOn, Next.phase?, answerOf, List.append_nil]
          rw [← heq, List.set_getElem_self hlt]
          exact .idle
      next hdue => exact .acted hwaits (Nat.le_of_not_lt hdue) (.inl hkept)

/-- Every move is one of the listed ones, since nothing but clicks is called for. -/
theorem moves {x : ClickTraffic}
    (hcalls : ∀ i a, x.at? i = some a → ∃ target id due, a = .pressed target id due)
    (st : ClickStep) : Moves x st (x.step st) := by
  cases st with
  | press target threshold s =>
      have hpresses := x.explorer.clicks.presses target
      simp only [step, Activity.turn]
      generalize x.explorer.clicks.press target = pressed at hpresses
      cases hpresses with
      | double hwaiting => exact .doubled hwaiting
      | first hfree =>
          simp only [answerOf, List.append_nil]
          exact .begun hfree
  | poll i s =>
      cases hat : x.at? i with
      | none =>
          rw [step, hat]
          exact .idle
      | some a =>
          obtain ⟨target, id, due, rfl⟩ := hcalls i a hat
          exact moves_poll hat s
  | lapse i =>
      rw [step]
      split
      next target id due hat =>
          split
          next hdue => exact .acted hat hdue (.inr rfl)
          next => exact .idle
      next => exact .idle
  | dropAll => exact .cleared
  | tick time =>
      rw [step]
      split
      next hle => exact .ticked hle
      next => exact .idle

/-! ### Who waits -/

/-- Each call that waits has a number of its own, which waits on its target or was dropped, and who
has been answered no longer waits. -/
structure Sound (x : ClickTraffic) : Prop where
  regular : x.explorer.clicks.Regular
  called : ∀ i a, x.at? i = some a → ∃ target id due, a = .pressed target id due
  given : ∀ i target id due, x.Waits i target id due → id < x.explorer.clicks.next
  stands : ∀ i target id due, x.Waits i target id due →
    x.explorer.clicks.waiting.get? target = some id ∨ x.explorer.clicks.isDropped id
  own : ∀ i j target other id due due', x.Waits i target id due → x.Waits j other id due' → i = j
  held : ∀ target id, x.explorer.clicks.waiting.get? target = some id →
    ∃ i due, x.Waits i target id due
  once : (x.answers.map (·.1)).Nodup
  answered : ∀ i action, (i, action) ∈ x.answers → i < x.calls.length ∧ x.at? i = none

section Sound

variable {x y : ClickTraffic} {st : ClickStep} {i j id due k due' : Nat}
  {target other : ClickTarget} {action : Option ClickAction}

theorem Waits.lt (h : x.Waits i target id due) : i < x.calls.length :=
  (List.getElem?_eq_some_iff.mp (Option.join_eq_some_iff.mp h)).1

theorem waits_append {v : Option Activity} (hcalls : y.calls = x.calls ++ [v]) :
    y.Waits j other k due' ↔
      x.Waits j other k due' ∨ j = x.calls.length ∧ v = some (.pressed other k due') := by
  rw [Waits, at?, hcalls]
  constructor
  · exact RefreshTraffic.join_getElem?_concat
  · rintro (hwaits | ⟨rfl, rfl⟩)
    · rw [List.getElem?_append_left hwaits.lt]
      exact hwaits
    · rw [List.getElem?_concat_length]
      rfl

theorem at?_set (hwaits : x.Waits i target id due) (hcalls : y.calls = x.calls.set i none)
    (j : Nat) : y.at? j = if i = j then none else x.at? j := by
  rw [at?, hcalls]
  exact RefreshTraffic.join_getElem?_set hwaits none j

theorem waits_set (hwaits : x.Waits i target id due) (hcalls : y.calls = x.calls.set i none) :
    y.Waits j other k due' ↔ i ≠ j ∧ x.Waits j other k due' := by
  rw [Waits, at?_set hwaits hcalls, ite_eq_iff]
  simp [Waits]

theorem nodup_answers (h : (x.answers.map (·.1)).Nodup) (hnew : ∀ action, (i, action) ∉ x.answers)
    (hanswers : y.answers = x.answers ++ [(i, action)]) : (y.answers.map (·.1)).Nodup := by
  rw [hanswers, List.map_append, List.nodup_append]
  refine ⟨h, List.nodup_singleton i, ?_⟩
  rintro j hj _ hi rfl
  obtain rfl := List.mem_singleton.mp hi
  obtain ⟨⟨j, action⟩, hmem, rfl⟩ := List.mem_map.mp hj
  exact hnew action hmem

/-- A call that waits has not been answered. -/
theorem Sound.not_answered (h : x.Sound) (hwaits : x.Waits i target id due)
    (action : Option ClickAction) : (i, action) ∉ x.answers := by
  intro hmem
  have hat : x.at? i = some (.pressed target id due) := hwaits
  rw [(h.answered i action hmem).2] at hat
  cases hat

/-- A call that is answered no longer waits, and all others are as before. -/
theorem Sound.answer (h : x.Sound) (hwaits : x.Waits i target id due)
    (hcalls : y.calls = x.calls.set i none) (hanswers : y.answers = x.answers ++ [(i, action)])
    (hregular : y.explorer.clicks.Regular)
    (hnext : y.explorer.clicks.next = x.explorer.clicks.next)
    (hdropped : ∀ k, y.explorer.clicks.isDropped k ↔ x.explorer.clicks.isDropped k)
    (hwaiting : ∀ other k, y.explorer.clicks.waiting.get? other = some k ↔
      x.explorer.clicks.waiting.get? other = some k ∧ ¬ (other = target ∧ k = id)) :
    y.Sound where
  regular := hregular
  called j a hj := by
    rw [at?_set hwaits hcalls] at hj
    split at hj
    · cases hj
    · exact h.called j a hj
  given j other k due' hj := by
    rw [hnext]
    exact h.given j other k due' ((waits_set hwaits hcalls).mp hj).2
  stands j other k due' hj := by
    obtain ⟨hne, hj⟩ := (waits_set hwaits hcalls).mp hj
    refine (h.stands j other k due' hj).imp (fun hget => ?_) (hdropped k).mpr
    refine (hwaiting other k).mpr ⟨hget, ?_⟩
    rintro ⟨rfl, rfl⟩
    exact hne (h.own i j _ _ _ _ _ hwaits hj)
  own j j' other other' k due' due'' hj hj' :=
    h.own j j' other other' k due' due'' ((waits_set hwaits hcalls).mp hj).2
      ((waits_set hwaits hcalls).mp hj').2
  held other k hget := by
    obtain ⟨hget, hne⟩ := (hwaiting other k).mp hget
    obtain ⟨j, due', hj⟩ := h.held other k hget
    refine ⟨j, due', (waits_set hwaits hcalls).mpr ⟨?_, hj⟩⟩
    rintro rfl
    cases Option.some.inj (hwaits.symm.trans hj)
    exact hne ⟨rfl, rfl⟩
  once := nodup_answers h.once (h.not_answered hwaits) hanswers
  answered j action' hmem := by
    rw [hcalls, List.length_set, at?_set hwaits hcalls]
    rw [hanswers] at hmem
    rcases List.mem_append.mp hmem with hbefore | hnew
    · obtain ⟨hlt, hnone⟩ := h.answered j action' hbefore
      refine ⟨hlt, ?_⟩
      rw [hnone, ite_self]
    · cases List.mem_singleton.mp hnew
      exact ⟨hwaits.lt, if_pos rfl⟩

/-- The second click of two is answered at once, and the first one is dropped. -/
theorem Sound.double (h : x.Sound) (hwaiting : x.explorer.clicks.waiting.get? target = some id)
    (hclicks : y.explorer.clicks = { x.explorer.clicks with
      waiting := x.explorer.clicks.waiting.erase target
      dropped := x.explorer.clicks.dropped ++ [id] })
    (hcalls : y.calls = x.calls ++ [none])
    (hanswers : y.answers = x.answers ++ [(x.calls.length, action)]) : y.Sound := by
  have hwaits : ∀ {j other k due'}, y.Waits j other k due' ↔ x.Waits j other k due' := by
    intro j other k due'
    rw [waits_append hcalls]
    simp
  have hat : ∀ j a, y.at? j = some a → x.at? j = some a := by
    intro j a hj
    rw [at?, hcalls] at hj
    rcases RefreshTraffic.join_getElem?_concat hj with hold | ⟨-, hnew⟩
    · exact hold
    · cases hnew
  have hdrops : ∀ k, y.explorer.clicks.isDropped k ↔ x.explorer.clicks.isDropped k ∨ k = id := by
    intro k
    rw [hclicks]
    simp [ClickTracker.isDropped_iff]
  refine ⟨hclicks ▸ h.regular.double hwaiting, ?_, ?_, ?_, ?_, ?_, ?_, ?_⟩
  · exact fun j a hj => h.called j a (hat j a hj)
  · intro j other k due' hj
    rw [hclicks]
    exact h.given j other k due' (hwaits.mp hj)
  · intro j other k due' hj
    rw [hdrops, hclicks]
    show (x.explorer.clicks.waiting.erase target).get? other = some k ∨ _
    rcases h.stands j other k due' (hwaits.mp hj) with hget | hdropped
    · rw [Table.get?_erase]
      split
      next heq =>
          subst heq
          exact .inr (.inr (Option.some.inj (hget.symm.trans hwaiting)))
      next => exact .inl hget
    · exact .inr (.inl hdropped)
  · exact fun j j' other other' k due' due'' hj hj' =>
      h.own j j' other other' k due' due'' (hwaits.mp hj) (hwaits.mp hj')
  · intro other k hget
    rw [hclicks] at hget
    replace hget : (x.explorer.clicks.waiting.erase target).get? other = some k := hget
    rw [Table.get?_erase] at hget
    split at hget
    next => cases hget
    next =>
        obtain ⟨j, due', hj⟩ := h.held other k hget
        exact ⟨j, due', hwaits.mpr hj⟩
  · refine nodup_answers h.once ?_ hanswers
    exact fun action' hmem => Nat.lt_irrefl _ (h.answered _ action' hmem).1
  · intro j action' hmem
    rw [hcalls, List.length_append]
    rw [hanswers] at hmem
    refine ⟨?_, Option.eq_none_iff_forall_ne_some.mpr ?_⟩
    · rcases List.mem_append.mp hmem with hbefore | hnew
      · exact Nat.lt_succ_of_lt (h.answered j action' hbefore).1
      · cases List.mem_singleton.mp hnew
        exact Nat.lt_succ_self _
    · intro a hj
      obtain ⟨other, k, due', rfl⟩ := h.called j a (hat j a hj)
      rcases List.mem_append.mp hmem with hbefore | hnew
      · exact h.not_answered (hat j _ hj) action' hbefore
      · cases List.mem_singleton.mp hnew
        exact Nat.lt_irrefl _ (Waits.lt (hat _ _ hj))

/-- A click on a target that nobody waits on is the next one to wait. -/
theorem Sound.begin (h : x.Sound) (hfree : x.explorer.clicks.waiting.get? target = none)
    (hclicks : y.explorer.clicks = { x.explorer.clicks with
      next := x.explorer.clicks.next + 1
      waiting := x.explorer.clicks.waiting.put target x.explorer.clicks.next })
    (hcalls : y.calls = x.calls ++ [some (.pressed target x.explorer.clicks.next due)])
    (hanswers : y.answers = x.answers) : y.Sound := by
  have hwaits : ∀ {j other k due'}, y.Waits j other k due' ↔ x.Waits j other k due' ∨
      j = x.calls.length ∧ target = other ∧ x.explorer.clicks.next = k ∧ due = due' := by
    intro j other k due'
    rw [waits_append hcalls]
    simp
  have hwaiting : ∀ other, y.explorer.clicks.waiting.get? other =
      if other = target then some x.explorer.clicks.next
      else x.explorer.clicks.waiting.get? other := by
    intro other
    rw [hclicks]
    exact Table.get?_put _ _ _ _
  have hdropped : ∀ k, y.explorer.clicks.isDropped k = x.explorer.clicks.isDropped k := by
    intro k
    rw [hclicks]
    rfl
  refine ⟨hclicks ▸ h.regular.first target, ?_, ?_, ?_, ?_, ?_, hanswers ▸ h.once, ?_⟩
  · intro j a hj
    rw [at?, hcalls] at hj
    rcases RefreshTraffic.join_getElem?_concat hj with hold | ⟨-, hnew⟩
    · exact h.called j a hold
    · cases hnew
      exact ⟨_, _, _, rfl⟩
  · intro j other k due' hj
    rw [hclicks]
    rcases hwaits.mp hj with hold | ⟨-, -, rfl, -⟩
    · exact Nat.lt_succ_of_lt (h.given j other k due' hold)
    · exact Nat.lt_succ_self _
  · intro j other k due' hj
    rw [hwaiting, hdropped]
    rcases hwaits.mp hj with hold | ⟨-, rfl, rfl, -⟩
    · split
      next heq =>
          subst heq
          exact .inr ((h.stands j other k due' hold).resolve_left (by simp [hfree]))
      next => exact h.stands j other k due' hold
    · exact .inl (if_pos rfl)
  · intro j j' other other' k due' due'' hj hj'
    rcases hwaits.mp hj with hold | ⟨rfl, -, rfl, -⟩
    · rcases hwaits.mp hj' with hold' | ⟨-, -, rfl, -⟩
      · exact h.own j j' other other' k due' due'' hold hold'
      · exact absurd (h.given j other _ due' hold) (Nat.lt_irrefl _)
    · rcases hwaits.mp hj' with hold' | ⟨rfl, -⟩
      · exact absurd (h.given j' other' _ due'' hold') (Nat.lt_irrefl _)
      · rfl
  · intro other k hget
    rw [hwaiting] at hget
    split at hget
    next heq =>
        cases hget
        exact ⟨_, _, hwaits.mpr (.inr ⟨rfl, heq.symm, rfl, rfl⟩)⟩
    next =>
        obtain ⟨j, due', hj⟩ := h.held other k hget
        exact ⟨j, due', hwaits.mpr (.inl hj)⟩
  · intro j action' hmem
    rw [hanswers] at hmem
    obtain ⟨hlt, hnone⟩ := h.answered j action' hmem
    refine ⟨?_, ?_⟩
    · rw [hcalls, List.length_append]
      exact Nat.lt_add_right _ hlt
    · rw [at?, hcalls, List.getElem?_append_left hlt]
      exact hnone

/-- When all that wait are dropped, they go on waiting to be told. -/
theorem Sound.clear (h : x.Sound) :
    Sound { x with explorer := x.withClicks x.explorer.clicks.cancelAll } where
  regular := h.regular.cancelAll
  called := h.called
  given := h.given
  stands j other k due' hj := by
    refine .inr (h.regular.isDropped_cancelAll.mpr ?_)
    exact (h.stands j other k due' hj).symm.imp_right fun hget => ⟨other, hget⟩
  own := h.own
  held := by intro other k hget; cases hget
  once := h.once
  answered := h.answered

theorem sound_start (settings : Settings) (provider : OutlineProvider) :
    (start settings provider).Sound where
  regular := ClickTracker.regular_empty
  called := by intro i a hat; cases hat
  given := by intro i target id due hwaits; cases hwaits
  stands := by intro i target id due hwaits; cases hwaits
  own := by intro i j target other id due due' hwaits; cases hwaits
  held := by intro target id hget; cases hget
  once := List.nodup_nil
  answered := by intro i action hmem; cases hmem

theorem Sound.moves (h : x.Sound) (hmoves : Moves x st y) : y.Sound := by
  cases hmoves with
  | idle => exact h
  | doubled hwaiting => exact h.double hwaiting rfl rfl rfl
  | begun hfree => exact h.begin hfree rfl rfl rfl
  | @givenUp i s target id due hwaits hdropped =>
      refine h.answer hwaits rfl rfl h.regular rfl (fun _ => Iff.rfl) fun other k => ?_
      refine ⟨fun hget => ⟨hget, ?_⟩, And.left⟩
      rintro ⟨-, rfl⟩
      exact h.regular.kept other _ hget hdropped
  | acted hwaits hdue hst =>
      refine h.answer hwaits rfl rfl (h.regular.expire _ _) ClickTracker.next_expire (fun k => ?_)
        fun other k => ClickTracker.get?_expire
      simp only [withClicks, ClickTracker.isDropped, ClickTracker.dropped_expire]
  | cleared => exact h.clear
  | ticked hle => exact ⟨h.regular, h.called, h.given, h.stands, h.own, h.held, h.once, h.answered⟩

end Sound

theorem sound_run (settings : Settings) (provider : OutlineProvider) (steps : List ClickStep) :
    (run settings provider steps).Sound := by
  induction steps using List.reverseRecOn with
  | nil => exact sound_start settings provider
  | append_singleton before st ih =>
      rw [run_append_singleton]
      exact ih.moves (ClickTraffic.moves ih.called st)

/-! ### What becomes of a call that was used up -/

/-- The move drops the call at a place, be it for a second click or because all are dropped. -/
def UsesUp (x : ClickTraffic) (st : ClickStep) (i : Nat) : Prop :=
  ∃ target id due, x.Waits i target id due ∧ ¬ x.explorer.clicks.isDropped id ∧
    (x.step st).explorer.clicks.isDropped id

section Fate

variable {x y : ClickTraffic} {st : ClickStep} {i j id due : Nat} {target : ClickTarget}
  {action : Option ClickAction}

theorem Moves.isDropped (h : Moves x st y) (hdropped : x.explorer.clicks.isDropped id) :
    y.explorer.clicks.isDropped id := by
  rw [ClickTracker.isDropped_iff] at hdropped ⊢
  cases h with
  | idle | begun | givenUp | ticked => exact hdropped
  | doubled | cleared => exact List.mem_append_left _ hdropped
  | acted => rwa [withClicks, ClickTracker.dropped_expire]

theorem Moves.answers_prefix (h : Moves x st y) : x.answers <+: y.answers := by
  cases h with
  | idle | begun | cleared | ticked => exact List.prefix_refl _
  | doubled | givenUp | acted => exact List.prefix_append _ _

theorem Moves.answers_subset (h : Moves x st y) : x.answers ⊆ y.answers := h.answers_prefix.subset

/-- A call that was dropped waits on, or says so, or has looked at the time only. -/
theorem Moves.dropped (h : Moves x st y) (hwaits : x.Waits i target id due)
    (hdropped : x.explorer.clicks.isDropped id) :
    y.Waits i target id due ∨ (i, none) ∈ y.answers ∨
      st = .lapse i ∧ due ≤ x.now ∧ (i, some .expand) ∈ y.answers := by
  have helsewhere : ∀ {j other k due'}, x.Waits j other k due' → y.calls = x.calls.set j none →
      j ≠ i → y.Waits i target id due :=
    fun hj hcalls hne => (waits_set hj hcalls).mpr ⟨hne, hwaits⟩
  cases h with
  | idle | cleared | ticked => exact .inl hwaits
  | doubled => exact .inl ((waits_append rfl).mpr (.inl hwaits))
  | begun => exact .inl ((waits_append rfl).mpr (.inl hwaits))
  | @givenUp j s other k due' hj hk =>
      by_cases heq : j = i
      · subst heq
        exact .inr (.inl (List.mem_append_right _ (List.mem_singleton_self _)))
      · exact .inl (helsewhere hj rfl heq)
  | @acted _ j other k due' hj hdue hst =>
      by_cases heq : j = i
      · subst heq
        cases Option.some.inj (hwaits.symm.trans hj)
        exact .inr (.inr ⟨hst.resolve_left (not_not_intro hdropped), hdue,
          List.mem_append_right _ (List.mem_singleton_self _)⟩)
      · exact .inl (helsewhere hj rfl heq)

/-- A call that a move drops is not answered by that. -/
theorem Moves.waits_of_usedUp (h : Moves x st y) (hwaits : x.Waits i target id due)
    (hkept : ¬ x.explorer.clicks.isDropped id) (hdropped : y.explorer.clicks.isDropped id) :
    y.Waits i target id due := by
  cases h with
  | doubled => exact (waits_append rfl).mpr (.inl hwaits)
  | cleared => exact hwaits
  | idle | begun | givenUp | ticked => exact absurd hdropped hkept
  | acted =>
      rw [ClickTracker.isDropped, withClicks, ClickTracker.dropped_expire] at hdropped
      exact absurd hdropped hkept

/-- A call that was dropped says so as soon as it looks. -/
theorem Waits.silent_of_poll (hwaits : x.Waits i target id due)
    (hdropped : x.explorer.clicks.isDropped id) (s : Surroundings) :
    (i, none) ∈ (x.step (.poll i s)).answers := by
  have hat : x.at? i = some (.pressed target id due) := hwaits
  simp only [step, hat, Activity.turn, if_pos hdropped]
  exact List.mem_append_right _ (List.mem_singleton_self _)

/-- A second click is answered at once, and it is for one call only. -/
theorem Moves.run (h : Moves x st y) (hnew : (j, some .run) ∈ y.answers) :
    (j, some .run) ∈ x.answers ∨ ∃ target threshold s id, st = .press target threshold s ∧
      x.calls.length = j ∧ x.explorer.clicks.waiting.get? target = some id ∧
      y.explorer.clicks.dropped = x.explorer.clicks.dropped ++ [id] := by
  cases h with
  | idle | begun | cleared | ticked => exact .inl hnew
  | @doubled target threshold s id hwaiting =>
      rcases List.mem_append.mp hnew with hbefore | hlast
      · exact .inl hbefore
      · cases List.mem_singleton.mp hlast
        exact .inr ⟨target, threshold, s, id, rfl, rfl, hwaiting, rfl⟩
  | givenUp | acted =>
      rcases List.mem_append.mp hnew with hbefore | hlast
      · exact .inl hbefore
      · cases List.mem_singleton.mp hlast

/-- A click that takes the place of another uses up that one, and no other. -/
theorem Sound.usesUp_one (h : x.Sound) (hwaiting : x.explorer.clicks.waiting.get? target = some id)
    (hdropped : (x.step st).explorer.clicks.dropped = x.explorer.clicks.dropped ++ [id]) :
    ∃! i, x.UsesUp st i := by
  have hiff : ∀ k, (x.step st).explorer.clicks.isDropped k ↔
      x.explorer.clicks.isDropped k ∨ k = id := by
    intro k
    rw [ClickTracker.isDropped_iff, ClickTracker.isDropped_iff, hdropped, List.mem_append,
      List.mem_singleton]
  obtain ⟨i, due, hwaits⟩ := h.held target id hwaiting
  refine ⟨i, ⟨target, id, due, hwaits, h.regular.kept target id hwaiting,
    (hiff id).mpr (.inr rfl)⟩, ?_⟩
  rintro j ⟨other, k, due', hj, hkept, hnow⟩
  obtain rfl := ((hiff k).mp hnow).resolve_left hkept
  exact h.own j i _ _ _ _ _ hj hwaits

/-- A place is answered once. -/
theorem Sound.answer_unique (h : x.Sound) {action' : Option ClickAction}
    (hmem : (i, action) ∈ x.answers) (hmem' : (i, action') ∈ x.answers) : action = action' :=
  (Prod.mk.inj (List.inj_on_of_nodup_map h.once hmem hmem' rfl)).2

end Fate

variable {settings : Settings} {provider : OutlineProvider} {before after : List ClickStep}
  {i id due : Nat} {target : ClickTarget}

theorem moves_run (settings : Settings) (provider : OutlineProvider) (before after : List ClickStep)
    (st : ClickStep) : Moves (run settings provider (before ++ after)) st
      (run settings provider (before ++ (after ++ [st]))) := by
  rw [← List.append_assoc, run_append_singleton]
  exact ClickTraffic.moves (sound_run settings provider (before ++ after)).called st

/-- The call at a place looks at the time, which is up, and not whether it was dropped. -/
def LooksLate (settings : Settings) (provider : OutlineProvider) (before after : List ClickStep)
    (i due : Nat) : Prop :=
  ∃ first rest, after = first ++ .lapse i :: rest ∧
    due ≤ (run settings provider (before ++ first)).now

/-- What a call that was dropped comes to. -/
inductive Dropped (settings : Settings) (provider : OutlineProvider)
    (before after : List ClickStep) (i : Nat) (target : ClickTarget) (id due : Nat) : Prop
  | waits (hwaits : (run settings provider (before ++ after)).Waits i target id due)
      (hdropped : (run settings provider (before ++ after)).explorer.clicks.isDropped id)
      (hpoll : ∀ s, .poll i s ∉ after)
  | silent (hanswer : (i, none) ∈ (run settings provider (before ++ after)).answers)
  | late (hlate : LooksLate settings provider before after i due)
      (hanswer : (i, some .expand) ∈ (run settings provider (before ++ after)).answers)

theorem LooksLate.append (h : LooksLate settings provider before after i due)
    (more : List ClickStep) : LooksLate settings provider before (after ++ more) i due := by
  obtain ⟨first, rest, rfl, hdue⟩ := h
  exact ⟨first, rest ++ more, by rw [List.append_assoc, List.cons_append], hdue⟩

theorem dropped_run (hwaits : (run settings provider before).Waits i target id due)
    (hdropped : (run settings provider before).explorer.clicks.isDropped id)
    (after : List ClickStep) : Dropped settings provider before after i target id due := by
  induction after using List.reverseRecOn with
  | nil =>
      rw [← List.append_nil before] at hwaits hdropped
      exact .waits hwaits hdropped fun _ => List.not_mem_nil
  | append_singleton after st ih =>
      have hmoves := moves_run settings provider before after st
      cases ih with
      | silent hanswer => exact .silent (hmoves.answers_subset hanswer)
      | late hlate hanswer => exact .late (hlate.append [st]) (hmoves.answers_subset hanswer)
      | waits hwaits hdropped hpoll =>
          by_cases hst : ∃ s, st = .poll i s
          · obtain ⟨s, rfl⟩ := hst
            refine .silent ?_
            rw [← List.append_assoc, run_append_singleton]
            exact hwaits.silent_of_poll hdropped s
          · rcases hmoves.dropped hwaits hdropped with hwaits' | hanswer | ⟨rfl, hdue, hanswer⟩
            · refine .waits hwaits' (hmoves.isDropped hdropped) fun s hmem => ?_
              rcases List.mem_append.mp hmem with hbefore | hlast
              · exact hpoll s hbefore
              · exact hst ⟨s, (List.mem_singleton.mp hlast).symm⟩
            · exact .silent hanswer
            · exact .late ⟨after, [], rfl, hdue⟩ hanswer

/-- Whatever is answered to be the second of a double click has used up a call that waited. -/
theorem exists_press_of_run {j : Nat} {steps : List ClickStep}
    (hanswer : (j, some .run) ∈ (run settings provider steps).answers) :
    ∃ before target threshold s after, steps = before ++ .press target threshold s :: after ∧
      (run settings provider before).calls.length = j ∧
      ∃! i, (run settings provider before).UsesUp (.press target threshold s) i := by
  induction steps using List.reverseRecOn with
  | nil => cases hanswer
  | append_singleton steps st ih =>
      have hsound := sound_run settings provider steps
      have hmoves := moves_run settings provider [] steps st
      rcases hmoves.run hanswer with
        hbefore | ⟨target, threshold, s, id, rfl, hplace, hwaiting, hdrops⟩
      · obtain ⟨before, target, threshold, s, after, rfl, hrest⟩ := ih hbefore
        exact ⟨before, target, threshold, s, after ++ [st], by simp, hrest⟩
      · refine ⟨steps, target, threshold, s, [], rfl, hplace, ?_⟩
        refine hsound.usesUp_one hwaiting ?_
        rw [← run_append_singleton]
        exact hdrops

/-- No click acts twice, but for one whose time is up when it is used up: each place is answered
once; a second click uses up one call; and a call that was used up or dropped is not used up again,
is answered as soon as it looks, and then does nothing, unless all it looked at was the time. -/
theorem clicks_act_once_unless_late (settings : Settings) (provider : OutlineProvider)
    (steps : List ClickStep) :
    ((run settings provider steps).answers.map (·.1)).Nodup ∧
    (∀ j, (j, some .run) ∈ (run settings provider steps).answers →
      ∃ before target threshold s after, steps = before ++ .press target threshold s :: after ∧
        (run settings provider before).calls.length = j ∧
        ∃! i, (run settings provider before).UsesUp (.press target threshold s) i) ∧
    ∀ before st after i, steps = before ++ st :: after →
      (run settings provider before).UsesUp st i →
        (∀ first st' rest, after = first ++ st' :: rest →
          ¬ (run settings provider (before ++ st :: first)).UsesUp st' i) ∧
        (∀ s, .poll i s ∈ after → ∃ action, (i, action) ∈ (run settings provider steps).answers) ∧
        ∀ action, (i, action) ∈ (run settings provider steps).answers → action = none ∨
          action = some .expand ∧ ∃ target id due,
            (run settings provider before).Waits i target id due ∧
            LooksLate settings provider (before ++ [st]) after i due := by
  refine ⟨(sound_run settings provider steps).once, fun j => exists_press_of_run, ?_⟩
  rintro before st after i rfl ⟨target, id, due, hwaits, hkept, hnow⟩
  have hsplit : ∀ more, before ++ st :: more = before ++ [st] ++ more :=
    fun more => List.append_cons before st more
  have hfate : ∀ more, Dropped settings provider (before ++ [st]) more i target id due := by
    refine dropped_run ?_ ?_
    · exact (moves_run settings provider [] before st).waits_of_usedUp hwaits hkept
        (run_append_singleton settings provider before st ▸ hnow)
    · exact run_append_singleton settings provider before st ▸ hnow
  refine ⟨?_, ?_, ?_⟩
  · rintro first st' rest - ⟨other, k, due', hwaits', hkept', -⟩
    rw [hsplit] at hwaits' hkept'
    have hsound := sound_run settings provider (before ++ [st] ++ first)
    cases hfate first with
    | waits hstill hdropped =>
        cases Option.some.inj (hwaits'.symm.trans hstill)
        exact hkept' hdropped
    | silent hanswer | late _ hanswer => exact hsound.not_answered hwaits' _ hanswer
  · intro s hmem
    rw [hsplit]
    cases hfate after with
    | waits _ _ hpoll => exact absurd hmem (hpoll s)
    | silent hanswer | late _ hanswer => exact ⟨_, hanswer⟩
  · intro action hmem
    rw [hsplit] at hmem
    have hsound := sound_run settings provider (before ++ [st] ++ after)
    cases hfate after with
    | waits hstill => exact absurd hmem (hsound.not_answered hstill action)
    | silent hanswer => exact .inl (hsound.answer_unique hmem hanswer)
    | late hlate hanswer =>
        exact .inr ⟨hsound.answer_unique hmem hanswer, target, id, due, hwaits, hlate⟩

open RefreshTraffic (cartDocument answering)

/-- A target that is clicked waits for 400 milliseconds. -/
def clickCart : ClickStep := .press ⟨cartDocument, .root⟩ 400 (answering 0 ⟨[]⟩)

/-- The time of a click is up, and a second one comes before the first one looks. -/
def clickedLate : List ClickStep := [clickCart, .tick 400, clickCart, .lapse 0]

theorem clickedLate_usesUp : (run .default (.tool Settings.default.toolPath)
    [clickCart, .tick 400]).UsesUp clickCart 0 :=
  ⟨⟨cartDocument, .root⟩, 0, 400, rfl, by decide, rfl⟩

theorem clickedLate_answers : (run .default (.tool Settings.default.toolPath) clickedLate).answers =
    [(1, some .run), (0, some .expand)] := by
  rfl

/-- So a click can act twice: it is used up for a run, and expands as well. -/
theorem click_used_up_expands :
    ¬ ∀ (settings : Settings) (provider : OutlineProvider) (before after : List ClickStep)
      (st : ClickStep) (i : Nat), (run settings provider before).UsesUp st i →
        (i, some .expand) ∉ (run settings provider (before ++ st :: after)).answers := by
  intro hnever
  refine hnever _ _ _ [.lapse 0] _ _ clickedLate_usesUp ?_
  show _ ∈ (run _ _ clickedLate).answers
  rw [clickedLate_answers]
  exact List.mem_cons_of_mem _ (List.mem_singleton_self _)

end ClickTraffic

end SpecExplorer
