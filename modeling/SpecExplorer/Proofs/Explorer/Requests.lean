/-
# Requests for a tree

A client that asks for the tree of an open document without one has it refreshed first, and is then
answered with what there is. A newer refresh of the document takes the place of that one, and then
there may be nothing to answer with yet. What holds is that the tree is under way: from the moment
at which a refresh has taken its ticket, the document has a tree, or there is a refresh whose ticket
counts or whose outline is at hand. So a request is left without an answer only by a newer refresh,
and that one is still to bring the tree.
-/
import SpecExplorer.Proofs.Explorer.Activities
import SpecExplorer.Proofs.Explorer.Succession

namespace SpecExplorer

/-! ### Outlines that succeed -/

/-- No invocation ends with a fault. -/
def Surroundings.Succeeds (s : Surroundings) : Prop :=
  ∀ ticket fault, s.ended ticket ≠ some (.error fault)

def ActivityStep.Succeeds : ActivityStep → Prop
  | .turn _ s | .lapse _ s => s.Succeeds
  | _ => True

/-- A request to the cache was answered with a fault. -/
def OutlineCall.Failed (call : OutlineCall) : Prop := ∃ fault, call.phase = .answered (.error fault)

/-- An outline has failed that a refresh waits for. -/
def RefreshPhase.Failed (phase : RefreshPhase) : Prop :=
  ∃ ticket call, phase = .outlining ticket call ∧ call.Failed

theorem OutlineCall.not_failed_turn {s : Surroundings} (hs : s.Succeeds) (e : Explorer)
    {call : OutlineCall} (h : ¬ call.Failed) :
    ∀ call', (call.turn s e).next.phase? = some call' → ¬ call'.Failed := by
  obtain ⟨request, phase⟩ := call
  cases phase with
  | answered answer =>
      intro call' hcall'
      cases hcall'
  | asking =>
      obtain ⟨c, phase, ticket?, hask, hasks⟩ := OutlineTraffic.asks e.cache s.now request
      intro call' hcall'
      rintro ⟨fault, hfault⟩
      simp only [turn, hask] at hcall'
      cases hasks <;> cases hcall' <;> cases hfault
  | awaiting ticket own =>
      intro call' hcall'
      rintro ⟨fault, hfault⟩
      cases hended : s.ended ticket with
      | none =>
          simp only [turn, hended] at hcall'
          cases hcall'
          cases hfault
      | some result =>
          cases result with
          | error fault => exact hs ticket fault hended
          | ok o =>
              simp only [turn, hended, resume] at hcall'
              cases own <;> cases hcall' <;> cases hfault

theorem OutlineCall.not_failed_answer {s : Surroundings} {e : Explorer} {call : OutlineCall}
    (h : ¬ call.Failed) {answer : OutlineAnswer} (hdone : (call.turn s e).next = .done answer) :
    ∀ fault, answer ≠ .error fault := by
  rintro fault rfl
  unfold turn at hdone
  split at hdone
  next answer hphase =>
      cases hdone
      exact h ⟨fault, hphase⟩
  next =>
      repeat' split at hdone
      all_goals cases hdone
  next => split at hdone <;> cases hdone

theorem Refresh.not_failed_outlining {s : Surroundings} (hs : s.Succeeds) (e : Explorer) {uri : Uri}
    {trigger : RefreshTrigger} {ticket : Nat} {call : OutlineCall} (h : ¬ call.Failed) :
    ∀ r', (turn s e ⟨uri, trigger, .outlining ticket call⟩).next.phase? = some r' →
      ¬ r'.phase.Failed := by
  rintro r' hr' ⟨ticket', call', hphase, hfailed⟩
  unfold turn at hr'
  dsimp only at hr'
  split at hr'
  next answer hanswer =>
      simp only [arrived] at hr'
      repeat' split at hr'
      all_goals cases hr'
      all_goals cases hphase
  next =>
      rw [Turn.within, Next.phase?_map] at hr'
      have hcall := OutlineCall.not_failed_turn hs e h
      cases hnext : (call.turn s e).next with
      | go made | wait w made =>
          rw [hnext] at hr' hcall
          cases hr'
          cases hphase
          exact hcall call' rfl hfailed
      | done answer =>
          rw [hnext] at hr'
          cases hr'
          cases hphase
          obtain ⟨fault, hfault⟩ := hfailed
          exact OutlineCall.not_failed_answer h hnext fault (CallPhase.answered.inj hfault)

/-- If no invocation ends with a fault, no refresh gets one. -/
theorem Refresh.not_failed_turn {s : Surroundings} (hs : s.Succeeds) (e : Explorer) {r : Refresh}
    (h : ¬ r.phase.Failed) :
    ∀ r', (r.turn s e).next.phase? = some r' → ¬ r'.phase.Failed := by
  obtain ⟨uri, trigger, phase⟩ := r
  by_cases houtlining : ∃ ticket call, phase = .outlining ticket call
  · obtain ⟨ticket, call, rfl⟩ := houtlining
    exact not_failed_outlining hs e fun hfailed => h ⟨ticket, call, rfl, hfailed⟩
  · obtain ⟨phase?, hturns⟩ := exists_turnsTo ⟨uri, trigger, phase⟩ 0 s e
    intro r' hr'
    rintro ⟨ticket, call, hphase, hfailed⟩
    rw [hturns.next] at hr'
    obtain ⟨p, rfl, rfl⟩ := Option.map_eq_some_iff.mp hr'
    obtain rfl : p = .outlining ticket call := hphase
    have hturned := hturns.turns
    generalize (turn s e ⟨uri, trigger, phase⟩).explorer = e' at hturned
    cases hturned with
    | read hopen =>
        obtain ⟨fault, hfault⟩ := hfailed
        cases hfault
    | outlined => exact houtlining ⟨_, _, rfl⟩
    | applied hdocuments htickets happlied => cases happlied _ rfl

/-! ### A refresh that will bring a tree -/

/-- A refresh that will bring its document a tree: its ticket counts, or it has the outline. -/
inductive Refresh.Brings (t : RefreshTickets) (r : Refresh) : Prop
  | counts {k : Nat} (hheld : r.phase.ticket? = some k)
      (hcurrent : t.pending.get? r.uri = some k) : Brings t r
  | applies {o : Outline} (hphase : r.phase = .applying o) : Brings t r

theorem Refresh.Brings.kept {t t' : RefreshTickets} {r : Refresh} (h : r.Brings t)
    (hpending : ∀ k, t.pending.get? r.uri = some k → t'.pending.get? r.uri = some k) :
    r.Brings t' := by
  cases h with
  | counts hheld hcurrent => exact .counts hheld (hpending _ hcurrent)
  | applies hphase => exact .applies hphase

namespace Refresh

section Turns

variable {e : Explorer} {uri : Uri} {trigger : RefreshTrigger} {r : Refresh} {k : Nat}

/-- A refresh of an open document takes a ticket, unless it does not count in this mode. -/
theorem turn_start (s : Surroundings) (hopen : e.isOpen uri)
    (haccepts : e.settings.refreshMode.accepts trigger) :
    ∃ due, (turn s e ⟨uri, trigger, .start⟩).next.phase? =
        some ⟨uri, trigger, .debouncing e.tickets.next due⟩ ∧
      (turn s e ⟨uri, trigger, .start⟩).explorer =
        { e with tickets := (e.tickets.schedule uri).1 } := by
  have hticket : (e.tickets.schedule uri).2 = e.tickets.next :=
    RefreshTickets.schedule_snd e.tickets uri
  unfold turn
  simp only [haccepts, hopen, Bool.not_true, Bool.or_self, ← hticket]
  exact ⟨_, rfl, rfl⟩

/-- With a ticket that is not cancelled a refresh of an open document keeps the ticket, or the
outline has arrived. -/
theorem turn_kept (s : Surroundings) (hheld : r.phase.ticket? = some k)
    (hkept : e.tickets.isCancelled k = false) (hopen : e.isOpen r.uri) (hok : ¬ r.phase.Failed) :
    ∃ phase, (r.turn s e).next.phase? = some (r.toPhase phase) ∧
      (phase.ticket? = some k ∧ (r.turn s e).explorer.tickets = e.tickets ∨
        ∃ o, phase = .applying o) := by
  obtain ⟨uri, trigger, phase⟩ := r
  cases phase with
  | start | applying | relighting | offering => cases hheld
  | debouncing ticket due =>
      cases hheld
      unfold turn passed?
      simp only [hkept]
      by_cases hdue : due ≤ s.now
      · simp only [hdue, if_true]
        exact ⟨.reading k, rfl, .inl ⟨rfl, rfl⟩⟩
      · simp only [hdue]
        exact ⟨.debouncing k due, rfl, .inl ⟨rfl, rfl⟩⟩
  | reading ticket =>
      cases hheld
      obtain ⟨doc, hdoc⟩ := Explorer.isOpen_iff.mp hopen
      unfold turn Explorer.outlineRequest?
      dsimp only
      rw [hdoc]
      exact ⟨_, rfl, .inl ⟨rfl, rfl⟩⟩
  | outlining ticket call =>
      cases hheld
      unfold turn
      dsimp only
      split
      next answer hanswer =>
          simp only [arrived, RefreshTickets.isCancelled_complete, hkept]
          cases answer with
          | ok made => exact ⟨.applying made.outline, rfl, .inr ⟨_, rfl⟩⟩
          | error fault => exact absurd ⟨k, call, rfl, fault, hanswer⟩ hok
      next =>
          have htickets := (call.turn_frame s e).2.1
          unfold Turn.within
          cases (call.turn s e).next <;> exact ⟨_, rfl, .inl ⟨rfl, htickets⟩⟩

/-- An outline that is applied makes a tree. -/
theorem turn_applying (s : Surroundings) {o : Outline} (hphase : r.phase = .applying o)
    (hopen : e.isOpen r.uri) : ((r.turn s e).explorer.tree? r.uri).isSome := by
  obtain ⟨doc, hdoc⟩ := Explorer.isOpen_iff.mp hopen
  rw [Explorer.tree?, Explorer.document?, r.documents_of_applying s e hphase]
  show ((e.applyOutline r.uri o).1.tree? r.uri).isSome
  simp only [Explorer.applyOutline, hdoc]
  rw [Explorer.tree?_setTree hdoc]
  rfl

/-- A turn of a refresh that will bring a tree brings it, or leaves it to its next turns. -/
theorem Brings.turn (s : Surroundings) (h : r.Brings e.tickets) (hregular : e.tickets.Regular)
    (hopen : e.isOpen r.uri) (hok : ¬ r.phase.Failed) :
    ((r.turn s e).explorer.tree? r.uri).isSome ∨
      ∃ r', (r.turn s e).next.phase? = some r' ∧ r'.uri = r.uri ∧
        r'.Brings (r.turn s e).explorer.tickets := by
  cases h with
  | applies hphase => exact .inl (turn_applying s hphase hopen)
  | counts hheld hcurrent =>
      have hkept := Bool.eq_false_iff.mpr (hregular.kept _ _ hcurrent)
      obtain ⟨phase, hnext, ⟨hphase, htickets⟩ | ⟨o, rfl⟩⟩ := turn_kept s hheld hkept hopen hok
      · exact .inr ⟨_, hnext, rfl, .counts hphase (htickets ▸ hcurrent)⟩
      · exact .inr ⟨_, hnext, rfl, .applies rfl⟩

/-- Where a refresh does not count in this mode, nothing happens. -/
theorem turn_ignored (s : Surroundings) (hphase : r.phase = .start)
    (hignored : ¬ e.settings.refreshMode.accepts r.trigger) : (r.turn s e).explorer = e := by
  obtain ⟨uri, trigger, phase⟩ := r
  obtain rfl : phase = .start := hphase
  unfold turn
  simp only [hignored, Bool.not_false, Bool.true_or, if_true]

/-- A turn of another refresh leaves the ticket that counts for a document alone, unless it takes
a ticket there, or hands that one back. -/
theorem turn_pending (s : Surroundings) (hother : ¬ (r.uri = uri ∧ r.Brings e.tickets))
    (hstart : r.uri = uri → r.phase = .start → ¬ e.settings.refreshMode.accepts r.trigger)
    (hk : e.tickets.pending.get? uri = some k) :
    (r.turn s e).explorer.tickets.pending.get? uri = some k := by
  obtain ⟨phase?, hturns⟩ := r.exists_turnsTo 0 s e
  by_cases huri : r.uri = uri
  · by_cases hphase : r.phase = .start
    · rwa [turn_ignored s hphase (hstart huri hphase)]
    · rcases hturns.turns.tickets_of_begun hphase with htickets | ⟨own, hheld, htickets⟩
      · rwa [htickets]
      · rw [htickets]
        refine (RefreshTickets.get?_complete _ r.uri uri own ?_).mpr hk
        rintro rfl
        exact hother ⟨huri, .counts hheld (huri ▸ hk)⟩
  · rcases hturns.turns.tickets with ⟨htickets, -⟩ | ⟨htickets, -⟩ | ⟨own, hheld, htickets, -⟩
    · rwa [htickets]
    · rwa [htickets, RefreshTickets.get?_schedule, if_neg (Ne.symm huri)]
    · rwa [htickets, RefreshTickets.get?_complete_of_ne _ _ _ _ (Ne.symm huri)]

end Turns

end Refresh

namespace ActivityTraffic

/-! ### The tree is there, or under way -/

/-- There is a refresh that will bring the document a tree. -/
def Coming (x : ActivityTraffic) (uri : Uri) : Prop :=
  ∃ i r, x.refresh? i = some r ∧ r.uri = uri ∧ r.Brings x.explorer.tickets

/-- The document has a tree, or one is under way. -/
def Fed (x : ActivityTraffic) (uri : Uri) : Prop :=
  (x.explorer.tree? uri).isSome ∨ x.Coming uri

/-- No refresh has got a fault instead of an outline. -/
def Unfailed (x : ActivityTraffic) : Prop := ∀ i r, x.refresh? i = some r → ¬ r.phase.Failed

section Fed

variable {x y : ActivityTraffic} {uri : Uri} {i : Nat} {a : Activity} {st : ActivityStep}

/-- A refresh that will bring the tree still does, if the ticket that counts is not touched. -/
theorem Fed.kept (h : x.Fed uri) (hkeeps : x.explorer.Keeps uri y.explorer)
    (hpending : ∀ k, x.explorer.tickets.pending.get? uri = some k →
      y.explorer.tickets.pending.get? uri = some k)
    (hthere : ∀ j r, x.refresh? j = some r → r.uri = uri → r.Brings x.explorer.tickets →
      ∃ r', y.refresh? j = some r' ∧ r'.uri = r.uri ∧ r'.Brings x.explorer.tickets) :
    y.Fed uri := by
  refine h.imp hkeeps.shown ?_
  rintro ⟨j, r, hj, rfl, hbrings⟩
  obtain ⟨r', hj', huri, hbrings'⟩ := hthere j r hj rfl hbrings
  exact ⟨j, r', hj', huri, hbrings'.kept (huri ▸ hpending)⟩

theorem Fed.turned_beside (h : x.Fed uri) (hat : x.at? i = some a) (hr : a.refresh? = none)
    (s : Surroundings) : (x.goOn i (a.turn s x.explorer)).Fed uri := by
  have hspares := (Activity.beside_turn hr s x.explorer).spares
  refine h.kept (hspares.keeps uri) ?_ ?_
  · intro k hk
    show (a.turn s x.explorer).explorer.tickets.pending.get? uri = some k
    rwa [hspares.tickets]
  · intro j r hj huri hbrings
    have hne : i ≠ j := by
      rintro rfl
      rw [refresh?, hat, Option.bind_some, hr] at hj
      cases hj
    exact ⟨r, by rwa [refresh?_goOn hat, if_neg hne], rfl, hbrings⟩

/-- A refresh that takes its ticket will bring the tree. -/
theorem fed_of_start {trigger : RefreshTrigger} (hat : x.at? i = some a)
    (hr : a.refresh? = some ⟨uri, trigger, .start⟩) (hopen : x.explorer.isOpen uri)
    (haccepts : x.explorer.settings.refreshMode.accepts trigger) (s : Surroundings) :
    (x.goOn i (a.turn s x.explorer)).Fed uri := by
  obtain ⟨hexplorer, hnext⟩ := Activity.turn_of_refresh? hr s x.explorer
  obtain ⟨due, hphase, hafter⟩ := Refresh.turn_start s hopen haccepts
  refine .inr ⟨i, ⟨uri, trigger, .debouncing x.explorer.tickets.next due⟩, ?_, rfl, .counts rfl ?_⟩
  · rw [refresh?_goOn hat, if_pos rfl, hnext, hphase]
  · show (a.turn s x.explorer).explorer.tickets.pending.get? uri = _
    rw [hexplorer, hafter]
    exact (RefreshTickets.get?_schedule _ _ _).trans (if_pos rfl)

theorem Fed.turned_refresh (h : x.Fed uri) (hregular : x.explorer.tickets.Regular)
    (hopen : x.explorer.isOpen uri) (hok : x.Unfailed) {r : Refresh} (hat : x.at? i = some a)
    (hr : a.refresh? = some r) (s : Surroundings) :
    (x.goOn i (a.turn s x.explorer)).Fed uri := by
  obtain ⟨hexplorer, hnext⟩ := Activity.turn_of_refresh? hr s x.explorer
  have hi := refresh?_of_at? hat hr
  by_cases hbrings : r.uri = uri ∧ r.Brings x.explorer.tickets
  · obtain ⟨rfl, hbrings⟩ := hbrings
    rcases hbrings.turn s hregular hopen (hok i r hi) with hshown | ⟨r', hr', huri, hafter⟩
    · refine .inl ?_
      show ((a.turn s x.explorer).explorer.tree? r.uri).isSome
      rwa [hexplorer]
    · refine .inr ⟨i, r', ?_, huri, ?_⟩
      · rw [refresh?_goOn hat, if_pos rfl, hnext, hr']
      · show r'.Brings (a.turn s x.explorer).explorer.tickets
        rwa [hexplorer]
  by_cases hstart : r.uri = uri ∧ r.phase = .start ∧
      x.explorer.settings.refreshMode.accepts r.trigger
  · obtain ⟨document, trigger, phase⟩ := r
    obtain ⟨rfl, rfl, haccepts⟩ := hstart
    exact fed_of_start hat hr hopen haccepts s
  · refine h.kept (Explorer.keeps_activity s x.explorer a) ?_ ?_
    · intro k hk
      show (a.turn s x.explorer).explorer.tickets.pending.get? uri = some k
      rw [hexplorer]
      exact Refresh.turn_pending s hbrings
        (fun heq hphase haccepts => hstart ⟨heq, hphase, haccepts⟩) hk
    · intro j r' hj huri hbrings'
      have hne : i ≠ j := by
        rintro rfl
        obtain rfl := Option.some.inj (hi.symm.trans hj)
        exact hbrings ⟨huri, hbrings'⟩
      exact ⟨r', by rwa [refresh?_goOn hat, if_neg hne], rfl, hbrings'⟩

/-- What has been under way stays so while the document is open and no outline fails. -/
theorem Fed.moves (h : x.Fed uri) (hregular : x.explorer.tickets.Regular)
    (hopen : x.explorer.isOpen uri) (hok : x.Unfailed) (hmoves : Moves x st y)
    (hleaves : st.LeavesOpen uri) : y.Fed uri := by
  have hkeeps := hmoves.keeps hleaves
  cases hmoves with
  | idle => exact h
  | @turned i s a hat =>
      cases hr : a.refresh? with
      | none => exact h.turned_beside hat hr s
      | some r => exact h.turned_refresh hregular hopen hok hat hr s
  | begun errand =>
      refine h.kept hkeeps (fun _ hk => hk) ?_
      intro j r hj huri hbrings
      obtain ⟨a, hat, hr⟩ := Option.bind_eq_some_iff.mp hj
      exact ⟨r, refresh?_of_at? (at?_begun errand hat) hr, rfl, hbrings⟩
  | told event =>
      refine h.kept hkeeps ?_ fun j r hj _ hbrings => ⟨r, hj, rfl, hbrings⟩
      intro k hk
      cases event with
      | opened | edited => exact hk
      | closed other =>
          exact (RefreshTickets.get?_cancel _ other uri).trans ((if_neg (Ne.symm hleaves)).trans hk)
  | configured settings =>
      refine h.kept hkeeps ?_ fun j r hj _ hbrings => ⟨r, hj, rfl, hbrings⟩
      intro k hk
      rwa [Explorer.tickets_applySettings]
  | @lapsed i s a r ticket due hat hr hphase =>
      refine h.kept hkeeps (fun _ hk => hk) ?_
      intro j r' hj huri hbrings
      have hafter := refresh?_toPhase hat hr (.reading ticket) j
      by_cases hij : i = j
      · subst hij
        obtain rfl := Option.some.inj ((refresh?_of_at? hat hr).symm.trans hj)
        refine ⟨_, hafter.trans (if_pos rfl), rfl, ?_⟩
        cases hbrings with
        | applies happlies => exact absurd (hphase.symm.trans happlies) nofun
        | counts hheld hcurrent =>
            rw [hphase] at hheld
            exact .counts hheld hcurrent
      · exact ⟨r', hafter.trans ((if_neg hij).trans hj), rfl, hbrings⟩

/-- No refresh gets a fault as long as no invocation ends with one. -/
theorem Unfailed.moves (h : x.Unfailed) (hmoves : Moves x st y) (hst : st.Succeeds) :
    y.Unfailed := by
  intro j r' hj
  cases hmoves with
  | idle | told | configured => exact h j r' hj
  | begun errand =>
      obtain ⟨a, hat, hr⟩ := Option.bind_eq_some_iff.mp hj
      rcases RefreshTraffic.join_getElem?_concat hat with hat | ⟨-, herrand⟩
      · exact h j r' (refresh?_of_at? hat hr)
      · obtain rfl := Option.some.inj herrand
        rintro ⟨ticket, call, hphase, -⟩
        cases errand <;> cases hr
        cases hphase
  | @turned i s a hat =>
      rw [refresh?_goOn hat] at hj
      split at hj
      next =>
          cases hr : a.refresh? with
          | none =>
              have hphase := (Activity.beside_turn hr s x.explorer).start r' hj
              rintro ⟨ticket, call, houtlining, -⟩
              cases hphase.symm.trans houtlining
          | some r =>
              rw [(Activity.turn_of_refresh? hr s x.explorer).2] at hj
              exact Refresh.not_failed_turn hst _ (h i r (refresh?_of_at? hat hr)) r' hj
      next => exact h j r' hj
  | @lapsed i s a r ticket due hat hr hphase =>
      rw [refresh?_toPhase hat hr] at hj
      split at hj
      next =>
          obtain rfl := Option.some.inj hj
          rintro ⟨ticket', call, houtlining, -⟩
          cases houtlining
      next => exact h j r' hj

end Fed

/-! ### One request -/

/-- How far the request for the tree of a document has come. -/
inductive Stage (x : ActivityTraffic) (uri : Uri) (superseded : Prop) : Option Activity → Prop
  | asked : Stage x uri superseded (some (.treeRequest ⟨uri, .start⟩))
  | begun : Stage x uri superseded (some (.treeRequest ⟨uri, .refreshing ⟨uri, .manual, .start⟩⟩))
  | holding {phase : RefreshPhase} {k : Nat} (hheld : phase.ticket? = some k) (hfed : x.Fed uri) :
      Stage x uri superseded (some (.treeRequest ⟨uri, .refreshing ⟨uri, .manual, phase⟩⟩))
  | applying {o : Outline} (hfed : x.Fed uri) :
      Stage x uri superseded (some (.treeRequest ⟨uri, .refreshing ⟨uri, .manual, .applying o⟩⟩))
  | relighting (hshown : (x.explorer.tree? uri).isSome) :
      Stage x uri superseded (some (.treeRequest ⟨uri, .refreshing ⟨uri, .manual, .relighting⟩⟩))
  | answering (hfed : x.Fed uri) (hshown : (x.explorer.tree? uri).isSome ∨ superseded) :
      Stage x uri superseded (some (.treeRequest ⟨uri, .answering⟩))
  | ended : Stage x uri superseded none

section Stage

variable {x y : ActivityTraffic} {uri : Uri} {i : Nat} {superseded superseded' : Prop}
  {a? : Option Activity}

theorem Stage.kept (h : Stage x uri superseded a?) (hfed : x.Fed uri → y.Fed uri)
    (hshown : (x.explorer.tree? uri).isSome → (y.explorer.tree? uri).isSome)
    (hsuperseded : superseded → superseded') : Stage y uri superseded' a? := by
  cases h with
  | asked => exact .asked
  | begun => exact .begun
  | holding hheld hbefore => exact .holding hheld (hfed hbefore)
  | applying hbefore => exact .applying (hfed hbefore)
  | relighting hbefore => exact .relighting (hshown hbefore)
  | answering hbefore hbefore' => exact .answering (hfed hbefore) (hbefore'.imp hshown hsuperseded)
  | ended => exact .ended

/-- While it waits for its refresh, a request goes on with that, or to its answer. -/
theorem next_refreshing (s : Surroundings) (e : Explorer) (i : Nat) (r : Refresh) :
    ((Activity.treeRequest ⟨uri, .refreshing r⟩).turn s e).next.phase? =
        some (.treeRequest ⟨uri, ((r.turn s e).next.phase?).elim .answering .refreshing⟩) ∧
      answerOf i ((Activity.treeRequest ⟨uri, .refreshing r⟩).turn s e).next = [] := by
  simp only [Activity.turn, TreeRequest.turn, Turn.within]
  cases (r.turn s e).next <;> exact ⟨rfl, rfl⟩

theorem accepts_manual (mode : RefreshMode) : mode.accepts .manual := by
  cases mode <;> rfl

/-- A turn of the request for a document that is open. -/
theorem Stage.turned {a : Activity} (h : Stage x uri superseded (some a)) (hat : x.at? i = some a)
    (hregular : x.explorer.tickets.Regular) (hopen : x.explorer.isOpen uri) (hok : x.Unfailed)
    (hcancelled : ∀ r k, x.refresh? i = some r → r.phase.ticket? = some k →
      x.explorer.tickets.isCancelled k → superseded') (s : Surroundings) :
    Stage (x.goOn i (a.turn s x.explorer)) uri superseded' (a.turn s x.explorer).next.phase? := by
  -- Where the request waits for its refresh, the turn is that of the refresh.
  have hrefresh : ∀ phase, a = .treeRequest ⟨uri, .refreshing ⟨uri, .manual, phase⟩⟩ →
      a.refresh? = some ⟨uri, .manual, phase⟩ ∧
      (a.turn s x.explorer).explorer =
        (Refresh.turn s x.explorer ⟨uri, .manual, phase⟩).explorer ∧
      (a.turn s x.explorer).next.phase? = some (.treeRequest ⟨uri,
        ((Refresh.turn s x.explorer ⟨uri, .manual, phase⟩).next.phase?).elim
          .answering .refreshing⟩) := by
    rintro phase rfl
    exact ⟨rfl, rfl, (next_refreshing s x.explorer i _).1⟩
  cases h with
  | asked =>
      simp only [Activity.turn, TreeRequest.turn, hopen, if_true]
      split
      next hshown => exact .answering (.inl hshown) (.inl hshown)
      next => exact .begun
  | begun =>
      obtain ⟨hr, -, hnext⟩ := hrefresh _ rfl
      obtain ⟨due, hphase, -⟩ := Refresh.turn_start s hopen (accepts_manual _)
      have hfed := fed_of_start hat hr hopen (accepts_manual _) s
      rw [hnext, hphase]
      exact .holding rfl hfed
  | @holding phase k hheld hfed =>
      obtain ⟨hr, -, hnext⟩ := hrefresh _ rfl
      have hfed' := hfed.turned_refresh hregular hopen hok hat hr s
      rw [hnext]
      cases hk : x.explorer.tickets.isCancelled k with
      | true =>
          obtain ⟨phase?, hturns⟩ := Refresh.exists_turnsTo ⟨uri, .manual, phase⟩ i s x.explorer
          rw [hturns.next]
          cases hphase : phase? with
          | none =>
              exact .answering hfed' (.inr (hcancelled _ k (refresh?_of_at? hat hr) hheld hk))
          | some p => exact .holding (hturns.turns.ticket_of_isCancelled hheld hk p hphase) hfed'
      | false =>
          obtain ⟨p, hp, ⟨hheld', -⟩ | ⟨o, rfl⟩⟩ :=
            Refresh.turn_kept s hheld hk hopen (hok i _ (refresh?_of_at? hat hr))
          · rw [hp]
            exact .holding hheld' hfed'
          · rw [hp]
            exact .applying hfed'
  | @applying o hfed =>
      obtain ⟨hr, hexplorer, hnext⟩ := hrefresh _ rfl
      have happlied : Refresh.phase ⟨uri, .manual, .applying o⟩ = .applying o := rfl
      have hshown := hexplorer ▸ Refresh.turn_applying s happlied hopen
      obtain ⟨phase?, hturns⟩ := Refresh.exists_turnsTo ⟨uri, .manual, .applying o⟩ i s x.explorer
      rw [hnext, hturns.next]
      cases hphase : phase? with
      | none => exact .answering (.inl hshown) (.inl hshown)
      | some p =>
          obtain rfl := hturns.turns.eq_relighting hphase
          exact .relighting hshown
  | relighting hshown =>
      obtain ⟨-, -, hnext⟩ := hrefresh _ rfl
      rw [hnext]
      exact .answering (.inl hshown) (.inl hshown)
  | answering => exact .ended

/-- A wait that lapses brings the request to read, with the ticket that it had. -/
theorem Stage.lapsed {a : Activity} (h : Stage x uri superseded (some a)) {r : Refresh}
    {ticket due : Nat} (hr : a.refresh? = some r) (hphase : r.phase = .debouncing ticket due) :
    Stage x uri superseded (some (a.toPhase (.reading ticket))) := by
  cases h with
  | asked | answering => cases hr
  | begun | applying | relighting =>
      cases hr
      cases hphase
  | holding hheld hfed =>
      cases hr
      obtain rfl := hphase
      exact .holding hheld hfed

theorem Stage.moves {st : ActivityStep} (h : Stage x uri superseded (x.at? i))
    (hi : i < x.activities.length) (hmoves : Moves x st y) (hleaves : st.LeavesOpen uri)
    (hregular : x.explorer.tickets.Regular) (hopen : x.explorer.isOpen uri) (hok : x.Unfailed)
    (hcancelled : ∀ r k, x.refresh? i = some r → r.phase.ticket? = some k →
      x.explorer.tickets.isCancelled k → superseded')
    (hsuperseded : superseded → superseded') : Stage y uri superseded' (y.at? i) := by
  have hkept : Stage y uri superseded' (x.at? i) :=
    h.kept (fun hfed => hfed.moves hregular hopen hok hmoves hleaves) (hmoves.keeps hleaves).shown
      hsuperseded
  cases hmoves with
  | idle | told | configured => exact hkept
  | begun errand =>
      rwa [at?, List.getElem?_append_left hi]
  | @turned j s a hat =>
      show Stage _ uri superseded' ((x.activities.set j _)[i]?.join)
      rw [at?_set hat]
      split
      next heq =>
          subst heq
          rw [hat] at h
          exact h.turned hat hregular hopen hok hcancelled s
      next => exact hkept
  | @lapsed j s a r ticket due hat hr hphase =>
      show Stage _ uri superseded' ((x.activities.set j _)[i]?.join)
      rw [at?_set hat]
      split
      next heq =>
          subst heq
          rw [hat] at hkept
          exact hkept.lapsed hr hphase
      next => exact hkept

end Stage

/-! ### Every request -/

section Requests

variable {settings : Settings} {provider : OutlineProvider} {before steps : List ActivityStep}
  {uri : Uri} {i : Nat} {item : Option TreeItem}

/-- The refresh of an activity has lost its ticket. -/
def Superseded (settings : Settings) (provider : OutlineProvider) (steps : List ActivityStep)
    (i : Nat) : Prop :=
  ∃ past r ticket, past <+: steps ∧ (run settings provider past).refresh? i = some r ∧
    r.phase.ticket? = some ticket ∧
    (run settings provider steps).explorer.tickets.isCancelled ticket

theorem Superseded.append_singleton (h : Superseded settings provider steps i) (st : ActivityStep) :
    Superseded settings provider (steps ++ [st]) i := by
  obtain ⟨past, r, ticket, hpast, hr, hheld, hcancelled⟩ := h
  exact ⟨past, r, ticket, hpast.trans (List.prefix_append _ _), hr, hheld,
    isCancelled_append_singleton hcancelled st⟩

/-- A request for the tree of a document is about to be answered, and with what. -/
structure Replies (settings : Settings) (provider : OutlineProvider) (steps : List ActivityStep)
    (i : Nat) (uri : Uri) (item : Option TreeItem) : Prop where
  asking : (run settings provider steps).at? i = some (.treeRequest ⟨uri, .answering⟩)
  shown : item = (run settings provider steps).explorer.item? uri
  /-- Only a refresh that has lost its ticket leaves nothing to answer with. -/
  superseded : item = none → Superseded settings provider steps i
  /-- Then another one is to bring the tree. -/
  coming : item = none → (run settings provider steps).Coming uri

/-- What is known of a request while its document stays open and no outline fails. -/
structure Served (settings : Settings) (provider : OutlineProvider) (steps : List ActivityStep)
    (i : Nat) (uri : Uri) : Prop where
  begun : i < (run settings provider steps).activities.length
  opened : (run settings provider steps).explorer.isOpen uri
  unfailed : (run settings provider steps).Unfailed
  stage : Stage (run settings provider steps) uri (Superseded settings provider steps i)
    ((run settings provider steps).at? i)
  answered : ∀ answer, (i, answer) ∈ (run settings provider steps).answers →
    ∃ past item, past <+: steps ∧ answer = .item item ∧ Replies settings provider past i uri item

theorem unfailed_run (h : ∀ st ∈ steps, st.Succeeds) : (run settings provider steps).Unfailed := by
  induction steps using List.reverseRecOn with
  | nil =>
      intro i r hr
      cases hr
  | append_singleton past st ih =>
      rw [run_append_singleton]
      simp only [List.forall_mem_append, List.forall_mem_singleton] at h
      exact (ih h.1).moves (moves _ st) h.2

/-- A request that gives its answer reads the tree. -/
theorem Served.replies (h : Served settings provider steps i uri) {a : Activity}
    (hat : (run settings provider steps).at? i = some a) {s : Surroundings} {answer : Answer}
    (hanswer : (i, answer) ∈ answerOf i (a.turn s (run settings provider steps).explorer).next) :
    ∃ item, answer = .item item ∧ Replies settings provider steps i uri item := by
  have hstage := h.stage
  rw [hat] at hstage
  cases hstage with
  | asked =>
      simp only [Activity.turn, TreeRequest.turn, h.opened, if_true] at hanswer
      split at hanswer <;> cases hanswer
  | begun | holding | applying | relighting =>
      rw [(next_refreshing s _ i _).2] at hanswer
      cases hanswer
  | answering hfed hshown =>
      cases List.mem_singleton.mp hanswer
      have hmissing : (run settings provider steps).explorer.item? uri = none →
          ¬ ((run settings provider steps).explorer.tree? uri).isSome := by
        intro hnone
        rw [Option.map_eq_none_iff.mp hnone]
        exact Bool.false_ne_true
      exact ⟨_, rfl, hat, rfl, fun hnone => hshown.resolve_left (hmissing hnone),
        fun hnone => hfed.resolve_left (hmissing hnone)⟩

theorem Served.step (h : Served settings provider steps i uri) {st : ActivityStep}
    (hleaves : st.LeavesOpen uri) (hsucceeds : st.Succeeds) :
    Served settings provider (steps ++ [st]) i uri := by
  have hmoves := moves (run settings provider steps) st
  have hprefix : steps <+: steps ++ [st] := List.prefix_append _ _
  have hregular := regular_tickets settings provider steps
  have hcancelled : ∀ r k, (run settings provider steps).refresh? i = some r →
      r.phase.ticket? = some k → (run settings provider steps).explorer.tickets.isCancelled k →
      Superseded settings provider (steps ++ [st]) i := fun r k hr hheld hk =>
    ⟨steps, r, k, hprefix, hr, hheld, isCancelled_append_singleton hk st⟩
  have hstage := h.stage.moves h.begun hmoves hleaves hregular h.opened h.unfailed hcancelled
    fun hsuperseded => hsuperseded.append_singleton st
  rw [← run_append_singleton] at hmoves hstage
  refine ⟨Nat.lt_of_lt_of_le h.begun hmoves.length_le, (hmoves.keeps hleaves).opened h.opened,
    h.unfailed.moves hmoves hsucceeds, hstage, ?_⟩
  intro answer hanswer
  rcases hmoves.mem_answers hanswer with hmem | ⟨s, a, hat, hnew⟩
  · obtain ⟨past, item, hpast, hrest⟩ := h.answered answer hmem
    exact ⟨past, item, hpast.trans hprefix, hrest⟩
  · obtain ⟨item, hitem, hreplies⟩ := h.replies hat hnew
    exact ⟨steps, item, hprefix, hitem, hreplies⟩

theorem served_begun (hopen : (run settings provider before).explorer.isOpen uri)
    (hsucceeds : ∀ st ∈ before, st.Succeeds) :
    Served settings provider (before ++ [.begin (.tree uri)])
      (run settings provider before).activities.length uri := by
  have hunfailed : (run settings provider before).Unfailed := unfailed_run hsucceeds
  have hat : (run settings provider (before ++ [.begin (.tree uri)])).at?
      (run settings provider before).activities.length = some (.treeRequest ⟨uri, .start⟩) := by
    rw [run_append_singleton, step, at?, List.getElem?_concat_length]
    rfl
  refine ⟨lt_of_at? hat, ?_, ?_, ?_, ?_⟩
  · rw [run_append_singleton]
    exact hopen
  · rw [run_append_singleton]
    exact hunfailed.moves (.begun (.tree uri)) trivial
  · rw [hat]
    exact .asked
  · intro answer hmem
    rw [run_append_singleton] at hmem
    exact absurd (lt_of_mem_answers hmem) (Nat.lt_irrefl _)

/-- A request for the tree of an open document that stays open, while no outline fails, is answered
with the tree, unless a newer refresh has taken the place of its own and is still to bring it. -/
theorem request_is_answered_unless_superseded {after : List ActivityStep}
    (hopen : (run settings provider before).explorer.isOpen uri)
    (hleaves : ∀ st ∈ after, st.LeavesOpen uri)
    (hsucceeds : ∀ st ∈ before ++ after, st.Succeeds) :
    ∀ answer, ((run settings provider before).activities.length, answer) ∈
        (run settings provider (before ++ .begin (.tree uri) :: after)).answers →
      ∃ past item, past <+: before ++ .begin (.tree uri) :: after ∧ answer = .item item ∧
        Replies settings provider past (run settings provider before).activities.length uri
          item := by
  suffices hserved : Served settings provider (before ++ .begin (.tree uri) :: after)
      (run settings provider before).activities.length uri from hserved.answered
  obtain ⟨hbefore, hafter⟩ := List.forall_mem_append.mp hsucceeds
  clear hsucceeds
  induction after using List.reverseRecOn with
  | nil => exact served_begun hopen hbefore
  | append_singleton past st ih =>
      simp only [List.forall_mem_append, List.forall_mem_singleton] at hleaves hafter
      rw [← List.cons_append, ← List.append_assoc]
      exact (ih hleaves.1 hafter.1).step hleaves.2 hafter.2

end Requests

/-! ### A request that is overtaken -/

open RefreshTraffic (cartDocument answering)

/-- While the outline for a request is made, the document is edited, and a refresh for the edit
waits for the typing to pause. -/
def overtaken : List ActivityStep :=
  let s := answering 0 (.cartOf ["adds"])
  [.turn 0 s, .turn 0 s, .turn 0 s, .turn 0 s, .turn 0 s,
    .tell (.edited cartDocument "second" none),
    .begin (.refresh cartDocument .change), .turn 1 s, .turn 0 s, .turn 0 s, .turn 0 s]

/-- A document is opened before. -/
def openedCart : List ActivityStep := [.tell (.opened cartDocument "first" none)]

theorem overtaken_leavesOpen : ∀ st ∈ overtaken, st.LeavesOpen cartDocument := by
  simp [overtaken, ActivityStep.LeavesOpen]

theorem overtaken_succeeds : ∀ st ∈ openedCart ++ overtaken, st.Succeeds := by
  simp [openedCart, overtaken, ActivityStep.Succeeds, Surroundings.Succeeds, answering]

theorem overtaken_answers : (run .default (.tool Settings.default.toolPath)
    (openedCart ++ .begin (.tree cartDocument) :: overtaken)).answers = [(0, .item none)] := by
  rfl

/-- So a newer refresh can cost a request its answer, although no outline fails. -/
theorem request_left_without_answer :
    ¬ ∀ (settings : Settings) (provider : OutlineProvider) (before after : List ActivityStep)
      (uri : Uri), (run settings provider before).explorer.isOpen uri →
      (∀ st ∈ after, st.LeavesOpen uri) → (∀ st ∈ before ++ after, st.Succeeds) →
      ∀ answer, ((run settings provider before).activities.length, answer) ∈
          (run settings provider (before ++ .begin (.tree uri) :: after)).answers →
        answer ≠ .item none := by
  intro hnever
  have hanswer := hnever .default (.tool Settings.default.toolPath) openedCart overtaken
    cartDocument rfl overtaken_leavesOpen overtaken_succeeds (.item none)
  rw [overtaken_answers] at hanswer
  exact hanswer (List.mem_singleton_self _) rfl

/-- The request that was overtaken, and the refresh for the edit that is still to bring the tree. -/
theorem request_is_answered_unless_superseded_overtaken :
    (run .default (.tool Settings.default.toolPath) openedCart).explorer.isOpen cartDocument ∧
      (∀ st ∈ overtaken, st.LeavesOpen cartDocument) ∧
      (∀ st ∈ openedCart ++ overtaken, st.Succeeds) ∧
      ∃ past, past <+: openedCart ++ .begin (.tree cartDocument) :: overtaken ∧
        Replies .default (.tool Settings.default.toolPath) past 0 cartDocument none := by
  have hmem : (0, Answer.item none) ∈ (run .default (.tool Settings.default.toolPath)
      (openedCart ++ .begin (.tree cartDocument) :: overtaken)).answers := by
    rw [overtaken_answers]
    exact List.mem_singleton_self _
  obtain ⟨past, item, hpast, hitem, hreplies⟩ :=
    @request_is_answered_unless_superseded .default (.tool Settings.default.toolPath) openedCart
      cartDocument overtaken rfl overtaken_leavesOpen overtaken_succeeds _ hmem
  cases hitem
  exact ⟨rfl, overtaken_leavesOpen, overtaken_succeeds, past, hpast, hreplies⟩

end ActivityTraffic

end SpecExplorer
