/-
# Activities side by side

Everything that the explorer does at once: refreshes, runs, clicks and requests take turns in any
order, while the client opens, edits and closes documents and changes the settings. Many of them
wait for a refresh of their own, and only refreshes deal in tickets. So a turn is either that of the
refresh that an activity is or waits for, or it leaves tickets alone, and documents open with their
trees. `step` makes one move, and a move that is not possible changes nothing.
-/
import Mathlib.Data.List.Induction
import SpecExplorer.Explorer.Activity
import SpecExplorer.Proofs.Explorer.Following
import SpecExplorer.Proofs.Explorer.Standing

namespace SpecExplorer

/-! ### The refresh of an activity -/

namespace Activity

/-- The refresh that an activity is, or that it waits for. -/
def refresh? : Activity → Option Refresh
  | .refresh r => some r
  | .run ⟨_, _, .refreshing r⟩ => some r
  | .click ⟨_, .running ⟨_, _, .refreshing r⟩⟩ => some r
  | .treeRequest ⟨_, .refreshing r⟩ => some r
  | _ => none

/-- The same activity with its refresh in another phase. -/
def toPhase (a : Activity) (phase : RefreshPhase) : Activity :=
  match a with
  | .refresh r => .refresh (r.toPhase phase)
  | .run ⟨uri, key, .refreshing r⟩ => .run ⟨uri, key, .refreshing (r.toPhase phase)⟩
  | .click ⟨target, .running ⟨uri, key, .refreshing r⟩⟩ =>
    .click ⟨target, .running ⟨uri, key, .refreshing (r.toPhase phase)⟩⟩
  | .treeRequest ⟨uri, .refreshing r⟩ => .treeRequest ⟨uri, .refreshing (r.toPhase phase)⟩
  | a => a

end Activity

theorem Activity.refresh?_toPhase {a : Activity} {r : Refresh} (h : a.refresh? = some r)
    (phase : RefreshPhase) : (a.toPhase phase).refresh? = some (r.toPhase phase) := by
  unfold refresh? at h
  split at h
  all_goals cases h
  all_goals rfl

/-! ### The world of activities -/

/-- What the client sets off. -/
inductive Errand where
  | refresh (uri : Uri) (trigger : RefreshTrigger)
  | run (uri : Uri) (key : NodeKey)
  | click (target : ClickTarget)
  | coverage (uri : Uri)
  | tree (uri : Uri)
  | showOutput (uri : Uri) (key : NodeKey)
  | toggleLenses

def Errand.activity : Errand → Activity
  | refresh uri trigger => .refresh (.ofTrigger uri trigger)
  | run uri key => .run (.ofNode uri key)
  | click target => .click (.ofTarget target)
  | coverage uri => .coverage (.ofDocument uri)
  | tree uri => .treeRequest (.ofDocument uri)
  | showOutput uri key => .showOutput uri key
  | toggleLenses => .toggleLenses

structure ActivityTraffic where
  explorer : Explorer
  /-- The activities in the order in which they were begun, `none` for one that has ended. -/
  activities : List (Option Activity)
  /-- What they have ended with, by place, first one first. -/
  answers : List (Nat × Answer)

inductive ActivityStep where
  | begin (errand : Errand)
  /-- The client says something of a document. -/
  | tell (event : DocumentEvent)
  | configure (settings : Settings)
  /-- The activity at a place has a turn. -/
  | turn (i : Nat) (s : Surroundings)
  /-- The wait of a refresh is up, and that is noticed before its ticket is looked at. -/
  | lapse (i : Nat) (s : Surroundings)

namespace ActivityTraffic

/-- An explorer that has just been started. -/
def start (settings : Settings) (provider : OutlineProvider) : ActivityTraffic :=
  ⟨.start settings provider, [], []⟩

/-- The activity at a place, unless it has ended. -/
def at? (x : ActivityTraffic) (i : Nat) : Option Activity := x.activities[i]?.join

/-- The refresh at a place. -/
def refresh? (x : ActivityTraffic) (i : Nat) : Option Refresh := (x.at? i).bind (·.refresh?)

/-- The answer of an activity that is over. -/
def answerOf (i : Nat) : Next Activity Answer → List (Nat × Answer)
  | .done answer => [(i, answer)]
  | _ => []

/-- The activity at a place has had a turn. -/
def goOn (x : ActivityTraffic) (i : Nat) (t : Turn Activity Answer) : ActivityTraffic where
  explorer := t.explorer
  activities := x.activities.set i t.next.phase?
  answers := x.answers ++ answerOf i t.next

/-- One move. -/
def step (x : ActivityTraffic) : ActivityStep → ActivityTraffic
  | .begin errand => { x with activities := x.activities ++ [some errand.activity] }
  | .tell event => { x with explorer := event.apply x.explorer }
  | .configure settings => { x with explorer := (x.explorer.applySettings settings).1 }
  | .turn i s =>
    match x.at? i with
    | none => x
    | some a => x.goOn i (a.turn s x.explorer)
  | .lapse i s =>
    match x.at? i, x.refresh? i with
    | some a, some ⟨_, _, .debouncing ticket due⟩ =>
      if due ≤ s.now then
        { x with activities := x.activities.set i (some (a.toPhase (.reading ticket))) }
      else x
    | _, _ => x

/-- What a list of moves comes to, from an explorer that has just been started. -/
def run (settings : Settings) (provider : OutlineProvider) (steps : List ActivityStep) :
    ActivityTraffic :=
  steps.foldl step (start settings provider)

theorem run_append_singleton (settings : Settings) (provider : OutlineProvider)
    (steps : List ActivityStep) (st : ActivityStep) :
    run settings provider (steps ++ [st]) = (run settings provider steps).step st :=
  List.foldl_append

end ActivityTraffic

/-! ### What leaves tickets and trees in place -/

namespace Explorer

variable {uri : Uri} {e e' e'' : Explorer}

/-- A document stays open, and a tree that it has is not taken away. -/
structure Keeps (uri : Uri) (e e' : Explorer) : Prop where
  opened : e.isOpen uri → e'.isOpen uri
  shown : (e.tree? uri).isSome → (e'.tree? uri).isSome

/-- No ticket changes hands, and every document is kept as it should be. -/
structure Spares (e e' : Explorer) : Prop where
  tickets : e'.tickets = e.tickets
  keeps : ∀ uri, Keeps uri e e'

theorem keeps_of_documents_eq (hdocuments : e'.documents = e.documents) : Keeps uri e e' where
  opened hopen := by rwa [isOpen, hdocuments]
  shown hshown := by rwa [tree?, document?, hdocuments]

theorem spares_of_documents_eq (hdocuments : e'.documents = e.documents)
    (htickets : e'.tickets = e.tickets) : Spares e e' :=
  ⟨htickets, fun _ => keeps_of_documents_eq hdocuments⟩

theorem Keeps.trans (h : Keeps uri e e') (h' : Keeps uri e' e'') : Keeps uri e e'' :=
  ⟨h'.opened ∘ h.opened, h'.shown ∘ h.shown⟩

theorem isOpen_iff : e.isOpen uri ↔ ∃ doc, e.document? uri = some doc :=
  Option.isSome_iff_exists

theorem keeps_setTree (e : Explorer) (other : Uri) (t : TestTree) :
    Keeps uri e (e.setTree other t) := by
  by_cases hother : uri = other
  · subst hother
    refine ⟨?_, ?_⟩
    · intro hopen
      obtain ⟨doc, hdoc⟩ := isOpen_iff.mp hopen
      rw [isOpen_iff, document?_setTree, if_pos rfl, hdoc]
      exact ⟨_, rfl⟩
    · intro hshown
      obtain ⟨t', ht'⟩ := Option.isSome_iff_exists.mp hshown
      obtain ⟨doc, hdoc, -⟩ := Option.bind_eq_some_iff.mp ht'
      rw [tree?_setTree hdoc]
      rfl
  · refine ⟨?_, ?_⟩
    · intro hopen
      rwa [isOpen_iff, document?_setTree, if_neg hother, ← isOpen_iff]
    · intro hshown
      rwa [tree?_setTree_of_ne hother]

theorem spares_setTree (e : Explorer) (other : Uri) (t : TestTree) :
    Spares e (e.setTree other t) :=
  ⟨rfl, fun _ => keeps_setTree e other t⟩

theorem Spares.congr (h : Spares e e') (hdocuments : e''.documents = e'.documents)
    (htickets : e''.tickets = e'.tickets) : Spares e e'' :=
  ⟨htickets.trans h.tickets, fun uri => (h.keeps uri).trans (keeps_of_documents_eq hdocuments)⟩

/-- The number of runs under way matters neither to tickets nor to documents. -/
theorem Spares.of_runEnded (h : Spares (NodeRun.runEnded e) e') : Spares e e' :=
  ⟨h.tickets, fun uri => ⟨(h.keeps uri).opened, (h.keeps uri).shown⟩⟩

theorem spares_offer (e : Explorer) (path : FilePath) : Spares e (e.offer path).1 := by
  unfold offer offerInstall
  by_cases hany : e.installOffered.any (·.same path)
  · rw [if_pos hany]
    exact spares_of_documents_eq rfl rfl
  · rw [if_neg hany]
    exact spares_of_documents_eq rfl rfl

theorem spares_outlineCall (s : Surroundings) (e : Explorer) (call : OutlineCall) :
    Spares e (call.turn s e).explorer :=
  have hframe := call.turn_frame s e
  spares_of_documents_eq hframe.1 hframe.2.1

theorem spares_withTree (r : NodeRun) (e : Explorer) (session : RunSession)
    (f : TestTree → RunSession × TestTree × List NodeKey) :
    Spares e (r.withTree e session f).1 := by
  unfold NodeRun.withTree
  split
  next => exact spares_of_documents_eq rfl rfl
  next => exact spares_setTree e r.uri _

theorem spares_prepare (r : NodeRun) (e : Explorer) :
    Spares e (r.prepare e).explorer := by
  unfold NodeRun.prepare
  split
  next => exact spares_of_documents_eq rfl rfl
  next t htree =>
      split
      next => exact spares_of_documents_eq rfl rfl
      next => exact (spares_setTree e r.uri _).congr rfl rfl

theorem spares_expand (c : ItemClick) (e : Explorer) : Spares e (c.expand e).1 := by
  unfold ItemClick.expand
  split
  next => exact spares_of_documents_eq rfl rfl
  next =>
      split
      next => exact spares_of_documents_eq rfl rfl
      next => exact spares_setTree e c.target.uri _

/-- A run that does not wait for a refresh. -/
theorem spares_nodeRun (s : Surroundings) (e : Explorer) (r : NodeRun)
    (hphase : ∀ own, r.phase ≠ .refreshing own) : Spares e (r.turn s e).explorer := by
  unfold NodeRun.turn
  split
  next => split <;> exact spares_of_documents_eq rfl rfl
  next own heq => exact absurd heq (hphase own)
  next => exact spares_prepare r e
  next => split <;> exact spares_of_documents_eq rfl rfl
  next session fault heq =>
      have hspares := spares_withTree r (NodeRun.runEnded e) session session.abort
      cases fault <;> exact hspares.of_runEnded
  next path heq => exact spares_offer e path
  next => exact spares_of_documents_eq rfl rfl
  next session due event rest heq =>
      split
      next => exact spares_of_documents_eq rfl rfl
      next => exact spares_withTree r e session _
  next session heq => exact (spares_withTree r _ session session.finish).of_runEnded
  next => exact spares_of_documents_eq rfl rfl

end Explorer

/-! ### One turn -/

theorem Next.phase?_map {φ φ' ρ ρ' : Type} (f : φ → φ') (g : ρ → Next φ' ρ') (n : Next φ ρ) :
    (n.map f g).phase? = match n with
      | .go phase | .wait _ phase => some (f phase)
      | .done answer => (g answer).phase? := by
  cases n <;> rfl

namespace Activity

variable {a : Activity} {r : Refresh}

/-- An activity with a refresh takes the turn of that. -/
theorem turn_of_refresh? (h : a.refresh? = some r) (s : Surroundings) (e : Explorer) :
    (a.turn s e).explorer = (r.turn s e).explorer ∧
      (a.turn s e).next.phase?.bind refresh? = (r.turn s e).next.phase? := by
  unfold refresh? at h
  split at h
  all_goals cases h
  all_goals refine ⟨rfl, ?_⟩
  all_goals
    simp only [turn, NodeRun.turn, ItemClick.turn, TreeRequest.turn, Turn.within]
    cases (r.turn s e).next <;> rfl

end Activity

/-- A run that a turn brings to wait for a refresh has that refresh yet to start. -/
theorem NodeRun.start_of_turn (s : Surroundings) (e : Explorer) (r : NodeRun)
    (hphase : ∀ own, r.phase ≠ .refreshing own) :
    ∀ r', (r.turn s e).next.phase? = some r' → ∀ own, r'.phase = .refreshing own →
      own.phase = .start := by
  have harrival : ∀ session arrivals r', (r.nextArrival session arrivals).phase? = some r' →
      ∀ own, r'.phase ≠ .refreshing own := by
    intro session arrivals r' hr' own hown
    cases arrivals <;> cases hr' <;> cases hown
  intro r' hr' own hown
  unfold turn at hr'
  split at hr'
  next =>
      split at hr'
      next => cases hr'; cases hown
      next => cases hr'; cases hown; rfl
  next own' heq => exact absurd heq (hphase own')
  next =>
      unfold prepare at hr'
      repeat' split at hr'
      all_goals cases hr'
      cases hown
  next session focus runner heq =>
      split at hr'
      next => cases hr'; cases hown
      next o hrun => exact absurd hown (harrival session (arrivals s o) r' hr' own)
  next session fault heq =>
      cases fault with
      | toolNotFound path => cases hr'; cases hown
      | _ => cases hr'
  next => cases hr'
  next => cases hr'; cases hown
  next =>
      split at hr'
      next =>
          obtain rfl := Option.some.inj hr'
          exact absurd hown (hphase own)
      next => exact absurd hown (harrival _ _ r' hr' own)
  next => cases hr'; cases hown
  next => cases hr'

namespace Activity

open Explorer

/-- A turn spares tickets and trees, and a refresh that it begins has yet to start. -/
structure Beside (e : Explorer) (t : Turn Activity Answer) : Prop where
  spares : e.Spares t.explorer
  start : ∀ own, t.next.phase?.bind refresh? = some own → own.phase = .start

theorem beside_of_documents_eq {e : Explorer} {t : Turn Activity Answer}
    (hdocuments : t.explorer.documents = e.documents) (htickets : t.explorer.tickets = e.tickets)
    (hnext : t.next.phase?.bind refresh? = none) : Beside e t where
  spares := spares_of_documents_eq hdocuments htickets
  start own hown := by
    rw [hnext] at hown
    cases hown

/-- The next of a run as part of a larger activity. -/
theorem start_of_next {r : NodeRun} {s : Surroundings} {e : Explorer}
    (hphase : ∀ own, r.phase ≠ .refreshing own) {f : NodeRun → Activity}
    (hf : ∀ r' own, (f r').refresh? = some own → r'.phase = .refreshing own)
    {g : Bool → Next Activity Answer} (hg : ∀ b, (g b).phase? = none) :
    ∀ own, (((r.turn s e).next.map f g).phase?).bind refresh? = some own → own.phase = .start := by
  intro own hown
  have hstart := r.start_of_turn s e hphase
  rw [Next.phase?_map] at hown
  generalize (r.turn s e).next = n at hown hstart
  cases n with
  | done answer =>
      dsimp only at hown
      rw [hg answer] at hown
      cases hown
  | go r' | wait w r' => exact hstart r' rfl own (hf r' own hown)

theorem beside_run (s : Surroundings) (e : Explorer) (r : NodeRun)
    (h : (Activity.run r).refresh? = none) : Beside e ((Activity.run r).turn s e) := by
  obtain ⟨document, key, phase⟩ := r
  have hphase : ∀ own, phase ≠ .refreshing own := by
    rintro own rfl
    cases h
  refine ⟨spares_nodeRun s e _ hphase, start_of_next hphase ?_ fun _ => rfl⟩
  rintro ⟨document', key', phase'⟩ own hown
  cases phase' <;> cases hown
  rfl

theorem beside_click (s : Surroundings) (e : Explorer) (c : ItemClick)
    (h : (Activity.click c).refresh? = none) : Beside e ((Activity.click c).turn s e) := by
  obtain ⟨target, phase⟩ := c
  cases phase with
  | start =>
      simp only [turn, ItemClick.turn]
      split <;> exact beside_of_documents_eq rfl rfl rfl
  | waiting id due =>
      simp only [turn, ItemClick.turn]
      repeat' split
      all_goals exact beside_of_documents_eq rfl rfl rfl
  | expanding => exact ⟨spares_expand _ e, fun own hown => by cases hown⟩
  | running run =>
      obtain ⟨document, key, phase⟩ := run
      have hphase : ∀ own, phase ≠ .refreshing own := by
        rintro own rfl
        cases h
      have hnext : ((Activity.click ⟨target, .running ⟨document, key, phase⟩⟩).turn s e).next =
          (NodeRun.turn s e ⟨document, key, phase⟩).next.map
            (fun run => .click ⟨target, .running run⟩) fun _ => .done (.action (some .run)) := by
        simp only [turn, ItemClick.turn, Turn.within]
        cases (NodeRun.turn s e ⟨document, key, phase⟩).next <;> rfl
      refine ⟨spares_nodeRun s e _ hphase, ?_⟩
      rw [hnext]
      refine start_of_next hphase ?_ fun _ => rfl
      rintro ⟨document', key', phase'⟩ own hown
      cases phase' <;> cases hown
      rfl

theorem beside_outlining (s : Surroundings) (e : Explorer) (call : OutlineCall)
    {f : OutlineCall → Activity} (hf : ∀ call, (f call).refresh? = none)
    {g : OutlineAnswer → Next Activity Answer} (hg : ∀ answer, (g answer).phase? = none) :
    Beside e ((call.turn s e).within f g) := by
  refine ⟨spares_outlineCall s e call, ?_⟩
  intro own hown
  rw [Turn.within, Next.phase?_map] at hown
  cases hnext : (call.turn s e).next with
  | done answer =>
      rw [hnext] at hown
      dsimp only at hown
      rw [hg answer] at hown
      cases hown
  | go call' | wait w call' =>
      rw [hnext, Option.bind_some, hf call'] at hown
      cases hown

theorem beside_treeRequest (s : Surroundings) (e : Explorer) (r : TreeRequest)
    (h : (Activity.treeRequest r).refresh? = none) :
    Beside e ((Activity.treeRequest r).turn s e) := by
  obtain ⟨document, phase⟩ := r
  cases phase with
  | refreshing own => cases h
  | answering => exact beside_of_documents_eq rfl rfl rfl
  | start =>
      simp only [turn, TreeRequest.turn]
      split
      next =>
          split
          next => exact beside_of_documents_eq rfl rfl rfl
          next =>
              refine ⟨spares_of_documents_eq rfl rfl, ?_⟩
              rintro own ⟨⟩
              rfl
      next => split <;> exact beside_of_documents_eq rfl rfl rfl
  | outlining call =>
      have hturn : (Activity.treeRequest ⟨document, .outlining call⟩).turn s e =
          (call.turn s e).within (fun call => .treeRequest ⟨document, .outlining call⟩) fun answer =>
            .done (.item (TreeRequest.closedItem ⟨document, .outlining call⟩ answer)) := by
        simp only [turn, TreeRequest.turn, Turn.within]
        cases (call.turn s e).next <;> rfl
      rw [hturn]
      exact beside_outlining s e call (fun _ => rfl) fun _ => rfl

theorem beside_coverage (s : Surroundings) (e : Explorer) (c : CoverageRun) :
    Beside e ((Activity.coverage c).turn s e) := by
  obtain ⟨document, phase⟩ := c
  cases phase with
  | start => exact beside_of_documents_eq rfl rfl rfl
  | waiting due result =>
      simp only [turn, CoverageRun.turn]
      repeat' split
      all_goals exact beside_of_documents_eq rfl rfl rfl
  | offering fault path => exact ⟨spares_offer e path, fun own hown => by cases hown⟩

/-- An activity without a refresh. -/
theorem beside_turn {a : Activity} (h : a.refresh? = none) (s : Surroundings) (e : Explorer) :
    Beside e (a.turn s e) := by
  cases a with
  | refresh r => cases h
  | run r => exact beside_run s e r h
  | click c => exact beside_click s e c h
  | coverage c => exact beside_coverage s e c
  | treeRequest r => exact beside_treeRequest s e r h
  | outline call => exact beside_outlining s e call (fun _ => rfl) fun _ => rfl
  | relight flag => exact beside_of_documents_eq rfl rfl rfl
  | toggleLenses => exact beside_of_documents_eq rfl rfl rfl
  | showOutput other key =>
      simp only [turn]
      split <;> exact beside_of_documents_eq rfl rfl rfl
  | sleep due =>
      simp only [turn]
      split <;> exact beside_of_documents_eq rfl rfl rfl
  | press target threshold =>
      simp only [turn]
      split <;> exact beside_of_documents_eq rfl rfl rfl
  | pressed target id due =>
      simp only [turn]
      repeat' split
      all_goals exact beside_of_documents_eq rfl rfl rfl
  | debounce ticket due =>
      simp only [turn]
      split <;> exact beside_of_documents_eq rfl rfl rfl

end Activity

/-! ### One move -/

/-- A step after which a document that was open is open still, with the tree that it had. -/
def ActivityStep.LeavesOpen (uri : Uri) : ActivityStep → Prop
  | .tell (.opened other _ _) | .tell (.closed other) => other ≠ uri
  | _ => True

/-- A refresh with an outline applies it. -/
theorem Refresh.documents_of_applying (r : Refresh) (s : Surroundings) (e : Explorer) {o : Outline}
    (hphase : r.phase = .applying o) :
    (r.turn s e).explorer.documents = (e.applyOutline r.uri o).1.documents := by
  obtain ⟨phase?, hturns⟩ := r.exists_turnsTo 0 s e
  have hturned := hturns.turns
  rw [hphase] at hturned
  cases hturned with
  | ended hdocuments htickets hnot => exact absurd rfl (hnot o)
  | handedBack hheld => cases hheld
  | applied hdocuments => exact hdocuments

namespace Explorer

variable {uri : Uri} {e : Explorer}

/-- A turn of a refresh takes no tree away. -/
theorem keeps_refresh (s : Surroundings) (e : Explorer) (r : Refresh) :
    Keeps uri e (r.turn s e).explorer := by
  obtain ⟨phase?, hturns⟩ := r.exists_turnsTo 0 s e
  by_cases happlies : ∃ o, r.phase = .applying o
  · obtain ⟨o, hphase⟩ := happlies
    have hkeeps : Keeps uri e (e.applyOutline r.uri o).1 := by
      unfold applyOutline
      split
      next => exact keeps_of_documents_eq rfl
      next => exact keeps_setTree e r.uri _
    exact hkeeps.trans (keeps_of_documents_eq (r.documents_of_applying s e hphase))
  · exact keeps_of_documents_eq (hturns.turns.documents fun o hphase => happlies ⟨o, hphase⟩)

theorem keeps_activity (s : Surroundings) (e : Explorer) (a : Activity) :
    Keeps uri e (a.turn s e).explorer := by
  cases hr : a.refresh? with
  | none => exact (Activity.beside_turn hr s e).spares.keeps uri
  | some r =>
      rw [(Activity.turn_of_refresh? hr s e).1]
      exact keeps_refresh s e r

theorem keeps_put {other : Uri} {doc : Document} (hne : other ≠ uri) :
    Keeps uri e { e with documents := e.documents.put other doc } := by
  have hdocument : document? { e with documents := e.documents.put other doc } uri =
      e.document? uri := (Table.get?_put e.documents other uri doc).trans (if_neg hne.symm)
  refine ⟨?_, ?_⟩
  · rw [isOpen_iff, isOpen_iff, hdocument]
    exact id
  · rw [tree?, tree?, hdocument]
    exact id

theorem keeps_apply {event : DocumentEvent}
    (h : ActivityStep.LeavesOpen uri (.tell event)) : Keeps uri e (event.apply e) := by
  cases event with
  | opened other text version => exact keeps_put h
  | edited other text version =>
      refine ⟨?_, ?_⟩
      · intro hopen
        show ((Table.put _ other _).get? uri).isSome
        rw [Table.get?_put]
        split
        · rfl
        · exact hopen
      · intro hshown
        rwa [show (DocumentEvent.apply e (.edited other text version)).tree? uri = e.tree? uri from
          OpenStep.tree?_updateDocument e other text version]
  | closed other =>
      have hdocument : (e.closeDocument other).document? uri = e.document? uri :=
        (Table.get?_erase e.documents other uri).trans (if_neg (Ne.symm h))
      refine ⟨?_, ?_⟩
      · rw [isOpen_iff, isOpen_iff, DocumentEvent.apply, hdocument]
        exact id
      · rw [tree?, tree?, DocumentEvent.apply, hdocument]
        exact id

theorem tickets_applySettings (e : Explorer) (settings : Settings) :
    (e.applySettings settings).1.tickets = e.tickets := by
  simp only [applySettings]
  repeat' split
  all_goals rfl

end Explorer

namespace ActivityTraffic

variable {x : ActivityTraffic} {i j : Nat} {a : Activity}

theorem at?_set (hat : x.at? i = some a) (v : Option Activity) (j : Nat) :
    (x.activities.set i v)[j]?.join = if i = j then v else x.at? j :=
  RefreshTraffic.join_getElem?_set hat v j

theorem lt_of_at? (hat : x.at? i = some a) : i < x.activities.length :=
  (List.getElem?_eq_some_iff.mp (Option.join_eq_some_iff.mp hat)).1

theorem refresh?_goOn (hat : x.at? i = some a) (t : Turn Activity Answer) (j : Nat) :
    (x.goOn i t).refresh? j =
      if i = j then t.next.phase?.bind (·.refresh?) else x.refresh? j := by
  show ((x.activities.set i t.next.phase?)[j]?.join).bind _ = _
  rw [at?_set hat]
  split <;> rfl

theorem refresh?_toPhase {r : Refresh} (hat : x.at? i = some a) (hr : a.refresh? = some r)
    (phase : RefreshPhase) (j : Nat) :
    refresh? { x with activities := x.activities.set i (some (a.toPhase phase)) } j =
      if i = j then some (r.toPhase phase) else x.refresh? j := by
  show ((x.activities.set i (some (a.toPhase phase)))[j]?.join).bind _ = _
  rw [at?_set hat]
  split
  · exact Activity.refresh?_toPhase hr phase
  · rfl

theorem refresh?_of_at? {r : Refresh} (hat : x.at? i = some a) (hr : a.refresh? = some r) :
    x.refresh? i = some r := by
  rw [refresh?, hat, Option.bind_some, hr]

/-- What is begun comes after all others. -/
theorem at?_begun (errand : Errand) (hat : x.at? i = some a) :
    (x.activities ++ [some errand.activity])[i]?.join = some a := by
  rw [List.getElem?_append_left (lt_of_at? hat)]
  exact hat

/-- A move is possible or changes nothing. -/
inductive Moves (x : ActivityTraffic) : ActivityStep → ActivityTraffic → Prop
  | idle {st : ActivityStep} : Moves x st x
  | begun (errand : Errand) :
      Moves x (.begin errand) { x with activities := x.activities ++ [some errand.activity] }
  | told (event : DocumentEvent) :
      Moves x (.tell event) { x with explorer := event.apply x.explorer }
  | configured (settings : Settings) :
      Moves x (.configure settings) { x with explorer := (x.explorer.applySettings settings).1 }
  | turned {i : Nat} {s : Surroundings} {a : Activity} (hat : x.at? i = some a) :
      Moves x (.turn i s) (x.goOn i (a.turn s x.explorer))
  | lapsed {i : Nat} {s : Surroundings} {a : Activity} {r : Refresh} {ticket due : Nat}
      (hat : x.at? i = some a) (hr : a.refresh? = some r)
      (hphase : r.phase = .debouncing ticket due) :
      Moves x (.lapse i s)
        { x with activities := x.activities.set i (some (a.toPhase (.reading ticket))) }

theorem moves (x : ActivityTraffic) (st : ActivityStep) : Moves x st (x.step st) := by
  cases st with
  | begin errand => exact .begun errand
  | tell event => exact .told event
  | configure settings => exact .configured settings
  | turn i s =>
      rw [step]
      split
      next => exact .idle
      next a hat => exact .turned hat
  | lapse i s =>
      rw [step]
      split
      next a uri trigger ticket due hat hr =>
          split
          next =>
              rw [refresh?, hat, Option.bind_some] at hr
              exact .lapsed hat hr rfl
          next => exact .idle
      next => exact .idle

/-- Tickets are dealt with in the ways there are for that. -/
theorem Moves.deals {st : ActivityStep} {y : ActivityTraffic} (h : Moves x st y) :
    ∃ deals : List TicketStep,
      y.explorer.tickets = deals.foldl RefreshTickets.step x.explorer.tickets := by
  cases h with
  | idle | begun | lapsed => exact ⟨[], rfl⟩
  | told event =>
      cases event with
      | opened | edited => exact ⟨[], rfl⟩
      | closed uri => exact ⟨[.cancel uri], rfl⟩
  | configured settings => exact ⟨[], Explorer.tickets_applySettings _ settings⟩
  | @turned i s a hat =>
      show ∃ deals : List TicketStep, (a.turn s x.explorer).explorer.tickets = _
      cases hr : a.refresh? with
      | none =>
          exact ⟨[], (Activity.beside_turn hr s x.explorer).spares.tickets⟩
      | some r =>
          rw [(Activity.turn_of_refresh? hr s x.explorer).1]
          obtain ⟨phase?, hturns⟩ := r.exists_turnsTo i s x.explorer
          rcases hturns.turns.tickets with ⟨htickets, -⟩ | ⟨htickets, -⟩ | ⟨k, -, htickets, -⟩
          · exact ⟨[], htickets⟩
          · exact ⟨[.schedule r.uri], htickets⟩
          · exact ⟨[.complete r.uri k], htickets⟩

theorem Moves.keeps {st : ActivityStep} {y : ActivityTraffic} {uri : Uri} (h : Moves x st y)
    (hleaves : st.LeavesOpen uri) : x.explorer.Keeps uri y.explorer := by
  cases h with
  | idle | begun | lapsed => exact Explorer.keeps_of_documents_eq rfl
  | told event => exact Explorer.keeps_apply hleaves
  | configured settings =>
      exact Explorer.keeps_of_documents_eq (OpenStep.documents_applySettings _ settings)
  | turned hat => exact Explorer.keeps_activity _ _ _

theorem Moves.length_le {st : ActivityStep} {y : ActivityTraffic} (h : Moves x st y) :
    x.activities.length ≤ y.activities.length := by
  cases h with
  | idle | told | configured => exact Nat.le_refl _
  | begun errand =>
      rw [List.length_append]
      exact Nat.le_add_right _ _
  | turned | lapsed => exact Nat.le_of_eq List.length_set.symm

/-- An answer was there before, or it is that of the turn. -/
theorem Moves.mem_answers {st : ActivityStep} {y : ActivityTraffic} {answer : Answer}
    (h : Moves x st y) (hmem : (i, answer) ∈ y.answers) :
    (i, answer) ∈ x.answers ∨ ∃ s a, x.at? i = some a ∧
      (i, answer) ∈ answerOf i (a.turn s x.explorer).next := by
  cases h with
  | idle | told | configured | begun | lapsed => exact .inl hmem
  | @turned j s a hat =>
      refine (List.mem_append.mp hmem).imp_right ?_
      intro hnew
      have hplace : i = j := by
        unfold answerOf at hnew
        split at hnew
        · cases List.mem_singleton.mp hnew
          rfl
        · cases hnew
      subst hplace
      exact ⟨s, a, hat, hnew⟩

/-- All that was ever done with tickets. -/
theorem exists_deals (settings : Settings) (provider : OutlineProvider)
    (steps : List ActivityStep) :
    ∃ deals, (run settings provider steps).explorer.tickets = RefreshTickets.run deals := by
  induction steps using List.reverseRecOn with
  | nil => exact ⟨[], rfl⟩
  | append_singleton before st ih =>
      obtain ⟨deals, hdeals⟩ := ih
      obtain ⟨more, hmore⟩ := (moves (run settings provider before) st).deals
      refine ⟨deals ++ more, ?_⟩
      rw [run_append_singleton, hmore, hdeals, RefreshTickets.run, RefreshTickets.run,
        List.foldl_append]

theorem regular_tickets (settings : Settings) (provider : OutlineProvider)
    (steps : List ActivityStep) : (run settings provider steps).explorer.tickets.Regular := by
  obtain ⟨deals, hdeals⟩ := exists_deals settings provider steps
  rw [hdeals]
  exact RefreshTickets.regular_run deals

theorem isCancelled_append_singleton {settings : Settings} {provider : OutlineProvider}
    {steps : List ActivityStep} {k : Nat}
    (h : (run settings provider steps).explorer.tickets.isCancelled k) (st : ActivityStep) :
    (run settings provider (steps ++ [st])).explorer.tickets.isCancelled k := by
  obtain ⟨deals, hdeals⟩ := exists_deals settings provider steps
  obtain ⟨more, hmore⟩ := (moves (run settings provider steps) st).deals
  rw [hdeals] at h
  rw [run_append_singleton, hmore, hdeals, RefreshTickets.run, ← List.foldl_append]
  exact RefreshTickets.isCancelled_append h

/-- Who has answered was begun before. -/
theorem lt_of_mem_answers {settings : Settings} {provider : OutlineProvider}
    {steps : List ActivityStep} {i : Nat} {answer : Answer}
    (h : (i, answer) ∈ (run settings provider steps).answers) :
    i < (run settings provider steps).activities.length := by
  induction steps using List.reverseRecOn with
  | nil => cases h
  | append_singleton before st ih =>
      have hmoves := moves (run settings provider before) st
      rw [← run_append_singleton] at hmoves
      refine Nat.lt_of_lt_of_le ?_ hmoves.length_le
      rcases hmoves.mem_answers h with hbefore | ⟨s, a, hat, -⟩
      · exact ih hbefore
      · exact lt_of_at? hat

end ActivityTraffic

end SpecExplorer
