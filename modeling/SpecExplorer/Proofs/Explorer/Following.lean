/-
# A client that follows the explorer

While a document is open, activities take turns: outlines are merged into its tree, runs start,
report and end, and nodes are toggled. Each turn that changes the tree says so to the client, but a
merge that changes nothing says nothing, and a run names only the nodes that it lists as changed.
This module shows that no change is kept back: a client that follows what it is told, one change
after the other, shows at any time the item of the whole document.
-/
import SpecExplorer.Explorer.Activity
import SpecExplorer.Proofs.View.Delta

namespace SpecExplorer

open TestTree TreeItem

/-! ### What the client is told -/

/-- The change of a document that an effect tells of. -/
def Effect.change? (uri : Uri) : Effect → Option TreeChange
  | .tell (.treeChanged c) => if c.uri = uri then some c else none
  | _ => none

/-- The changes of a document among effects. -/
def published (uri : Uri) (effects : List Effect) : List TreeChange :=
  effects.filterMap (Effect.change? uri)

section Published

variable {uri : Uri}

theorem published_append (effects more : List Effect) :
    published uri (effects ++ more) = published uri effects ++ published uri more :=
  List.filterMap_append

theorem published_tellChange {change : Option TreeChange} (h : ∀ c ∈ change, c.uri = uri) :
    published uri (NodeRun.tellChange change) = change.toList := by
  cases change with
  | none => rfl
  | some c =>
      have hc : Effect.change? uri (.tell (.treeChanged c)) = some c := if_pos (h c rfl)
      exact List.filterMap_cons_some hc

theorem published_tellChange_of_ne {change : Option TreeChange} (h : ∀ c ∈ change, c.uri ≠ uri) :
    published uri (NodeRun.tellChange change) = [] := by
  cases change with
  | none => rfl
  | some c =>
      have hc : Effect.change? uri (.tell (.treeChanged c)) = none := if_neg (h c rfl)
      exact List.filterMap_cons_none hc

end Published

namespace Mirror

theorem followAll_append (m : Mirror) (changes more : List TreeChange) :
    m.followAll (changes ++ more) = (m.followAll changes).followAll more :=
  List.foldl_append

/-- A change that says nothing changes nothing. -/
theorem follow_of_isEmpty {c : TreeChange} (hempty : c.isEmpty) (t? : Option TestTree) :
    follow (t?.map ofTree) c = t?.map ofTree := by
  cases t? with
  | none =>
      simp only [TreeChange.isEmpty, Bool.and_eq_true, List.isEmpty_iff] at hempty
      rw [Option.map_none, follow, hempty.1.1, List.find?_nil]
  | some t => exact change?_of_isEmpty hempty t

/-- The change that an outline makes brings a mirror up to date. -/
theorem follow_ofDelta (uri : Uri) {previous : Option TestTree}
    (hkept : ∀ t, previous = some t → t.Keyed ∧ t.key = .root) (o : Outline) (name : String) :
    follow (previous.map ofTree) (.ofDelta uri (merge previous o name).1
      (merge previous o name).2) = some (ofTree (merge previous o name).1) := by
  cases previous with
  | none => exact follow_none_ofDelta uri o name
  | some t =>
      obtain ⟨hkeyed, hroot⟩ := hkept t rfl
      exact change?_ofDelta uri hkeyed hroot o name

end Mirror

/-! ### Toggling a node -/

namespace TestTree

variable {t t' : TestTree} {key : NodeKey} {expanded : Bool}

/-- The item of a toggled node in its place makes the item of the tree. -/
theorem put_ofTree_toggle (hkeyed : t.Keyed) (h : t.toggle key = (t', some expanded)) :
    ∃ s, t'.find? key = some s ∧ (ofTree t).put (ofTree s) = ofTree t' := by
  obtain ⟨hkey, rfl⟩ := eq_of_toggle h
  obtain ⟨log, hreplaced⟩ := replaced_modify hkey fun n => { n with expanded := !n.expanded }
  obtain ⟨s, hs⟩ := Option.isSome_iff_exists.mp hkey
  obtain ⟨hmem, hskey⟩ := mem_subtrees_of_find? hs
  refine ⟨_, hreplaced.find?_changed hkeyed (mapRoot_frame fun _ => rfl) bare_kept hs, ?_⟩
  exact put_ofTree_of_replaced hreplaced (fun _ => rfl) hkeyed hmem hskey

end TestTree

/-- A change of one item is that item in its place. -/
theorem TreeItem.change?_item (uri : Uri) (t : TestTree) (new : TreeItem) :
    (ofTree t).change? ⟨uri, [new], [], []⟩ = some ((ofTree t).put new) := by
  rw [change?, without?_ofTree fun _ _ => List.not_mem_nil]
  rfl

/-! ### Staying up to date -/

namespace Explorer

variable {uri : Uri} {e e' e'' : Explorer} {effects more : List Effect}

/-- The tree of a document, if there is one, is that of a whole file. -/
def WellKept (e : Explorer) (uri : Uri) : Prop :=
  ∀ t, e.tree? uri = some t → t.Keyed ∧ t.key = .root

/-- Whoever shows the item of a document shows it also after some effects. -/
structure Follows (uri : Uri) (e e' : Explorer) (effects : List Effect) : Prop where
  kept : e'.WellKept uri
  shown : Mirror.followAll (e.item? uri) (published uri effects) = e'.item? uri

/-- Steps one after the other. -/
theorem Follows.trans (h : Follows uri e e' effects) (h' : Follows uri e' e'' more) :
    Follows uri e e'' (effects ++ more) where
  kept := h'.kept
  shown := by
    rw [published_append, Mirror.followAll_append, h.shown, h'.shown]

theorem Follows.congr (h : Follows uri e e' effects) (hdocuments : e''.documents = e'.documents)
    (hsame : published uri more = published uri effects) : Follows uri e e'' more := by
  have htree : e''.tree? uri = e'.tree? uri := by
    rw [tree?, tree?, document?, document?, hdocuments]
  refine ⟨fun t ht => h.kept t (htree ▸ ht), ?_⟩
  rw [hsame, h.shown, item?, item?, htree]

/-- What says nothing may as well be kept back. -/
theorem Follows.of_isEmpty {c : TreeChange} (hempty : c.isEmpty)
    (h : Follows uri e e' (NodeRun.tellChange (some c))) : Follows uri e e' [] where
  kept := h.kept
  shown := by
    rw [← h.shown]
    by_cases huri : c.uri = uri
    · rw [published_tellChange (by simpa using huri)]
      exact (Mirror.follow_of_isEmpty hempty (e.tree? uri)).symm
    · rw [published_tellChange_of_ne (by simpa using huri)]
      rfl

theorem Follows.tellNonEmpty {change : Option TreeChange}
    (h : Follows uri e e' (NodeRun.tellChange change)) :
    Follows uri e e' (NodeRun.tellNonEmpty change) := by
  unfold NodeRun.tellNonEmpty
  cases change with
  | none => exact h
  | some c =>
      by_cases hempty : c.isEmpty
      · rw [Option.filter_some, if_neg (by simpa using hempty)]
        exact h.of_isEmpty hempty
      · rw [Option.filter_some, if_pos (by simpa using hempty)]
        exact h

/-- Where neither the tree changes nor anything is said about it, there is nothing to follow. -/
theorem follows_of_tree?_eq (hkept : e.WellKept uri) (htree : e'.tree? uri = e.tree? uri)
    (hsilent : published uri effects = []) : Follows uri e e' effects where
  kept t ht := hkept t (htree ▸ ht)
  shown := by
    rw [hsilent, item?, item?, htree]
    rfl

theorem follows_of_documents_eq (hkept : e.WellKept uri) (hdocuments : e'.documents = e.documents)
    (hsilent : published uri effects = []) : Follows uri e e' effects := by
  refine follows_of_tree?_eq hkept ?_ hsilent
  rw [tree?, tree?, document?, document?, hdocuments]

theorem document?_setTree (other : Uri) (t : TestTree) :
    (e.setTree other t).document? uri =
      if uri = other then (e.document? uri).map fun doc => { doc with tree := some t }
      else e.document? uri :=
  Table.get?_modify e.documents other uri _

theorem tree?_setTree_of_ne {other : Uri} (hne : uri ≠ other) (t : TestTree) :
    (e.setTree other t).tree? uri = e.tree? uri := by
  rw [tree?, document?_setTree, if_neg hne]
  rfl

theorem tree?_setTree {doc : Document} (hopen : e.document? uri = some doc) (t : TestTree) :
    (e.setTree uri t).tree? uri = some t := by
  rw [tree?, document?_setTree, if_pos rfl, hopen]
  rfl

/-- A new tree for a document is followed by the change that is told with it. -/
theorem follows_setTree (hkept : e.WellKept uri) {other : Uri} {doc : Document}
    (hopen : e.document? other = some doc) {t : TestTree} {change : Option TreeChange}
    (huri : ∀ c ∈ change, c.uri = other)
    (h : e.WellKept other → (t.Keyed ∧ t.key = .root) ∧
      Mirror.followAll (doc.tree.map ofTree) change.toList = some (ofTree t)) :
    Follows uri e (e.setTree other t) (NodeRun.tellChange change) := by
  by_cases hother : uri = other
  · subst hother
    obtain ⟨hwell, hshown⟩ := h hkept
    have htree : (e.setTree uri t).tree? uri = some t := tree?_setTree hopen t
    have hbefore : e.tree? uri = doc.tree := by
      rw [tree?, hopen, Option.bind_some]
    refine ⟨fun t' ht' => ?_, ?_⟩
    · rw [htree] at ht'
      obtain rfl := Option.some.inj ht'
      exact hwell
    · rw [published_tellChange huri, item?, item?, hbefore, htree]
      exact hshown
  · refine follows_of_tree?_eq hkept (tree?_setTree_of_ne hother t) ?_
    refine published_tellChange_of_ne fun c hc hcuri => hother ?_
    rw [← hcuri, huri c hc]

/-- So it is where the new tree has the frame of the tree before. -/
theorem follows_setTree_of_frame_eq (hkept : e.WellKept uri) {other : Uri} {t t' : TestTree}
    (htree : e.tree? other = some t) (hframe : t'.frame = t.frame) {change : Option TreeChange}
    (huri : ∀ c ∈ change, c.uri = other)
    (h : t.Keyed → Mirror.followAll (some (ofTree t)) change.toList = some (ofTree t')) :
    Follows uri e (e.setTree other t') (NodeRun.tellChange change) := by
  obtain ⟨doc, hopen, hdoc⟩ := Option.bind_eq_some_iff.mp htree
  refine follows_setTree hkept hopen huri ?_
  intro hother
  obtain ⟨hkeyed, hroot⟩ := hother t htree
  rw [hdoc]
  exact ⟨⟨hkeyed.of_frame_eq hframe, (key_eq_of_frame_eq hframe).trans hroot⟩, h hkeyed⟩

/-! ### The operations on a tree -/

theorem follows_applyOutline (hkept : e.WellKept uri) (other : Uri) (o : Outline) :
    Follows uri e (e.applyOutline other o).1
      (NodeRun.tellChange (e.applyOutline other o).2) := by
  unfold applyOutline
  split
  next => exact follows_of_documents_eq hkept rfl rfl
  next doc hopen =>
      have hfollows : Follows uri e (e.setTree other (merge doc.tree o other.rootName).1)
          (NodeRun.tellChange (some (.ofDelta other (merge doc.tree o other.rootName).1
            (merge doc.tree o other.rootName).2))) := by
        refine follows_setTree hkept hopen (by simp [TreeChange.ofDelta]) ?_
        intro hother
        have hdoc : ∀ t, doc.tree = some t → t.Keyed ∧ t.key = .root := fun t ht =>
          hother t (by rw [tree?, hopen, Option.bind_some, ht])
        refine ⟨⟨ofOutline_keyed _ o _, ofOutline_key _ o _⟩, ?_⟩
        exact Mirror.follow_ofDelta other hdoc o other.rootName
      by_cases hempty : (merge doc.tree o other.rootName).2.isEmpty
      · simp only [hempty, if_true]
        refine hfollows.of_isEmpty ?_
        simp only [TreeDelta.isEmpty, Bool.and_eq_true, List.isEmpty_iff] at hempty
        simp [TreeChange.isEmpty, TreeChange.ofDelta, hempty.1, hempty.2]
      · simp only [hempty]
        exact hfollows

/-- The nodes that a run lists are enough to follow it. -/
theorem follows_ofStatuses (hkept : e.WellKept uri) {other : Uri} {t t' : TestTree}
    (htree : e.tree? other = some t) (hframe : t'.frame = t.frame) {changed : List NodeKey}
    (h : t.Keyed → ListsChanges changed t t') :
    Follows uri e (e.setTree other t')
      (NodeRun.tellChange (some (.ofStatuses other t' changed))) :=
  follows_setTree_of_frame_eq hkept htree hframe (by simp [TreeChange.ofStatuses]) fun hkeyed =>
    change?_ofStatuses other (hkeyed.of_frame_eq hframe) (h hkeyed)

theorem follows_prepare (hkept : e.WellKept uri) (r : NodeRun) :
    Follows uri e (r.prepare e).explorer (r.prepare e).effects := by
  unfold NodeRun.prepare
  split
  next => exact follows_of_documents_eq hkept rfl rfl
  next t htree =>
      split
      next => exact follows_of_documents_eq hkept rfl rfl
      next n hn =>
          refine (follows_ofStatuses hkept htree ?_ fun hkeyed => ?_).congr rfl rfl
          · exact RunSession.start_frame t r.key e.nextRun
          · exact RunSession.listsChanges_start hkeyed r.key e.nextRun

/-- A session that is handed the tree lists what it changes. -/
theorem follows_withTree (hkept : e.WellKept uri) (r : NodeRun) (session : RunSession)
    {f : TestTree → RunSession × TestTree × List NodeKey}
    (hframe : ∀ t, (f t).2.1.frame = t.frame)
    (hlists : ∀ t, t.Keyed → ListsChanges (f t).2.2 t (f t).2.1) :
    Follows uri e (r.withTree e session f).1
      (NodeRun.tellChange (r.withTree e session f).2.2) := by
  unfold NodeRun.withTree
  split
  next => exact follows_of_documents_eq hkept rfl rfl
  next t htree => exact follows_ofStatuses hkept htree (hframe t) (hlists t)

theorem follows_apply (hkept : e.WellKept uri) (r : NodeRun) (session : RunSession)
    (event : RunEvent) :
    Follows uri e (r.withTree e session (session.apply · event)).1
      (NodeRun.tellNonEmpty (r.withTree e session (session.apply · event)).2.2) := by
  refine (follows_withTree hkept r session (fun t => ?_) fun t hkeyed => ?_).tellNonEmpty
  · exact session.apply_frame t event
  · exact session.listsChanges_apply hkeyed event

/-- The number of runs under way does not matter to the trees. -/
theorem Follows.of_runEnded (h : Follows uri (NodeRun.runEnded e) e' effects) :
    Follows uri e e' effects :=
  ⟨h.kept, h.shown⟩

theorem follows_finish (hkept : e.WellKept uri) (r : NodeRun) (session : RunSession) :
    Follows uri e (r.withTree (NodeRun.runEnded e) session session.finish).1
      (NodeRun.tellNonEmpty (r.withTree (NodeRun.runEnded e) session session.finish).2.2) := by
  have hkept' : (NodeRun.runEnded e).WellKept uri := hkept
  exact (follows_withTree hkept' r session session.finish_frame fun _ =>
    session.listsChanges_finish).of_runEnded.tellNonEmpty

theorem follows_abort (hkept : e.WellKept uri) (r : NodeRun) (session : RunSession) :
    Follows uri e (r.withTree (NodeRun.runEnded e) session session.abort).1
      (NodeRun.tellChange (r.withTree (NodeRun.runEnded e) session session.abort).2.2) := by
  have hkept' : (NodeRun.runEnded e).WellKept uri := hkept
  exact (follows_withTree hkept' r session session.abort_frame fun _ =>
    session.listsChanges_abort).of_runEnded

theorem follows_expand (hkept : e.WellKept uri) (c : ItemClick) :
    Follows uri e (c.expand e).1 (NodeRun.tellChange (c.expand e).2) := by
  unfold ItemClick.expand
  split
  next => exact follows_of_documents_eq hkept rfl rfl
  next t htree =>
      split
      next => exact follows_of_documents_eq hkept rfl rfl
      next t' expanded htoggle =>
          have hframe : t'.frame = t.frame := by
            rw [← toggle_frame t c.target.key, htoggle]
          refine follows_setTree_of_frame_eq hkept htree hframe ?_ fun hkeyed => ?_
          · rintro change hchange
            obtain ⟨s, -, rfl⟩ := Option.map_eq_some_iff.mp hchange
            rfl
          · obtain ⟨s, hs, hput⟩ := put_ofTree_toggle hkeyed htoggle
            rw [hs, Option.map_some, ← hput]
            exact change?_item c.target.uri t (ofTree s)

/-! ### Turns -/

theorem follows_offer (hkept : e.WellKept uri) (path : FilePath) :
    Follows uri e (e.offer path).1 (e.offer path).2 := by
  unfold offer offerInstall
  by_cases hany : e.installOffered.any (·.same path)
  · rw [if_pos hany]
    exact follows_of_documents_eq hkept rfl rfl
  · rw [if_neg hany]
    exact follows_of_documents_eq hkept rfl rfl

theorem published_relight (e : Explorer) : published uri e.relight = [] := by
  unfold relight
  split
  all_goals rfl

theorem follows_outlineCall (hkept : e.WellKept uri) (s : Surroundings) (call : OutlineCall) :
    Follows uri e (call.turn s e).explorer (call.turn s e).effects := by
  unfold OutlineCall.turn
  split
  next => exact follows_of_documents_eq hkept rfl rfl
  next =>
      refine follows_of_documents_eq hkept rfl ?_
      obtain ⟨cache, call', ticket?⟩ := call.ask e.cache s.now
      cases ticket? <;> rfl
  next =>
      split
      all_goals exact follows_of_documents_eq hkept rfl rfl

theorem follows_refresh (hkept : e.WellKept uri) (s : Surroundings) (r : Refresh) :
    Follows uri e (r.turn s e).explorer (r.turn s e).effects := by
  unfold Refresh.turn
  split
  next =>
      split
      all_goals exact follows_of_documents_eq hkept rfl rfl
  next =>
      split
      all_goals exact follows_of_documents_eq hkept rfl rfl
  next =>
      split
      all_goals exact follows_of_documents_eq hkept rfl rfl
  next =>
      split
      next =>
          simp only [Refresh.arrived]
          repeat' split
          all_goals exact follows_of_documents_eq hkept rfl rfl
      next => exact follows_outlineCall hkept s _
  next outline hphase =>
      have hfollows := follows_applyOutline hkept r.uri outline
      split
      next e' happly =>
          rw [happly] at hfollows
          exact hfollows
      next e' change happly =>
          rw [happly] at hfollows
          exact hfollows
  next => exact follows_of_documents_eq hkept rfl (published_relight e)
  next path hphase => exact follows_offer hkept path

theorem published_outputEffects (event : RunEvent) :
    published uri (NodeRun.outputEffects event) = [] := by
  cases event <;> rfl

theorem follows_nodeRun (hkept : e.WellKept uri) (s : Surroundings) (r : NodeRun) :
    Follows uri e (r.turn s e).explorer (r.turn s e).effects := by
  unfold NodeRun.turn
  split
  next =>
      split
      all_goals exact follows_of_documents_eq hkept rfl rfl
  next refresh hphase => exact follows_refresh hkept s refresh
  next => exact follows_prepare hkept r
  next =>
      split
      all_goals exact follows_of_documents_eq hkept rfl rfl
  next session fault hphase =>
      have hfollows := follows_abort hkept r session
      generalize r.withTree (NodeRun.runEnded e) session session.abort = out at hfollows ⊢
      obtain ⟨e', session', change⟩ := out
      have hsaid : published uri (NodeRun.tellChange change ++ NodeRun.faultEffects fault) =
          published uri (NodeRun.tellChange change) := by
        rw [published_append]
        exact List.append_nil _
      cases fault with
      | toolNotFound path => exact hfollows
      | _ => exact hfollows.congr rfl hsaid
  next path hphase => exact follows_offer hkept path
  next => exact follows_of_documents_eq hkept rfl rfl
  next session due event rest hphase =>
      split
      next => exact follows_of_documents_eq hkept rfl rfl
      next =>
          refine (follows_apply hkept r session event).congr rfl ?_
          rw [published_append, published_outputEffects]
          rfl
  next session hphase =>
      have hfollows := follows_finish hkept r session
      generalize r.withTree (NodeRun.runEnded e) session session.finish = out at hfollows ⊢
      obtain ⟨e', session', change⟩ := out
      refine hfollows.congr rfl ?_
      rw [published_append]
      cases session'.summary <;> exact List.append_nil _
  next => exact follows_of_documents_eq hkept rfl (published_relight e)

theorem follows_click (hkept : e.WellKept uri) (s : Surroundings) (c : ItemClick) :
    Follows uri e (c.turn s e).explorer (c.turn s e).effects := by
  unfold ItemClick.turn
  split
  next =>
      split
      all_goals exact follows_of_documents_eq hkept rfl rfl
  next =>
      repeat' split
      all_goals exact follows_of_documents_eq hkept rfl rfl
  next => exact follows_expand hkept c
  next run hphase => exact follows_nodeRun hkept s run

theorem follows_coverage (hkept : e.WellKept uri) (s : Surroundings) (c : CoverageRun) :
    Follows uri e (c.turn s e).explorer (c.turn s e).effects := by
  unfold CoverageRun.turn
  split
  next => exact follows_of_documents_eq hkept rfl rfl
  next =>
      repeat' split
      all_goals exact follows_of_documents_eq hkept rfl rfl
  next fault path hphase => exact follows_offer hkept path

theorem follows_treeRequest (hkept : e.WellKept uri) (s : Surroundings) (r : TreeRequest) :
    Follows uri e (r.turn s e).explorer (r.turn s e).effects := by
  unfold TreeRequest.turn
  split
  next =>
      repeat' split
      all_goals exact follows_of_documents_eq hkept rfl rfl
  next refresh hphase => exact follows_refresh hkept s refresh
  next => exact follows_of_documents_eq hkept rfl rfl
  next call hphase => exact follows_outlineCall hkept s call

/-- Whatever an activity does in a turn, it says to the client. -/
theorem follows_turn (hkept : e.WellKept uri) (s : Surroundings) (a : Activity) :
    Follows uri e (a.turn s e).explorer (a.turn s e).effects := by
  cases a with
  | refresh r => exact follows_refresh hkept s r
  | run r => exact follows_nodeRun hkept s r
  | click c => exact follows_click hkept s c
  | coverage c => exact follows_coverage hkept s c
  | treeRequest r => exact follows_treeRequest hkept s r
  | outline call => exact follows_outlineCall hkept s call
  | relight flag => exact follows_of_documents_eq hkept rfl (published_relight e)
  | toggleLenses => exact follows_of_documents_eq hkept rfl rfl
  | showOutput other key =>
      simp only [Activity.turn]
      split
      all_goals exact follows_of_documents_eq hkept rfl rfl
  | sleep due =>
      simp only [Activity.turn]
      split
      all_goals exact follows_of_documents_eq hkept rfl rfl
  | press target threshold =>
      simp only [Activity.turn]
      split
      all_goals exact follows_of_documents_eq hkept rfl rfl
  | pressed target id due =>
      simp only [Activity.turn]
      repeat' split
      all_goals exact follows_of_documents_eq hkept rfl rfl
  | debounce ticket due =>
      simp only [Activity.turn]
      split
      all_goals exact follows_of_documents_eq hkept rfl rfl

end Explorer

/-! ### While a document is open -/

/-- What may go on while a document is open. Activities take turns, whatever they are and whatever
phase they are in: each outline that is merged, each start, event, end or abort of a session and
each toggle is a turn of its own. Besides, the client edits files, opens and closes others, and
changes settings. -/
inductive OpenStep (uri : Uri) where
  | turn (s : Surroundings) (a : Activity)
  | edited (other : Uri) (text : String) (version : Option Int)
  | opened (other : Uri) (hother : other ≠ uri) (text : String) (version : Option Int)
  | closed (other : Uri) (hother : other ≠ uri)
  | configured (settings : Settings)

namespace OpenStep

open Explorer

variable {uri : Uri}

/-- Takes a step and gives what is said to the client. -/
def take (e : Explorer) : OpenStep uri → Explorer × List Effect
  | .turn s a => ((a.turn s e).explorer, (a.turn s e).effects)
  | .edited other text version => (e.updateDocument other text version, [])
  | .opened other _ text version => (e.openDocument other text version, [])
  | .closed other _ => (e.closeDocument other, [])
  | .configured settings => ((e.applySettings settings).1, [])

/-- Takes steps one after the other. -/
def takeAll (e : Explorer) : List (OpenStep uri) → Explorer × List Effect
  | [] => (e, [])
  | step :: rest =>
    let (e, effects) := step.take e
    let (e, more) := takeAll e rest
    (e, effects ++ more)

theorem tree?_updateDocument (e : Explorer) (other : Uri) (text : String) (version : Option Int) :
    (e.updateDocument other text version).tree? uri = e.tree? uri := by
  have hdocument : (e.updateDocument other text version).document? uri =
      if uri = other then some ⟨text, version, e.tree? other⟩ else e.document? uri :=
    Table.get?_put e.documents other uri _
  rw [tree?, hdocument]
  by_cases hother : uri = other
  · rw [if_pos hother, hother]
    rfl
  · rw [if_neg hother]
    rfl

theorem documents_applySettings (e : Explorer) (settings : Settings) :
    (e.applySettings settings).1.documents = e.documents := by
  simp only [applySettings]
  repeat' split
  all_goals rfl

/-- Every step is followed. -/
theorem follows_take {e : Explorer} (hkept : e.WellKept uri) (step : OpenStep uri) :
    Follows uri e (step.take e).1 (step.take e).2 := by
  cases step with
  | turn s a => exact follows_turn hkept s a
  | edited other text version =>
      exact follows_of_tree?_eq hkept (tree?_updateDocument e other text version) rfl
  | opened other hother text version =>
      refine follows_of_tree?_eq hkept ?_ rfl
      have hdocument : (e.openDocument other text version).document? uri = e.document? uri :=
        (Table.get?_put e.documents other uri _).trans (if_neg hother.symm)
      rw [take, tree?, hdocument]
      rfl
  | closed other hother =>
      refine follows_of_tree?_eq hkept ?_ rfl
      have hdocument : (e.closeDocument other).document? uri = e.document? uri :=
        (Table.get?_erase e.documents other uri).trans (if_neg hother.symm)
      rw [take, tree?, hdocument]
      rfl
  | configured settings =>
      exact follows_of_documents_eq hkept (documents_applySettings e settings) rfl

theorem follows_takeAll {e : Explorer} (hkept : e.WellKept uri) (steps : List (OpenStep uri)) :
    Follows uri e (takeAll e steps).1 (takeAll e steps).2 := by
  induction steps generalizing e with
  | nil => exact follows_of_documents_eq hkept rfl rfl
  | cons step rest ih =>
      have hstep := follows_take hkept step
      exact hstep.trans (ih hstep.kept)

end OpenStep

namespace Explorer

theorem tree?_openDocument (e : Explorer) (uri : Uri) (text : String) (version : Option Int) :
    (e.openDocument uri text version).tree? uri = none := by
  have hdocument : (e.openDocument uri text version).document? uri = some ⟨text, version, none⟩ :=
    (Table.get?_put e.documents uri uri _).trans (if_pos rfl)
  rw [tree?, hdocument]
  rfl

/-- A client that opens a document and from then on follows each change of it that it is told of
shows the item of its tree, however far things have gone. -/
theorem mirror_eq_item (e : Explorer) (uri : Uri) (text : String) (version : Option Int)
    (steps : List (OpenStep uri)) :
    Mirror.followAll none (published uri
      (OpenStep.takeAll (e.openDocument uri text version) steps).2) =
      (OpenStep.takeAll (e.openDocument uri text version) steps).1.item? uri := by
  have htree := tree?_openDocument e uri text version
  have hkept : (e.openDocument uri text version).WellKept uri := by
    intro t ht
    rw [htree] at ht
    cases ht
  have hfollows := (OpenStep.follows_takeAll hkept steps).shown
  rw [item?, htree] at hfollows
  exact hfollows

end Explorer

end SpecExplorer
