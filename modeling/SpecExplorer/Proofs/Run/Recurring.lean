/-
# Records that come again

A record that names a spec whose result is recorded already is not taken for a later word on that
spec, but for the outcome of a further spec of its name path. Where there is none, it is dropped. So
within a run a spec that alone has its name path keeps the outcome that came first.
-/
import SpecExplorer.Proofs.Run.Lasting

namespace SpecExplorer

open TestTree

namespace RunSession

variable {file : String} {scope key : NodeKey} {t t' : TestTree} {e : RunEvent}

/-! ### Specs of one frame -/

/-- Trees of one frame have specs of the same keys. -/
theorem exists_spec_of_frame_eq (h : t'.frame = t.frame) {n : TestNode} (hn : n ∈ t'.specs) :
    ∃ m ∈ t.specs, m.key = n.key := by
  have hmem : n ∈ t'.specsNamed n.key.names := mem_specsNamed.mpr ⟨hn, rfl⟩
  have hbare : n.bare ∈ t'.frame.specsNamed n.key.names := by
    rw [specsNamed_frame]
    exact List.mem_map_of_mem hmem
  rw [h, specsNamed_frame] at hbare
  obtain ⟨m, hm, hmn⟩ := List.mem_map.mp hbare
  exact ⟨m, (mem_specsNamed.mp hm).1, TestNode.key_eq_of_bare_eq hmn⟩

theorem SoleSpec.of_frame_eq (hsole : SoleSpec scope key t) (h : t'.frame = t.frame) :
    SoleSpec scope key t' where
  spec := by
    obtain ⟨n, hn, rfl⟩ := hsole.spec
    exact exists_spec_of_frame_eq h.symm hn
  sole n hn := by
    obtain ⟨m, hm, hkey⟩ := exists_spec_of_frame_eq h hn
    rw [← hkey]
    exact hsole.sole m hm

theorem Spares.of_frame_eq (hspares : Spares file key t e) (h : t'.frame = t.frame) :
    Spares file key t' e := by
  intro n hn
  obtain ⟨m, hm, hkey⟩ := exists_spec_of_frame_eq h hn
  rw [← hkey]
  exact hspares m hm

/-! ### Runs without fresh outlines -/

theorem play_scope (t : TestTree) (scope : NodeKey) (run : RunId) (events : List RunEvent) :
    (play t scope run events).1.scope = scope := by
  induction events using List.reverseRecOn with
  | nil => rfl
  | append_singleton past e ih => rw [play_append_singleton, apply_scope, ih]

/-- A spec that alone has its name path is followed through a run that says nothing of what is
below it. -/
theorem Followed.play (hkeyed : t.Keyed) (hroot : t.key = .root) (hcovers : scope.covers key)
    (hsole : SoleSpec scope key t) (run : RunId) {events : List RunEvent}
    (hexit : events.any isExit = false) (hspares : ∀ e ∈ events, Spares t.info.name key t e) :
    Followed t.info.name key events (RunSession.play t scope run events).1
      (RunSession.play t scope run events).2 := by
  induction events using List.reverseRecOn with
  | nil => exact .start hkeyed hroot hcovers run
  | append_singleton past e ih =>
      rw [List.any_append, Bool.or_eq_false_iff, List.any_cons, List.any_nil, Bool.or_false]
        at hexit
      have h := ih hexit.1 fun e' he' => hspares e' (List.mem_append_left _ he')
      have hframe := play_frame t scope run past
      rw [play_append_singleton]
      refine h.event ?_ hexit.2 ((hspares e (by simp)).of_frame_eq hframe)
      rw [play_scope]
      exact hsole.of_frame_eq hframe

/-- An event with a further outcome for the name path of a followed spec changes nothing. -/
theorem Followed.event_again {past : List RunEvent} {s : RunSession}
    (h : Followed file key past s t) (hsole : SoleSpec s.scope key t)
    (hpast : outcomes file key.names past ≠ []) (hagain : outcome? file key.names e ≠ none) :
    (s.apply t e).2.1 = t := by
  cases e with
  | record record =>
      cases record with
      | suite r => exact absurd rfl hagain
      | spec r =>
          by_cases hown : r.fileName?.all (· == file) ∧ r.status?.isSome
          · obtain ⟨status, hstatus⟩ := Option.isSome_iff_exists.mp hown.2
            rw [outcome?_own hstatus hown.1] at hagain
            have hnames : r.names = key.names := by
              by_contra hnames
              exact hagain (if_neg hnames)
            exact h.record_again hsole hstatus hown.1 hnames hpast
          · exact absurd (outcome?_foreign hown _) hagain
  | started => exact absurd rfl hagain
  | malformed fault => exact absurd rfl hagain
  | output line => exact absurd rfl hagain
  | exited success code => exact absurd rfl hagain

/-- Before a run exits, a spec that alone has its name path in the scope shows the first outcome
for it, unless a record named a spec below. The last outcome is shown only where it is the same, and
once there was one, a further one changes nothing in the tree. -/
theorem first_outcome_of_spec_stays (hkeyed : t.Keyed) (hroot : t.key = .root)
    (hcovers : scope.covers key) (hsole : SoleSpec scope key t) (run : RunId)
    {events : List RunEvent} (hexit : events.any isExit = false)
    (hspares : ∀ e ∈ events, Spares t.info.name key t e) :
    (∃ n, (play t scope run events).2.node? key = some n ∧
      (∀ first ∈ (outcomes t.info.name key.names events).head?, n.result = some first) ∧
      ∀ last ∈ (outcomes t.info.name key.names events).getLast?,
        n.result = some last ↔ (outcomes t.info.name key.names events).head? = some last) ∧
    (outcomes t.info.name key.names events ≠ [] → ∀ e, outcome? t.info.name key.names e ≠ none →
      (play t scope run (events ++ [e])).2 = (play t scope run events).2) := by
  have h := Followed.play hkeyed hroot hcovers hsole run hexit hspares
  have hsole' : SoleSpec (play t scope run events).1.scope key (play t scope run events).2 := by
    rw [play_scope]
    exact hsole.of_frame_eq (play_frame t scope run events)
  refine ⟨?_, fun hpast e hagain => ?_⟩
  · obtain ⟨x, hx, hkey, -⟩ := hsole'.exists_spec
    have hshow := (h.shown x hx hkey).2
    refine ⟨x.info, ?_, ?_⟩
    · rw [node?, ← hkey, h.keyed.find?_key hx, Option.map_some]
    · cases houtcomes : outcomes t.info.name key.names events with
      | nil => simp
      | cons first rest =>
          rw [houtcomes] at hshow
          have hfirst : x.info.result = some first := hshow
          simp [hfirst]
  · rw [play_append_singleton]
    exact h.event_again hsole' hpast hagain

/-- A run of a container that reports its spec failed and then passed. -/
def reportedTwice : List RunEvent :=
  [.started, .record (.spec ⟨["cart"], "adds", "failed", none, none, some 5, none⟩),
    .record (.spec ⟨["cart"], "adds", "passed", none, none, some 7, none⟩)]

/-- The later record does not overwrite the earlier one. -/
theorem cart_keeps_earlier_outcome :
    SoleSpec (.ofNames ["cart"]) (.ofNames ["cart", "adds"])
        (TestTree.merge none (.cartOf ["adds"]) "cart_test.go").1 ∧
      reportedTwice.any isExit = false ∧
      (outcomes "cart_test.go" ["cart", "adds"] reportedTwice).getLast? =
        some ⟨.passed, none, some 7⟩ ∧
      ((play (TestTree.merge none (.cartOf ["adds"]) "cart_test.go").1 (.ofNames ["cart"]) 7
        reportedTwice).2.node? (.ofNames ["cart", "adds"])).map (·.result) =
          some (some ⟨.failed, none, some 5⟩) := by
  decide +kernel

theorem first_outcome_of_spec_stays_cart :
    SoleSpec (.ofNames ["cart"]) (.ofNames ["cart", "adds"])
        (TestTree.merge none (.cartOf ["adds"]) "cart_test.go").1 ∧
      ∃ n, (play (TestTree.merge none (.cartOf ["adds"]) "cart_test.go").1 (.ofNames ["cart"]) 7
          reportedTwice).2.node? (.ofNames ["cart", "adds"]) = some n ∧
        n.result = some ⟨.failed, none, some 5⟩ := by
  have hsole : SoleSpec (.ofNames ["cart"]) (.ofNames ["cart", "adds"])
      (TestTree.merge none (.cartOf ["adds"]) "cart_test.go").1 := by
    decide +kernel
  have hcovers : (.ofNames ["cart"] : NodeKey).covers (.ofNames ["cart", "adds"]) := by decide
  have hkeyed := ofOutline_keyed none (.cartOf ["adds"]) "cart_test.go"
  have hleaves := ofOutline_specsAreLeaves none (Outline.cartOf_specsAreLeaves ["adds"])
    "cart_test.go"
  obtain ⟨⟨n, hn, hfirst, -⟩, -⟩ := first_outcome_of_spec_stays hkeyed (ofOutline_key none _ _)
    hcovers hsole 7 rfl fun e (_ : e ∈ reportedTwice) => hsole.spares hkeyed hleaves _ e
  refine ⟨hsole, n, hn, hfirst _ ?_⟩
  decide +kernel

end RunSession

end SpecExplorer
