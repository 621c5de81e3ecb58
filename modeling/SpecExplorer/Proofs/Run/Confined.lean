/-
# What a session may change

A session is handed whatever tree the document has by then: the one that it began on, a later one,
or one that was opened afresh and knows nothing of it. Whatever the session does to it, it does to
results alone, and only to those of its scope and of what lies above, where nodes are settled. The
result of a spec is changed only where the run of the session was the last to prepare the spec.
Where the scope is not in the tree nothing changes.
-/
import SpecExplorer.Proofs.Run.Listed
import SpecExplorer.Proofs.Run.Precedence

namespace SpecExplorer

open TestTree

/-! ### Changes of results -/

/-- Two nodes differ in their results at most. -/
def TestNode.SameButResult (n n' : TestNode) : Prop := n' = { n with result := n'.result }

namespace TestNode.SameButResult

theorem refl (n : TestNode) : SameButResult n n := rfl

theorem of_result (n : TestNode) (r : Option RunResult) :
    SameButResult n { n with result := r } := rfl

theorem trans {n n' n'' : TestNode} (h : SameButResult n n') (h' : SameButResult n' n'') :
    SameButResult n n'' := by
  unfold SameButResult at h h' ⊢
  rw [h', h]

end TestNode.SameButResult

namespace TestTree

open TestNode (SameButResult)

/-- A change of a node is a change of its result. -/
def OfResults (f : NodeChange) : Prop := ∀ info children, SameButResult info (f info children)

theorem ofResults_kept : OfResults kept := fun info _ => .refl info

theorem ofResults_settled : OfResults settled := by
  intro info children
  rcases settled_cases info children with ⟨-, heq⟩ | ⟨a, -, heq⟩ <;> rw [heq]
  · exact .refl info
  · exact .of_result info _

theorem ofResults_closing (run : RunId) : OfResults (closing run) := by
  intro info children
  have hclose : SameButResult info (info.close run children) := by
    unfold TestNode.close
    repeat' split
    · exact .of_result info _
    · exact .refl info
    · exact .refl info
  exact hclose.trans (ofResults_settled _ children)

theorem ofResults_starting (run : RunId) : OfResults (touching (·.start? run)) := by
  intro info _
  rw [touching]
  rcases TestNode.start?_getD_cases run info with heq | ⟨r, -, -, heq⟩ <;> rw [heq]
  · exact .refl info
  · exact .of_result info _

theorem ofResults_reverting (run : RunId) : OfResults (touching (·.revert? run)) := by
  intro info _
  rw [touching, TestNode.revert?_getD]
  split
  · exact .of_result info _
  · exact .refl info

theorem OfResults.around {below above : NodeChange} (hbelow : OfResults below)
    (habove : OfResults above) (place : NodeKey) : OfResults (around place below above) := by
  intro info children
  unfold TestTree.around
  repeat' split
  · exact hbelow info children
  · exact habove info children
  · exact .refl info

theorem ofResults_recording (key : NodeKey) (r : RunResult) : OfResults (recording key r) := by
  refine OfResults.around (fun info _ => ?_) ofResults_settled key
  split
  · exact .of_result info _
  · exact .refl info

/-- A rebuilt tree has the shape that it had, and what relates every node to what it became,
relates the two trees. -/
theorem pointwise_rebuild {R : TestNode → TestNode → Prop} {f : NodeChange} {t : TestTree}
    (h : ∀ x ∈ t.subtrees, R x.info (x.rebuild f).info) : Pointwise R t (t.rebuild f) := by
  induction t with
  | node info children ih =>
      obtain ⟨hroot, hchildren⟩ := forall_subtrees_node.mp h
      rw [info_rebuild] at hroot
      rw [rebuild_node]
      refine .node hroot (List.length_map _) fun p hp => ?_
      obtain ⟨hmem, heq⟩ := of_mem_zip_map hp
      rw [heq]
      exact ih p.1 hmem (hchildren p.1 hmem)

end TestTree

namespace RunSession

/-! ### Moves of a session -/

variable {s : RunSession} {t x : TestTree} {m : Move} {f : NodeChange}

theorem sameButResult_logged (s : RunSession) (n : TestNode) : n.SameButResult (s.logged n) := by
  rcases s.logged_cases n with heq | ⟨r, log, -, -, -, heq⟩ <;> rw [heq]
  · exact .refl n
  · exact .of_result n _

theorem Act.ofResults (h : Act s t m f) : OfResults f := by
  cases h with
  | stay => exact ofResults_kept
  | started => exact (ofResults_starting s.run).around ofResults_kept s.scope
  | recorded => exact ofResults_recording _ _
  | closed =>
      intro info children
      exact ((ofResults_closing s.run).around ofResults_settled s.scope info children).trans
        (s.sameButResult_logged _)
  | withdrawn => exact (ofResults_reverting s.run).around ofResults_kept s.scope

/-- A leaf changes its result only in a move of the run that it belongs to. -/
theorem Act.isClaimedBy_of_leaf (h : Act s t m f) (hkeyed : t.Keyed) (hx : x ∈ t.subtrees)
    (hleaf : x.children = []) (hchanged : (x.rebuild f).info.result ≠ x.info.result) :
    x.info.isClaimedBy s.run := by
  by_contra hclaimed
  have hself : ∀ y ∈ x.subtrees, ¬ y.info.isClaimedBy s.run := by
    obtain ⟨info, children⟩ := x
    obtain rfl : children = [] := hleaf
    exact forall_subtrees_node.mpr ⟨hclaimed, nofun⟩
  obtain ⟨-, a, ha, -⟩ := (h.result_of_not_claimed hkeyed hx hself).resolve_left hchanged
  rw [children_rebuild, hleaf] at ha
  cases ha

/-- What a session may make of a node. -/
structure Permitted (s : RunSession) (n n' : TestNode) : Prop where
  /-- Nothing but the result changes. -/
  same : n.SameButResult n'
  /-- The result changes only under the scope and on the way from it to the file. -/
  near : n'.result ≠ n.result → s.scope.covers n.key ∨ n.key.covers s.scope
  /-- That of a spec changes only if the spec belongs to the run of the session. -/
  own : n'.result ≠ n.result → n.kind = .spec → n.isClaimedBy s.run

theorem Act.permitted (h : Act s t m f) (hkeyed : t.Keyed) (hleaves : t.SpecsAreLeaves)
    (hx : x ∈ t.subtrees) : Permitted s x.info (x.rebuild f).info where
  same := by
    rw [info_rebuild]
    exact h.ofResults _ _
  near hchanged := by
    by_contra hapart
    rw [not_or] at hapart
    refine hchanged ?_
    rw [info_rebuild, h.apart hapart.1 hapart.2]
  own hchanged hspec := h.isClaimedBy_of_leaf hkeyed hx (hleaves x hx hspec) hchanged

/-- Without its scope in the tree a session changes nothing and lists nothing. -/
theorem move_of_not_contains (hgone : ¬ t.contains s.scope) (m : Move) :
    (s.move t m).2 = (t, []) := by
  have hnone : t.find? s.scope = none := by
    simpa [contains] using hgone
  have hfinish : (s.finish t).2 = (t, []) := by
    rw [finish]
    split
    · rfl
    · rw [finishRun_of_not_contains hgone]
      simp [showLog, node?, hnone]
  cases m with
  | finish => exact hfinish
  | abort => exact touchAt_of_not_contains hgone _
  | event e =>
      cases e with
      | started => exact touchAt_of_not_contains hgone _
      | exited success code => exact hfinish
      | malformed fault => rfl
      | output line => rfl
      | record record =>
          cases record with
          | suite r => rfl
          | spec r =>
              have hcandidates : ({ s with records := s.records + 1 } : RunSession).candidates t r =
                  [] := by
                simp [candidates, hnone]
              rw [move, apply]
              split
              · rw [applySpec]
                simp only [hcandidates]
              · rfl

/-- Whatever state a session is in, whatever it is handed, and on whichever tree of a file: its move
makes of every node no more than is permitted, and where its scope is not in the tree nothing
changes. -/
theorem moves_are_confined {t : TestTree} (hkeyed : t.Keyed) (hroot : t.key = .root)
    (hleaves : t.SpecsAreLeaves) (s : RunSession) (m : Move) :
    Pointwise (Permitted s) t (s.move t m).2.1 ∧
      (¬ t.contains s.scope → (s.move t m).2 = (t, [])) := by
  obtain ⟨f, hact, htree⟩ := exists_act hkeyed hroot s m
  refine ⟨?_, fun hgone => move_of_not_contains hgone m⟩
  rw [htree]
  exact pointwise_rebuild fun x hx => hact.permitted hkeyed hleaves hx

/-- A run of one spec, on the tree that it began on. -/
def oneSpec : RunSession × TestTree × List NodeKey :=
  start (TestTree.merge none (.cartOf ["adds", "removes"]) "cart_test.go").1
    (.ofNames ["cart", "adds"]) 7

/-- A record settles the spec, its container and the file. In a tree without the spec the close of
the run changes nothing. -/
theorem moves_are_confined_cart :
    oneSpec.2.1.Keyed ∧ oneSpec.2.1.key = .root ∧ oneSpec.2.1.SpecsAreLeaves ∧
      (oneSpec.1.apply oneSpec.2.1
        (.record (.spec ⟨["cart"], "adds", "passed", none, none, some 5, none⟩))).2.2 =
          [.ofNames ["cart", "adds"], .ofNames ["cart"], .root] ∧
      Pointwise (Permitted oneSpec.1) oneSpec.2.1 (oneSpec.1.apply oneSpec.2.1
        (.record (.spec ⟨["cart"], "adds", "passed", none, none, some 5, none⟩))).2.1 ∧
      ¬ (TestTree.merge none (.cartOf ["removes"]) "cart_test.go").1.contains oneSpec.1.scope ∧
      (oneSpec.1.finish (TestTree.merge none (.cartOf ["removes"]) "cart_test.go").1).2 =
        ((TestTree.merge none (.cartOf ["removes"]) "cart_test.go").1, []) := by
  have hframe : oneSpec.2.1.frame =
      (TestTree.merge none (.cartOf ["adds", "removes"]) "cart_test.go").1.frame :=
    start_frame _ _ 7
  have hkeyed := (ofOutline_keyed none (.cartOf ["adds", "removes"]) "cart_test.go").of_frame_eq
    hframe
  have hroot := (key_eq_of_frame_eq hframe).trans (ofOutline_key none _ _)
  have hleaves := (ofOutline_specsAreLeaves none (Outline.cartOf_specsAreLeaves _)
    "cart_test.go").of_frame_eq hframe
  have hgone : ¬ (TestTree.merge none (.cartOf ["removes"]) "cart_test.go").1.contains
      oneSpec.1.scope := by
    decide +kernel
  have hrecord := moves_are_confined hkeyed hroot hleaves oneSpec.1
    (.event (.record (.spec ⟨["cart"], "adds", "passed", none, none, some 5, none⟩)))
  have hclose := moves_are_confined (ofOutline_keyed none (.cartOf ["removes"]) "cart_test.go")
    (ofOutline_key none _ _)
    (ofOutline_specsAreLeaves none (Outline.cartOf_specsAreLeaves _) "cart_test.go") oneSpec.1
    .finish
  exact ⟨hkeyed, hroot, hleaves, by decide +kernel, hrecord.1, hgone, hclose.2 hgone⟩

end RunSession

end SpecExplorer
