/-
# Trees that are outlined again and again

Whatever has happened to the tree of a document, a merge asks of a node only whether its key was
there before. If it was, the node takes over the result, the run and the expansion found under the
key; if not, it starts afresh. All else comes from the outline, place by place. Since the keys of a
tree are those of the outline that it was made from, the fate of a node along a chain of outlines is
read off the outlines: it lasts as long as every one of them has the key, and ends with the first
that has not.
-/
import SpecExplorer.Proofs.Run.Act
import SpecExplorer.Proofs.Tree.Placed

namespace SpecExplorer

open TestTree

namespace TestNode

/-- A node has the result, the run and the expansion of another. -/
def TakesAfter (n old : TestNode) : Prop :=
  n.result = old.result ∧ n.run = old.run ∧ n.expanded = old.expanded

/-- A node is idle, belongs to no run and is collapsed. -/
def StartsAfresh (n : TestNode) : Prop :=
  n.result = none ∧ n.run = none ∧ n.expanded = false

theorem carry_some (n old : TestNode) : (n.carry (some old)).TakesAfter old := ⟨rfl, rfl, rfl⟩

theorem ofOutline_startsAfresh (key : NodeKey) (o : OutlineInfo) :
    (ofOutline key o).StartsAfresh := ⟨rfl, rfl, rfl⟩

@[simp] theorem bare_carry (n : TestNode) (old? : Option TestNode) :
    (n.carry old?).bare = n.bare := by
  cases old? <;> rfl

end TestNode

/-! ### Trees of documents -/

/-- What may happen to the tree of a document. -/
inductive TreeStep where
  /-- The document is outlined, for the first time or anew. -/
  | outlined (o : Outline)
  /-- A session begins over a scope. -/
  | began (scope : NodeKey) (run : RunId)
  /-- A session makes a move. -/
  | moved (s : RunSession) (m : RunSession.Move)
  | toggled (key : NodeKey)

namespace TreeStep

/-- Takes a step. As long as there is no tree only an outline makes a difference. -/
def take (name : String) (t? : Option TestTree) : TreeStep → Option TestTree
  | .outlined o => some (merge t? o name).1
  | .began scope run => t?.map fun t => (RunSession.start t scope run).2.1
  | .moved s m => t?.map fun t => (s.move t m).2.1
  | .toggled key => t?.map fun t => (t.toggle key).1

end TreeStep

/-- There is no tree yet, or that of a whole file. -/
def WellGrown (t? : Option TestTree) : Prop := ∀ t, t? = some t → t.Keyed ∧ t.key = .root

theorem RunSession.move_frame (s : RunSession) (t : TestTree) (m : RunSession.Move) :
    (s.move t m).2.1.frame = t.frame := by
  cases m with
  | event e => exact s.apply_frame t e
  | finish => exact s.finish_frame t
  | abort => exact s.abort_frame t

theorem WellGrown.map {t? : Option TestTree} (h : WellGrown t?) {f : TestTree → TestTree}
    (hf : ∀ t, (f t).frame = t.frame) : WellGrown (t?.map f) := by
  intro t' ht'
  obtain ⟨t, ht, rfl⟩ := Option.map_eq_some_iff.mp ht'
  obtain ⟨hkeyed, hroot⟩ := h t ht
  exact ⟨hkeyed.of_frame_eq (hf t), (key_eq_of_frame_eq (hf t)).trans hroot⟩

theorem wellGrown_merge (t? : Option TestTree) (o : Outline) (name : String) :
    WellGrown (some (merge t? o name).1) := by
  intro t ht
  obtain rfl := Option.some.inj ht
  exact ⟨ofOutline_keyed t? o name, ofOutline_key t? o name⟩

theorem WellGrown.take {t? : Option TestTree} (h : WellGrown t?) (name : String)
    (step : TreeStep) : WellGrown (step.take name t?) := by
  cases step with
  | outlined o => exact wellGrown_merge t? o name
  | began scope run => exact h.map fun t => RunSession.start_frame t scope run
  | moved s m => exact h.map fun t => s.move_frame t m
  | toggled key => exact h.map fun t => toggle_frame t key

namespace TestTree

variable {previous : Option TestTree} {o : Outline} {name : String} {n : TestNode}

/-- The nodes of the tree before, none if there was no tree. -/
def nodesBefore (previous : Option TestTree) : List TestNode := (previous.map nodes).getD []

/-- In a tree of a whole file a key finds the one node that has it. -/
theorem old?_eq_some_iff (h : WellGrown previous) {key : NodeKey} {old : TestNode} :
    old? previous key = some old ↔ old ∈ nodesBefore previous ∧ old.key = key := by
  cases previous with
  | none => simp [old?, nodesBefore]
  | some t =>
      have hkeyed := (h t rfl).1
      show (t.find? key).map info = some old ↔ old ∈ t.nodes ∧ old.key = key
      rw [Option.map_eq_some_iff, mem_nodes]
      constructor
      · rintro ⟨s, hs, rfl⟩
        obtain ⟨hmem, hkey⟩ := mem_subtrees_of_find? hs
        exact ⟨⟨s, hmem, rfl⟩, hkey⟩
      · rintro ⟨⟨s, hs, rfl⟩, hkey⟩
        exact ⟨s, hkeyed.find?_eq_some_iff.mpr ⟨hs, hkey⟩, rfl⟩

/-- Whatever was under the key of the file before is what the merge hands to the file. -/
theorem info_eq_of_old?_root (h : WellGrown previous) {old : TestNode}
    (hold : old? previous .root = some old) : previous.map info = some old := by
  cases previous with
  | none => cases hold
  | some t =>
      obtain ⟨hkeyed, hroot⟩ := h t rfl
      obtain ⟨s, hs, rfl⟩ := Option.map_eq_some_iff.mp hold
      obtain ⟨hmem, hkey⟩ := mem_subtrees_of_find? hs
      rw [hkeyed.eq_of_key_eq hmem (self_mem_subtrees t) (hkey.trans hroot.symm)]
      rfl

/-- A node below the file comes from a node of the outline, and carries what was found under its
key. -/
theorem info_eq_carry (hn : n ∈ (ofOutline previous o name).nodes) (hroot : n.key ≠ .root) :
    ∃ place m, o.locate? place = some (n.key, m) ∧
      n = (TestNode.ofOutline n.key m.info).carry (old? previous n.key) := by
  obtain ⟨s, hs, rfl⟩ := mem_nodes.mp hn
  rcases exists_locate?_of_mem hs with rfl | ⟨place, m, hlocate, heq⟩
  · exact absurd (ofOutline_key previous o name) hroot
  · refine ⟨place, m, hlocate, ?_⟩
    show s.info = (TestNode.ofOutline s.key m.info).carry (old? previous s.key)
    cases m with
    | node info children => exact congrArg TestTree.info heq

/-- A node whose key was there before takes after the node that had it. -/
theorem takesAfter_of_mem (h : WellGrown previous) (hn : n ∈ (ofOutline previous o name).nodes)
    {old : TestNode} (hold : old ∈ nodesBefore previous) (hkey : old.key = n.key) :
    n.TakesAfter old := by
  have hfound := (old?_eq_some_iff h).mpr ⟨hold, hkey⟩
  by_cases hroot : n.key = .root
  · obtain ⟨s, hs, rfl⟩ := mem_nodes.mp hn
    have hs' : s = ofOutline previous o name :=
      (ofOutline_keyed previous o name).eq_of_key_eq hs (self_mem_subtrees _)
        (hroot.trans (ofOutline_key previous o name).symm)
    rw [hs', ofOutline, info_node, info_eq_of_old?_root h (hroot ▸ hfound)]
    exact TestNode.carry_some _ old
  · obtain ⟨place, m, -, heq⟩ := info_eq_carry hn hroot
    rw [heq, hfound]
    exact TestNode.carry_some _ old

/-- A node below the file whose key was not there before starts afresh. -/
theorem startsAfresh_of_mem (h : WellGrown previous)
    (hn : n ∈ (ofOutline previous o name).nodes) (hroot : n.key ≠ .root)
    (hnew : ∀ old ∈ nodesBefore previous, old.key ≠ n.key) : n.StartsAfresh := by
  have hnone : old? previous n.key = none := by
    cases hfound : old? previous n.key with
    | none => rfl
    | some old =>
        obtain ⟨hold, hkey⟩ := (old?_eq_some_iff h).mp hfound
        exact absurd hkey (hnew old hold)
  obtain ⟨place, m, -, heq⟩ := info_eq_carry hn hroot
  rw [heq, hnone]
  exact TestNode.ofOutline_startsAfresh n.key m.info

/-- What a place of the tree has from the outline is what the outline has there. -/
theorem bare_at?_ofOutline {place : List Nat} (hplace : place ≠ []) :
    ((ofOutline previous o name).at? place).map (·.info.bare) =
      (o.locate? place).map fun (key, m) => TestNode.ofOutline key m.info := by
  rw [at?_ofOutline previous o name hplace, Option.map_map]
  refine congrArg (Option.map · (o.locate? place)) (funext fun (key, m) => ?_)
  cases m with
  | node info children => exact TestNode.bare_carry _ _

/-! ### Chains of merges -/

/-- Whichever node has a key starts afresh. -/
def FreshAt (key : NodeKey) (t : TestTree) : Prop := ∀ n ∈ t.nodes, n.key = key → n.StartsAfresh

/-- A merge hands on that nothing has happened under a key. -/
theorem FreshAt.merge {t : TestTree} {key : NodeKey} (h : t.FreshAt key)
    (hgrown : WellGrown (some t)) (hroot : key ≠ .root) :
    (TestTree.merge (some t) o name).1.FreshAt key := by
  rintro n hn rfl
  by_cases hold : ∃ old ∈ t.nodes, old.key = n.key
  · obtain ⟨old, hmem, hkey⟩ := hold
    obtain ⟨hresult, hrun, hexpanded⟩ := takesAfter_of_mem hgrown hn hmem hkey
    obtain ⟨hidle, hfree, hcollapsed⟩ := h old hmem hkey
    exact ⟨hresult.trans hidle, hrun.trans hfree, hexpanded.trans hcollapsed⟩
  · exact startsAfresh_of_mem hgrown hn hroot fun old hmem hkey => hold ⟨old, hmem, hkey⟩

end TestTree

/-! ### Every merge -/

end SpecExplorer
