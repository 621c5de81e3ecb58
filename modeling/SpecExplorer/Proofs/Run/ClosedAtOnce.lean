/-
# One close of a run is enough

The numbers go down along the second pass over an arena, so it comes to a node after all children of
that. Hence the two passes make of the arena of a tree just what closing the run makes of the tree,
and what they give are the numbers of the nodes whose result has changed. A second close has nothing
left to do, in whatever state the tree was and whichever runs its nodes belong to.
-/
import SpecExplorer.Proofs.Run.Closing
import SpecExplorer.Proofs.Run.Passes

namespace SpecExplorer

namespace TestTree

open Arena

variable {t s r c : TestTree} {place q : List Nat}

/-! ### The order of the second pass -/

/-- The containers at and below a place from the last to the first, then the nodes above it. -/
def closingOrder (t : TestTree) (place : List Nat) (s : TestTree) : List Nat :=
  (t.block place s).reverse.filter t.arena.hasChildren ++ (placesAbove place).map t.number

theorem hasChildren_number (h : t.at? place = some s) :
    t.arena.hasChildren (t.number place) = !s.children.isEmpty := by
  rw [hasChildren, getElem?_arena h]
  cases s.children <;> rfl

/-- Numbers go down along the way up. -/
theorem pairwise_number_placesAbove (h : t.at? place = some s) :
    (t.number place :: (placesAbove place).map t.number).Pairwise (· > ·) := by
  induction place using List.reverseRecOn generalizing s with
  | nil => exact List.pairwise_singleton _ _
  | append_singleton above k ih =>
      obtain ⟨r, hr, hs⟩ := exists_at?_of_append h
      have hup := ih hr
      have hlt : t.number above < t.number (above ++ [k]) := by
        obtain ⟨c, hc, -⟩ := Option.bind_eq_some_iff.mp hs
        rw [number_append_singleton hr hc]
        omega
      rw [placesAbove_concat, List.map_cons]
      refine List.pairwise_cons.mpr ⟨fun j hj => ?_, hup⟩
      rcases List.mem_cons.mp hj with rfl | hj
      · exact hlt
      · exact Nat.lt_trans ((List.pairwise_cons.mp hup).1 j hj) hlt

theorem pairwise_closingOrder (h : t.at? place = some s) :
    (t.closingOrder place s).Pairwise (· > ·) := by
  obtain ⟨habove, hup⟩ := List.pairwise_cons.mp (pairwise_number_placesAbove h)
  refine List.pairwise_append.mpr ⟨?_, hup, fun i hi j hj => ?_⟩
  · exact (List.pairwise_reverse.mpr List.pairwise_lt_range').sublist List.filter_sublist
  · have hle := (List.mem_range'_1.mp (List.mem_reverse.mp (List.mem_of_mem_filter hi))).1
    exact Nat.lt_of_lt_of_le (habove j hj) hle

theorem lt_size_of_mem_closingOrder (h : t.at? place = some s) {i : Nat}
    (hi : i ∈ t.closingOrder place s) : i < t.size := by
  have hsize := number_add_size_le h
  rcases List.mem_append.mp hi with hi | hi
  · have hlt := (List.mem_range'_1.mp (List.mem_reverse.mp (List.mem_of_mem_filter hi))).2
    omega
  · have habove := (List.pairwise_cons.mp (pairwise_number_placesAbove h)).1 i hi
    omega

section Keyed

variable (hkeyed : t.Keyed) (h : t.at? place = some s)

include hkeyed h

theorem number_mem_block_iff (hq : t.at? q = some r) :
    t.number q ∈ t.block place s ↔ s.key.covers r.key := by
  rw [hkeyed.mem_block_iff_covers h, info?_number hq]
  simp only [Option.some.injEq, exists_eq_left']
  rfl

theorem number_mem_above_iff (hq : t.at? q = some r) :
    t.number q ∈ (placesAbove place).map t.number ↔
      r.key.covers s.key ∧ r.key ≠ s.key := by
  rw [hkeyed.mem_above_iff_covers h, info?_number hq]
  simp only [Option.some.injEq, exists_eq_left']
  rfl

theorem number_mem_closingOrder_iff (hq : t.at? q = some r) :
    t.number q ∈ t.closingOrder place s ↔
      s.key.covers r.key ∧ r.children ≠ [] ∨ r.key.covers s.key ∧ r.key ≠ s.key := by
  rw [closingOrder, List.mem_append, List.mem_filter, List.mem_reverse,
    number_mem_block_iff hkeyed h hq, number_mem_above_iff hkeyed h hq, hasChildren_number hq]
  simp

end Keyed

/-! ### What the passes leave at a node -/

/-- The first pass, as a change of nodes. -/
def closingLeaves (key : NodeKey) (run : RunId) : NodeChange :=
  around key (fun info children => info.close run children) kept

theorem bare_closingLeaves (key : NodeKey) (run : RunId) (info : TestNode)
    (children : List TestTree) : (closingLeaves key run info children).bare = info.bare :=
  bare_around (fun _ _ => TestNode.bare_close _ _ _) (fun _ _ => rfl) info children

theorem close_map (f : TestTree → TestTree) (info : TestNode) (run : RunId)
    (children : List TestTree) : info.close run (children.map f) = info.close run children := by
  simp [TestNode.close, TestNode.isLeaf]

/-- Which children there are makes no difference to the first pass. -/
theorem closingLeaves_map (key : NodeKey) (run : RunId) (f : TestTree → TestTree)
    (info : TestNode) (children : List TestTree) :
    closingLeaves key run info (children.map f) = closingLeaves key run info children := by
  rw [closingLeaves, around_kept, around_kept, close_map]

/-- A node that the second pass does not come to is left by the first. -/
theorem closingAt_of_not_mem {key : NodeKey} {run : RunId} {info : TestNode}
    {children : List TestTree} (hbelow : key.covers info.key → children = [])
    (habove : info.key.covers key → key.covers info.key) :
    closingAt key run info children = closingLeaves key run info children := by
  by_cases hcovers : key.covers info.key
  · rw [closingAt, closingLeaves, around_below hcovers, around_below hcovers, hbelow hcovers]
    rfl
  · have hnot : ¬ info.key.covers key := fun h => hcovers (habove h)
    rw [closingAt, closingLeaves, around_apart hcovers hnot, around_apart hcovers hnot]

/-- A node that the second pass comes to is settled. -/
theorem closingAt_of_mem {key : NodeKey} {run : RunId} {info : TestNode}
    {children : List TestTree} (h : key.covers info.key ∨ info.key.covers key) :
    closingAt key run info children =
      (closingLeaves key run info children).settle (combined children) := by
  by_cases hcovers : key.covers info.key
  · rw [closingAt, closingLeaves, around_below hcovers, around_below hcovers]
    rfl
  · have habove := h.resolve_left hcovers
    rw [closingAt, closingLeaves, around_above hcovers habove, around_above hcovers habove]
    rfl

theorem closingAt_eq_with_result {key : NodeKey} {run : RunId} (info : TestNode)
    (children : List TestTree) : closingAt key run info children =
      { info with result := (closingAt key run info children).result } := by
  have hclose : info.close run children =
      { info with result := (info.close run children).result } := by
    unfold TestNode.close
    split
    · split <;> rfl
    · rfl
  have hsettle : ∀ n : TestNode, settled n children =
      { n with result := (settled n children).result } := fun n => by
    rcases settled_cases n children with ⟨-, heq⟩ | ⟨a, -, heq⟩ <;> rw [heq]
  unfold closingAt around
  split
  · rw [closing, hsettle, hclose]
  · split
    · exact hsettle info
    · rfl

/-- What is skipped does not come back. -/
theorem result_closingAt_ne {key : NodeKey} {run : RunId} {info : TestNode}
    {children : List TestTree} (h : info.result ≠ (closingLeaves key run info children).result) :
    info.result ≠ (closingAt key run info children).result := by
  by_cases hcovers : key.covers info.key
  · rw [closingLeaves, around_below hcovers] at h
    obtain ⟨x, hx, hopen⟩ : ∃ x, info.result = some x ∧ ¬ x.status.isTerminal := by
      cases hr : info.result with
      | none => simp [TestNode.close, hr] at h
      | some x =>
          refine ⟨x, rfl, fun hterminal => h ?_⟩
          simp [TestNode.close, hr, hterminal]
    rw [closingAt, around_below hcovers, closing]
    rcases settled_cases (info.close run children) children with ⟨-, heq⟩ | ⟨a, ha, heq⟩
    · rwa [heq]
    · rw [heq, hx]
      rintro hxa
      exact hopen (Option.some.inj hxa ▸ isTerminal_of_combined ha)
  · rw [closingLeaves, around_kept, if_neg hcovers] at h
    exact absurd rfl h

/-- The nodes after the first pass. -/
def afterLeaves (t : TestTree) (key : NodeKey) (run : RunId) : Nat → TestNode :=
  (t.rebuild (closingLeaves key run)).arena.infoAt

/-- The nodes after the second pass. -/
def afterClosing (t : TestTree) (key : NodeKey) (run : RunId) : Nat → TestNode :=
  (t.rebuild (closingAt key run)).arena.infoAt

theorem afterLeaves_number (hq : t.at? q = some r) (key : NodeKey) (run : RunId) :
    t.afterLeaves key run (t.number q) = closingLeaves key run r.info r.children := by
  rw [afterLeaves, infoAt_rebuild (bare_closingLeaves key run) hq, closingLeaves_map]

theorem afterClosing_number (hq : t.at? q = some r) (key : NodeKey) (run : RunId) :
    t.afterClosing key run (t.number q) =
      closingAt key run r.info (r.children.map (rebuild (closingAt key run))) :=
  infoAt_rebuild (bare_closingAt key run) hq

/-! ### The passes -/

theorem mapM_eq_some_of_map_eq {α β : Type} {f : α → Option β} {l : List α} {m : List β}
    (h : l.map f = m.map some) : l.mapM f = some m := by
  have hall : (m.map some).mapM id = l.mapM f := by rw [← h, List.mapM_map, Function.id_comp]
  rw [← hall, List.mapM_map]
  exact (List.mapM_pure (f := id)).trans (congrArg some (List.map_id m))

/-- In the arena, what the children of a node show together is read off what is shown there. -/
theorem aggregate?_paint {shown : Nat → TestNode} {f : TestTree → TestTree}
    (hq : t.at? q = some r)
    (hshown : ∀ k c, r.children[k]? = some c → shown (t.number (q ++ [k])) = (f c).info) :
    (t.arena.paint shown).aggregate? (t.number q) = some (combined (r.children.map f)) := by
  have hchildren : (numbers (t.number q + 1) r.children).mapM (t.arena.paint shown).info? =
      some ((r.children.map f).map info) := by
    refine mapM_eq_some_of_map_eq (List.ext_getElem? fun k => ?_)
    rw [List.getElem?_map, getElem?_children hq, List.getElem?_map, List.getElem?_map,
      List.getElem?_map]
    cases hc : r.children[k]? with
    | none => rfl
    | some c =>
        have hlt : t.number (q ++ [k]) < t.arena.nodes.length := by
          rw [length_arena]
          exact number_lt_size (at?_concat hq hc)
        simp only [Option.map_some]
        rw [info?_paint hlt, hshown k c hc]
  rw [aggregate?, getElem?_paint_of_getElem? (getElem?_arena hq)]
  simp only [Option.bind_eq_bind, Option.bind_some, hchildren]
  rw [Tally.overall?_eq_combine, List.map_map, List.filterMap_map]
  rfl

section Passes

variable (hkeyed : t.Keyed) (h : t.at? place = some s) (run : RunId)

include hkeyed h

/-- The first pass closes the leaves. -/
theorem foldlM_skipLeaf? :
    (t.block place s).foldlM (skipLeaf? run) ⟨t.arena, []⟩ =
      some ⟨t.arena.paint (t.afterLeaves s.key run), (t.block place s).flatMap fun i =>
        changedAt i (t.arena.infoAt i) (t.afterLeaves s.key run i)⟩ := by
  have hstep : ∀ done i rest, t.block place s = done ++ i :: rest → i ∉ done → ∀ changed,
      skipLeaf? run ⟨t.arena.paint (halfway t.arena.infoAt (t.afterLeaves s.key run) done),
          changed⟩ i =
        some (.painted t.arena (halfway t.arena.infoAt (t.afterLeaves s.key run) done) changed i
          (t.afterLeaves s.key run i)) := by
    intro done i rest hids hnew changed
    have hi : i ∈ t.block place s := by simp [hids]
    obtain ⟨below, r, hr, rfl⟩ := (mem_block_iff h).mp hi
    have hq := (at?_append_of_at? h below).trans hr
    have hleaf : (numbers (t.number (place ++ below) + 1) r.children).isEmpty =
        r.children.isEmpty := by
      cases r.children <;> rfl
    have hcovers := (number_mem_block_iff hkeyed h hq).mp hi
    rw [skipLeaf?_paint (getElem?_arena hq) changed run hleaf, afterLeaves_number hq,
      closingLeaves, around_below hcovers]
    rw [halfway, if_neg hnew, infoAt_number hq]
  have hkept : ∀ i < t.arena.nodes.length, i ∉ t.block place s →
      t.afterLeaves s.key run i = t.arena.infoAt i := by
    intro i hi hnot
    rw [length_arena] at hi
    obtain ⟨q, r, hq, rfl⟩ := exists_number_eq hi
    rw [number_mem_block_iff hkeyed h hq] at hnot
    rw [infoAt_number hq, afterLeaves_number hq, closingLeaves, around_kept]
    exact if_neg hnot
  have hpass := foldlM_pass List.nodup_range' hstep hkept []
  rwa [← arena_eq_paint rfl, List.nil_append] at hpass

/-- What the second pass does not come to is as it has to be after the first. -/
theorem afterClosing_of_not_mem (hq : t.at? q = some r)
    (hnot : t.number q ∉ t.closingOrder place s) :
    t.afterClosing s.key run (t.number q) = t.afterLeaves s.key run (t.number q) := by
  rw [number_mem_closingOrder_iff hkeyed h hq, not_or] at hnot
  rw [afterClosing_number hq, afterLeaves_number hq, ← closingLeaves_map _ _ (rebuild _)]
  refine closingAt_of_not_mem (fun hcovers => ?_) fun habove => ?_
  · by_contra hne
    exact hnot.1 ⟨hcovers, fun hnil => hne (by rw [hnil, List.map_nil])⟩
  · by_contra hcovers
    refine hnot.2 ⟨habove, fun heq => hcovers ?_⟩
    rw [show r.info.key = s.key from heq]
    exact NodeKey.covers_refl _

/-- The second pass settles the containers. -/
theorem foldlM_settle? (changed : List Nat) :
    (t.closingOrder place s).foldlM settle?
        ⟨t.arena.paint (t.afterLeaves s.key run), changed⟩ =
      some ⟨t.arena.paint (t.afterClosing s.key run), changed ++ (t.closingOrder place s).flatMap
        fun i => changedAt i (t.afterLeaves s.key run i) (t.afterClosing s.key run i)⟩ := by
  have hdown := pairwise_closingOrder h
  have hstep : ∀ done i rest, t.closingOrder place s = done ++ i :: rest → i ∉ done → ∀ changed,
      settle? ⟨t.arena.paint
          (halfway (t.afterLeaves s.key run) (t.afterClosing s.key run) done), changed⟩ i =
        some (.painted t.arena (halfway (t.afterLeaves s.key run) (t.afterClosing s.key run) done)
          changed i (t.afterClosing s.key run i)) := by
    intro done i rest hids hnew changed
    have hi : i ∈ t.closingOrder place s := by simp [hids]
    obtain ⟨q, r, hq, rfl⟩ := exists_number_eq (lt_size_of_mem_closingOrder h hi)
    -- A child has a larger number, so it is among the nodes that are done or not in the order.
    have hchild : ∀ k c, r.children[k]? = some c →
        halfway (t.afterLeaves s.key run) (t.afterClosing s.key run) done (t.number (q ++ [k])) =
          (c.rebuild (closingAt s.key run)).info := by
      intro k c hc
      have hat := at?_concat hq hc
      rw [info_rebuild, ← afterClosing_number hat]
      unfold halfway
      split
      next => rfl
      next hopen =>
          refine (afterClosing_of_not_mem hkeyed h run hat fun hmem => ?_).symm
          rw [hids, List.mem_append, List.mem_cons] at hmem
          have hlater := number_append_singleton hq hc
          rcases hmem.resolve_left hopen with heq | hrest
          · omega
          · have hgt : t.number q > t.number (q ++ [k]) :=
              (List.pairwise_cons.mp (List.pairwise_append.mp (hids ▸ hdown)).2.1).1 _ hrest
            omega
    have hnear : s.key.covers r.info.key ∨ r.info.key.covers s.key :=
      ((number_mem_closingOrder_iff hkeyed h hq).mp hi).imp And.left And.left
    rw [settle?_paint (getElem?_arena hq) changed (aggregate?_paint hq hchild), halfway,
      if_neg hnew, afterClosing_number hq, closingAt_of_mem hnear, closingLeaves_map,
      afterLeaves_number hq]
  refine foldlM_pass (hdown.imp Nat.ne_of_gt) hstep (fun i hi hnot => ?_) changed
  rw [length_arena] at hi
  obtain ⟨q, r, hq, rfl⟩ := exists_number_eq hi
  exact afterClosing_of_not_mem hkeyed h run hq hnot

end Passes

/-! ### Keys and numbers -/

/-- In pre-order, a key has the number of its node. -/
theorem Keyed.idxOf_key (hkeyed : t.Keyed) (hq : t.at? q = some r) :
    t.keys.idxOf r.key = t.number q := by
  have hget : t.keys[t.number q]? = some r.key := by
    rw [← map_key_arena, List.getElem?_map, getElem?_arena hq]
    rfl
  obtain ⟨hlt, heq⟩ := List.getElem?_eq_some_iff.mp hget
  rw [← heq, hkeyed.nodup_keys.idxOf_getElem]

theorem mem_changedKey {before after : TestNode} {key : NodeKey} :
    key ∈ before.changedKey after ↔ key = before.key ∧ before.result ≠ after.result := by
  unfold TestNode.changedKey
  split <;> simp_all

theorem exists_key_of_mem_changes {f : NodeChange} {key : NodeKey} (h : key ∈ t.changes f) :
    ∃ r ∈ t.subtrees, r.key = key := by
  obtain ⟨r, hr, hkey⟩ := List.mem_flatMap.mp h
  exact ⟨r, hr, (mem_changedKey.mp hkey).1.symm⟩

theorem Keyed.mem_changes_iff (hkeyed : t.Keyed) {f : NodeChange} (hr : r ∈ t.subtrees) :
    r.key ∈ t.changes f ↔ r.info.result ≠ (r.rebuild f).info.result := by
  rw [changes, List.mem_flatMap]
  constructor
  · rintro ⟨u, hu, hkey⟩
    obtain ⟨hkey, hne⟩ := mem_changedKey.mp hkey
    rwa [hkeyed.eq_of_key_eq hr hu hkey]
  · exact fun hne => ⟨r, hr, mem_changedKey.mpr ⟨rfl, hne⟩⟩

/-! ### The whole close -/

/-- What both passes write down. -/
def writtenDown (t : TestTree) (place : List Nat) (s : TestTree) (run : RunId) : List Nat :=
  ((t.block place s).flatMap fun i =>
      changedAt i (t.arena.infoAt i) (t.afterLeaves s.key run i)) ++
    (t.closingOrder place s).flatMap fun i =>
      changedAt i (t.afterLeaves s.key run i) (t.afterClosing s.key run i)

theorem mem_changedAt {i j : Nat} {before after : TestNode} :
    j ∈ changedAt i before after ↔ j = i ∧ before.result ≠ after.result := by
  unfold changedAt
  split <;> simp_all

theorem mem_flatMap_changedAt {ids : List Nat} {before after : Nat → TestNode} {j : Nat} :
    j ∈ ids.flatMap (fun i => changedAt i (before i) (after i)) ↔
      j ∈ ids ∧ (before j).result ≠ (after j).result := by
  rw [List.mem_flatMap]
  constructor
  · rintro ⟨i, hi, hj⟩
    obtain ⟨rfl, hne⟩ := mem_changedAt.mp hj
    exact ⟨hi, hne⟩
  · rintro ⟨hj, hne⟩
    exact ⟨j, hj, mem_changedAt.mpr ⟨rfl, hne⟩⟩

theorem lt_size_of_mem_writtenDown (h : t.at? place = some s) {run : RunId} {j : Nat}
    (hj : j ∈ t.writtenDown place s run) : j < t.size := by
  rw [writtenDown, List.mem_append, mem_flatMap_changedAt, mem_flatMap_changedAt] at hj
  rcases hj with ⟨hj, -⟩ | ⟨hj, -⟩
  · have hsize := number_add_size_le h
    have hlt := (List.mem_range'_1.mp hj).2
    omega
  · exact lt_size_of_mem_closingOrder h hj

section Close

variable (hkeyed : t.Keyed) (h : t.at? place = some s) (run : RunId)

include hkeyed h

/-- What the passes write down are the nodes that are shown with another result in the end. -/
theorem number_mem_writtenDown_iff (hq : t.at? q = some r) :
    t.number q ∈ t.writtenDown place s run ↔
      r.info.result ≠ (t.afterClosing s.key run (t.number q)).result := by
  rw [writtenDown, List.mem_append, mem_flatMap_changedAt, mem_flatMap_changedAt,
    infoAt_number hq]
  have hback : r.info.result ≠ (t.afterLeaves s.key run (t.number q)).result →
      r.info.result ≠ (t.afterClosing s.key run (t.number q)).result := by
    rw [afterLeaves_number hq, afterClosing_number hq,
      ← closingLeaves_map _ _ (rebuild (closingAt s.key run))]
    exact result_closingAt_ne
  constructor
  · rintro (⟨-, hne⟩ | ⟨-, hne⟩)
    · exact hback hne
    · by_cases hleaf : r.info.result = (t.afterLeaves s.key run (t.number q)).result
      · rwa [hleaf]
      · exact hback hleaf
  · intro hne
    by_cases hleaf : r.info.result = (t.afterLeaves s.key run (t.number q)).result
    · rw [hleaf] at hne
      refine .inr ⟨?_, hne⟩
      by_contra hnot
      exact hne (by rw [afterClosing_of_not_mem hkeyed h run hq hnot])
    · refine .inl ⟨?_, hleaf⟩
      rw [number_mem_block_iff hkeyed h hq]
      by_contra hbelow
      rw [afterLeaves_number hq, closingLeaves, around_kept] at hleaf
      exact hleaf (by rw [if_neg (show ¬ s.key.covers r.info.key from hbelow)])

/-- The passes turn the arena of a tree into that of the rebuilt tree. -/
theorem finishRun?_eq_rebuild :
    t.arena.finishRun? (t.number place) run = some ((t.rebuild (closingAt s.key run)).arena,
      ((t.writtenDown place s run).insertionSort (· ≤ ·)).destutter (· ≠ ·)) := by
  have hchildren : (t.arena.paint (t.afterLeaves s.key run)).hasChildren = t.arena.hasChildren := by
    funext i
    rw [hasChildren, getElem?_paint, Option.any_map]
    rfl
  have harena : t.arena.paint (t.afterClosing s.key run) =
      (t.rebuild (closingAt s.key run)).arena :=
    (arena_eq_paint (rebuild_frame (bare_closingAt s.key run) t)).symm
  have hsettled := foldlM_settle? hkeyed h run ((t.block place s).flatMap fun i =>
    changedAt i (t.arena.infoAt i) (t.afterLeaves s.key run i))
  rw [closingOrder] at hsettled
  rw [finishRun?, subtree?_number h]
  simp only [Option.bind_eq_bind, Option.bind_some, foldlM_skipLeaf? hkeyed h run,
    ancestors?_paint, ancestors?_number h, hchildren, hsettled, harena]
  rfl

/-- In ascending order, these are the numbers of the keys that closing the run of the tree lists. -/
theorem sorted_writtenDown :
    ((t.writtenDown place s run).insertionSort (· ≤ ·)).destutter (· ≠ ·) =
      (t.finishRun s.key run).2.map t.keys.idxOf := by
  have hkey : t.contains s.key := contains_key (mem_subtrees_of_at? h)
  have hchanges := finishRun_snd_eq_changes hkeyed hkey run
  have hascending := pairwise_destutter_ne
    (List.pairwise_insertionSort (· ≤ ·) (t.writtenDown place s run))
  have hascending' : ((t.finishRun s.key run).2.map t.keys.idxOf).Pairwise (· < ·) := by
    rw [finishRun_snd_eq_differing hkeyed hkey]
    exact hkeyed.pairwise_idxOf_of_sublist List.filter_sublist
  have hsame : ∀ j, j ∈ ((t.writtenDown place s run).insertionSort (· ≤ ·)).destutter (· ≠ ·) ↔
      j ∈ (t.finishRun s.key run).2.map t.keys.idxOf := by
    intro j
    rw [mem_destutter_ne, List.mem_insertionSort, hchanges, List.mem_map]
    constructor
    · intro hj
      obtain ⟨q, r, hq, rfl⟩ := exists_number_eq (lt_size_of_mem_writtenDown h hj)
      rw [number_mem_writtenDown_iff hkeyed h run hq] at hj
      refine ⟨r.key, (hkeyed.mem_changes_iff (mem_subtrees_of_at? hq)).mpr ?_,
        hkeyed.idxOf_key hq⟩
      rwa [info_rebuild, ← afterClosing_number hq]
    · rintro ⟨key, hkey, rfl⟩
      obtain ⟨r, hr, rfl⟩ := exists_key_of_mem_changes hkey
      obtain ⟨q, hq⟩ := mem_subtrees_iff_exists_at?.mp hr
      rw [hkeyed.mem_changes_iff hr, info_rebuild, ← afterClosing_number hq] at hkey
      rwa [hkeyed.idxOf_key hq, number_mem_writtenDown_iff hkeyed h run hq]
  have hperm := (List.perm_ext_iff_of_nodup (hascending.imp Nat.ne_of_lt)
    (hascending'.imp Nat.ne_of_lt)).mpr hsame
  refine hperm.eq_of_pairwise (fun i j _ _ hij hji => ?_) hascending hascending'
  exact absurd (Nat.lt_trans hij hji) (Nat.lt_irrefl _)

/-- The passes close a run in the arena of a tree as it is closed in the tree, and what they give
are the numbers of the nodes that are listed there. -/
theorem finishRun?_number : t.arena.finishRun? (t.number place) run =
    some ((t.finishRun s.key run).1.arena, (t.finishRun s.key run).2.map t.keys.idxOf) := by
  rw [finishRun?_eq_rebuild hkeyed h, sorted_writtenDown hkeyed h,
    finishRun_eq_rebuild hkeyed (contains_key (mem_subtrees_of_at? h))]
  rfl

end Close

end TestTree

namespace Arena

/-- How the close of a run from a node on turns an arena into another one. -/
structure ClosedAtOnce (a a' : Arena) (scope : Nat) (run : RunId) (changed : List Nat) : Prop where
  /-- The nodes whose result changed are given, and no others. -/
  listed : ∀ i, i ∈ changed ↔ (a.info? i).map (·.result) ≠ (a'.info? i).map (·.result)
  /-- They are given in ascending order, none of them twice. -/
  ascending : changed.Pairwise (· < ·)
  /-- Nothing but results has changed. -/
  kept : a' = a.paint fun i => { a.infoAt i with result := (a'.infoAt i).result }
  /-- At the node, below it and above it, what the children show together is shown, if they do. -/
  settled : ∃ below above, a.subtree? scope = some below ∧ a.ancestors? scope = some above ∧
    ∀ i ∈ below ++ above, ∃ n combined, a'.info? i = some n ∧ a'.aggregate? i = some combined ∧
      ∀ r, combined = some r → n.result = some r
  /-- Closing the run once more changes nothing and gives nothing. -/
  again : a'.finishRun? scope run = some (a', [])

end Arena

namespace TestTree

open Arena

variable {t s r : TestTree} {place q : List Nat}

theorem aggregate?_number (hq : t.at? q = some r) :
    t.arena.aggregate? (t.number q) = some (combined r.children) := by
  have hpaint := aggregate?_paint (f := id) hq fun k c hc => infoAt_number (at?_concat hq hc)
  rwa [← arena_eq_paint rfl, List.map_id] at hpaint

/-- In the end the nodes below and above show what their children show together. -/
theorem settled_near (hkeyed : t.Keyed) (h : t.at? place = some s) (run : RunId) {i : Nat}
    (hi : i ∈ t.block place s ++ (placesAbove place).map t.number) :
    ∃ n combined, (t.rebuild (closingAt s.key run)).arena.info? i = some n ∧
      (t.rebuild (closingAt s.key run)).arena.aggregate? i = some combined ∧
      ∀ x, combined = some x → n.result = some x := by
  obtain ⟨q, r, hq, rfl, hnear⟩ : ∃ q r, t.at? q = some r ∧ t.number q = i ∧
      (s.key.covers r.key ∨ r.key.covers s.key) := by
    rcases List.mem_append.mp hi with hi | hi
    · obtain ⟨below, r, hr, rfl⟩ := (mem_block_iff h).mp hi
      have hq := (at?_append_of_at? h below).trans hr
      exact ⟨_, r, hq, rfl, .inl ((number_mem_block_iff hkeyed h hq).mp hi)⟩
    · obtain ⟨q, hq, rfl⟩ := List.mem_map.mp hi
      obtain ⟨k, below, rfl⟩ := mem_placesAbove_iff.mp hq
      obtain ⟨r, hr, -⟩ := exists_at?_of_append h
      exact ⟨q, r, hr, rfl, .inr ((number_mem_above_iff hkeyed h hr).mp hi).1⟩
  have hq' := at?_rebuild_of_at? hq (closingAt s.key run)
  rw [← number_eq_of_frame_eq (rebuild_frame (bare_closingAt s.key run) t)]
  refine ⟨_, _, info?_number hq', aggregate?_number hq', fun x hx => ?_⟩
  rw [info_rebuild]
  rw [children_rebuild] at hx
  exact result_closingAt hnear hx

/-- Closing a run leaves everything of the nodes but their results. -/
theorem arena_rebuild_closingAt (t : TestTree) (key : NodeKey) (run : RunId) :
    (t.rebuild (closingAt key run)).arena = t.arena.paint fun i =>
      { t.arena.infoAt i with
        result := ((t.rebuild (closingAt key run)).arena.infoAt i).result } := by
  refine (arena_eq_paint (rebuild_frame (bare_closingAt key run) t)).trans
    (paint_congr fun i hi => ?_)
  rw [length_arena] at hi
  obtain ⟨q, r, hq, rfl⟩ := exists_number_eq hi
  rw [infoAt_number hq, infoAt_rebuild (bare_closingAt key run) hq]
  exact closingAt_eq_with_result _ _

/-- The numbers that both passes write down are those of the nodes that are shown with another
result in the end. -/
theorem mem_writtenDown_iff (hkeyed : t.Keyed) (h : t.at? place = some s) (run : RunId) {i : Nat} :
    i ∈ t.writtenDown place s run ↔ (t.arena.info? i).map (·.result) ≠
      ((t.rebuild (closingAt s.key run)).arena.info? i).map (·.result) := by
  have hbare := bare_closingAt s.key run
  by_cases hi : i < t.size
  · obtain ⟨q, r, hq, rfl⟩ := exists_number_eq hi
    have hinfo := info?_number (at?_rebuild_of_at? hq (closingAt s.key run))
    rw [number_eq_of_frame_eq (rebuild_frame hbare t), info_rebuild, ← afterClosing_number hq]
      at hinfo
    rw [number_mem_writtenDown_iff hkeyed h run hq, info?_number hq, hinfo]
    simp
  · have hlength : (t.rebuild (closingAt s.key run)).arena.nodes.length = t.size := by
      rw [length_arena, ← size_frame, rebuild_frame hbare, size_frame]
    have hnone : ∀ a : Arena, a.nodes.length = t.size → a.info? i = none := by
      intro a ha
      rw [info?, List.getElem?_eq_none (by omega), Option.map_none]
    rw [hnone _ (length_arena t), hnone _ hlength]
    exact iff_of_false (fun hmem => hi (lt_size_of_mem_writtenDown h hmem)) (fun hne => hne rfl)

/-- Whatever the nodes of a merged tree show and whichever runs they belong to, a run can be closed
from any node on. -/
theorem run_closes_at_once {previous : Option TestTree} {o : Outline} {name : String}
    (hframe : t.frame = (merge previous o name).1.frame) {scope : Nat} (hscope : scope < t.size)
    (run : RunId) : ∃ a changed, t.arena.finishRun? scope run = some (a, changed) ∧
      t.arena.ClosedAtOnce a scope run changed := by
  have hkeyed : t.Keyed := (ofOutline_keyed previous o name).of_frame_eq hframe
  obtain ⟨place, s, h, rfl⟩ := exists_number_eq hscope
  have hkey : t.contains s.key := contains_key (mem_subtrees_of_at? h)
  have hbare := bare_closingAt s.key run
  refine ⟨_, _, finishRun?_eq_rebuild hkeyed h run, ?listed, ?ascending, ?kept, ?settled, ?again⟩
  case listed =>
    intro i
    rw [mem_destutter_ne, List.mem_insertionSort, mem_writtenDown_iff hkeyed h run]
  case ascending => exact pairwise_destutter_ne (List.pairwise_insertionSort _ _)
  case kept => exact arena_rebuild_closingAt t s.key run
  case settled =>
    exact ⟨_, _, subtree?_number h, ancestors?_number h, fun i hi => settled_near hkeyed h run hi⟩
  case again =>
    have h' := at?_rebuild_of_at? h (closingAt s.key run)
    have hagain := finishRun?_number (hkeyed.of_frame_eq (rebuild_frame hbare t)) h' run
    rw [number_eq_of_frame_eq (rebuild_frame hbare t), key_rebuild hbare,
      finishRun_rebuild_closingAt hkeyed hkey run] at hagain
    exact hagain

/-- A run over a file, from which a second one has taken over a spec. -/
def takenOver : TestTree :=
  (((merge none .cart "cart_test.go").1.prepareToRun .root 1).1.prepareToRun
    (.ofNames ["cart", "adds"]) 2).1

theorem run_closes_at_once_cart :
    takenOver.frame = (merge none .cart "cart_test.go").1.frame ∧ 0 < takenOver.size ∧
      ∃ a, takenOver.arena.finishRun? 0 1 = some (a, [3, 4, 5, 6]) ∧
        takenOver.arena.ClosedAtOnce a 0 1 [3, 4, 5, 6] := by
  have hframe : takenOver.frame = (merge none .cart "cart_test.go").1.frame := by
    rw [takenOver, prepareToRun_frame, prepareToRun_frame]
  have hsize : 0 < takenOver.size := by decide +kernel
  obtain ⟨a, changed, hfinish, hclosed⟩ := run_closes_at_once hframe hsize 1
  have hchanged : (takenOver.arena.finishRun? 0 1).map Prod.snd = some [3, 4, 5, 6] := by
    decide +kernel
  rw [hfinish, Option.map_some, Option.some.injEq] at hchanged
  subst hchanged
  exact ⟨hframe, hsize, a, hfinish, hclosed⟩

end TestTree

end SpecExplorer
