/-
# What a run does to specs

Where specs are leaves, every step of a run changes each of them by itself: nothing that is settled
above a spec depends on where the spec stands among the others. So a step maps the list of specs,
and with it the specs of every name path, in place and in order.
-/
import SpecExplorer.Proofs.Run.Combined

namespace SpecExplorer.TestTree

variable {t : TestTree}

theorem specs_node (info : TestNode) (children : List TestTree) :
    (node info children).specs =
      (if info.kind = .spec then [info] else []) ++ children.flatMap specs := by
  unfold specs
  rw [nodes_node, List.filter_cons, List.filter_flatMap]
  by_cases hspec : info.kind = .spec <;> simp [hspec]

/-- In a tree whose specs are leaves, a node with children has the specs of its children. -/
theorem specs_node_of_mem {info : TestNode} {children : List TestTree} {c : TestTree}
    (hc : c ∈ children) (hleaf : (node info children).SpecsAreLeaves) :
    info.kind ≠ .spec ∧ (node info children).specs = children.flatMap specs := by
  have hkind : info.kind ≠ .spec := by
    intro hspec
    have hnil := (specsAreLeaves_node.mp hleaf).1 hspec
    rw [hnil] at hc
    cases hc
  exact ⟨hkind, by rw [specs_node, if_neg hkind, List.nil_append]⟩

theorem mem_nodes_of_mem_specs {n : TestNode} (h : n ∈ t.specs) : n ∈ t.nodes :=
  (List.mem_filter.mp h).1

theorem kind_of_mem_specs {n : TestNode} (h : n ∈ t.specs) : n.kind = .spec := by
  simpa using (List.mem_filter.mp h).2

theorem mem_specs {n : TestNode} :
    n ∈ t.specs ↔ ∃ s ∈ t.subtrees, s.info = n ∧ n.kind = .spec := by
  rw [specs, List.mem_filter, mem_nodes, beq_iff_eq]
  constructor
  · rintro ⟨⟨s, hs, hn⟩, hkind⟩
    exact ⟨s, hs, hn, hkind⟩
  · rintro ⟨s, hs, hn, hkind⟩
    exact ⟨⟨s, hs, hn⟩, hkind⟩

theorem mem_specsNamed {n : TestNode} {names : List String} :
    n ∈ t.specsNamed names ↔ n ∈ t.specs ∧ n.key.names = names := by
  simp [specsNamed]

/-- Where a step maps the specs, it maps those of each name path. -/
theorem specsNamed_eq_map {t' : TestTree} {f : TestNode → TestNode}
    (hf : ∀ n, (f n).bare = n.bare) (h : t'.specs = t.specs.map f) (names : List String) :
    t'.specsNamed names = (t.specsNamed names).map f := by
  unfold specsNamed
  rw [h, List.filter_map]
  refine congrArg _ (List.filter_congr fun n _ => ?_)
  rw [Function.comp_apply, TestNode.key_eq_of_bare_eq (hf n)]

/-- The specs of a name path in trees of one frame are the same up to what happened to them. -/
theorem specsNamed_frame (t : TestTree) (names : List String) :
    t.frame.specsNamed names = (t.specsNamed names).map TestNode.bare := by
  simp only [specsNamed, specs, nodes_frame, List.filter_map, List.filter_filter]
  rfl

theorem specs_touch {change : TestNode → Option TestNode}
    (hbare : ∀ n n', change n = some n' → n'.bare = n.bare) (t : TestTree) :
    (t.touch change).1.specs = t.specs.map fun n => (change n).getD n := by
  induction t with
  | node info children ih =>
      have hkind : ((change info).getD info).kind = info.kind := by
        cases h : change info with
        | none => rfl
        | some n => exact TestNode.kind_eq_of_bare_eq (hbare info n h)
      rw [touch_fst, specs_node, specs_node, hkind, List.map_append, List.flatMap_map,
        List.map_flatMap, List.flatMap_congr ih]
      split <;> rfl

/-- Closing a run closes each spec by itself. -/
theorem specs_finish (run : RunId) (hleaf : t.SpecsAreLeaves) :
    (t.finish run).1.specs = t.specs.map fun n => n.close run [] := by
  induction t with
  | node info children ih =>
      have hbare : (finishNode run info children).bare = info.bare := by
        rw [finishNode, TestNode.bare_settle, TestNode.bare_close]
      have hchildren : (children.flatMap fun c => (c.finish run).1.specs) =
          children.flatMap fun c => c.specs.map fun n => n.close run [] :=
        List.flatMap_congr fun c hc => ih c hc (hleaf.of_mem_children hc)
      rw [finish_fst, specs_node, specs_node, TestNode.kind_eq_of_bare_eq hbare, List.map_append,
        List.flatMap_map, List.map_flatMap, hchildren]
      by_cases hspec : info.kind = .spec
      · obtain rfl : children = [] := (specsAreLeaves_node.mp hleaf).1 hspec
        rw [if_pos hspec, if_pos hspec]
        rfl
      · rw [if_neg hspec, if_neg hspec]
        rfl

theorem eq_map_of_forall {l : List TestNode} {f : TestNode → TestNode}
    (h : ∀ n ∈ l, f n = n) : l = l.map f := by
  rw [List.map_congr_left h, List.map_id']

/-- A change of the root is a change of the specs with the root's key. -/
theorem specs_mapRoot {f : TestNode → TestNode} (hf : ∀ n, (f n).bare = n.bare)
    (hkeyed : t.Keyed) :
    (mapRoot f t).specs = t.specs.map fun n => if n.key = t.key then f n else n := by
  cases t with
  | node info children =>
      have hbelow : ∀ c ∈ children, c.specs =
          c.specs.map fun n => if n.key = info.key then f n else n := by
        intro c hc
        refine eq_map_of_forall fun n hn => if_neg ?_
        intro h
        obtain ⟨s, hs, rfl⟩ := mem_nodes.mp (mem_nodes_of_mem_specs hn)
        have hdepth := hkeyed.depth_lt_of_mem_child hc hs
        rw [key_node, ← h] at hdepth
        exact Nat.lt_irrefl _ hdepth
      rw [mapRoot_node, specs_node, specs_node, TestNode.kind_eq_of_bare_eq (hf info),
        List.map_append, List.map_flatMap, List.flatMap_congr hbelow]
      refine congrArg (· ++ _) ?_
      by_cases hspec : info.kind = .spec <;> simp [hspec]

/-- A result recorded at a spec is a change of that spec alone. -/
theorem specs_recorded {key : NodeKey} {r : RunResult} {t' : TestTree} {log : List NodeKey}
    (h : Replaced key (mapRoot fun n => { n with result := some r }) settled t t' log)
    (hkeyed : t.Keyed) (hleaf : t.SpecsAreLeaves) :
    t'.specs = t.specs.map fun n => if n.key = key then { n with result := some r } else n := by
  induction h with
  | @here info children hkey =>
      rw [specs_mapRoot (f := fun n => { n with result := some r }) (fun _ => rfl) hkeyed,
        key_node, hkey]
  | @deeper info before after c c' log hkey hbefore hchild ih =>
      have hc : c ∈ before ++ c :: after := by simp
      obtain ⟨hkind, hspecs⟩ := specs_node_of_mem hc hleaf
      have hkind' : (settled info (before ++ c' :: after)).kind ≠ .spec := by
        rwa [TestNode.kind_eq_of_bare_eq (bare_settled _ _)]
      -- No sibling of the changed child holds the key, so their specs stay as they are.
      have hsame : ∀ ds : List TestTree, (∀ d ∈ ds, d ∈ before ∨ d ∈ after) →
          ds.flatMap specs = (ds.flatMap specs).map
            fun n => if n.key = key then { n with result := some r } else n := by
        intro ds hds
        refine eq_map_of_forall fun n hn => if_neg ?_
        intro hnkey
        obtain ⟨d, hd, hn⟩ := List.mem_flatMap.mp hn
        have hcontains : d.contains n.key := contains_of_mem_nodes (mem_nodes_of_mem_specs hn)
        rw [hnkey] at hcontains
        exact hkeyed.not_contains_sibling hchild.contains (hds d hd) hcontains
      have hb := hsame before fun d hd => .inl hd
      have ha := hsame after fun d hd => .inr hd
      rw [specs_node, if_neg hkind', List.nil_append, hspecs, List.flatMap_append,
        List.flatMap_append, List.flatMap_cons, List.flatMap_cons, List.map_append,
        List.map_append, ← hb, ← ha, ih (hkeyed.of_mem_children hc) (hleaf.of_mem_children hc)]

/-- The specs of a name path are in different places. -/
theorem Keyed.eq_of_specsNamed (hkeyed : t.Keyed) {names : List String} {i j : Nat}
    {m n : TestNode} (hm : (t.specsNamed names)[i]? = some m)
    (hn : (t.specsNamed names)[j]? = some n) (hkey : m.key = n.key) : i = j := by
  have hnodup : ((t.specsNamed names).map (·.key)).Nodup := by
    refine List.Nodup.sublist (List.Sublist.map _ ?_) hkeyed.nodup_keys
    exact List.filter_sublist.trans List.filter_sublist
  have hlt : i < ((t.specsNamed names).map (·.key)).length := by
    rw [List.length_map]
    exact (List.getElem?_eq_some_iff.mp hm).1
  refine (List.getElem?_inj hlt hnodup).mp ?_
  rw [List.getElem?_map, List.getElem?_map, hm, hn, Option.map_some, Option.map_some, hkey]

end SpecExplorer.TestTree
