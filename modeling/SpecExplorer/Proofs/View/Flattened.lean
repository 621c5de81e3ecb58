/-
# One order for all views of a tree

The client is shown a tree as items within items, as symbols within symbols and as a row of lenses.
Flattened, all three show the nodes in the order of their numbers, which is also the order in which
a loop over a stack lists them. What lies below a node and what lies above it can be told from the
keys alone, and the one is the inverse of the other.
-/
import SpecExplorer.Proofs.Tree.Traversed
import SpecExplorer.View.Lens
import SpecExplorer.View.Symbol

namespace SpecExplorer

/-! ### Flattened views -/

namespace TreeItem

mutual

/-- What is shown of an item and then of all within it. -/
def infos : TreeItem → List ItemInfo
  | .node info children => info :: infosAll children

def infosAll : List TreeItem → List ItemInfo
  | [] => []
  | item :: rest => infos item ++ infosAll rest

end

mutual

theorem infos_ofTree : ∀ t : TestTree, (ofTree t).infos = t.nodes.map .ofNode
  | .node info children => by
      rw [ofTree, infos, infosAll_ofForest, TestTree.nodes, List.map_cons]

theorem infosAll_ofForest :
    ∀ ts : List TestTree, infosAll (ofForest ts) = (TestTree.forestNodes ts).map .ofNode
  | [] => rfl
  | t :: rest => by
      rw [ofForest, infosAll, infos_ofTree, infosAll_ofForest, TestTree.forestNodes,
        List.map_append]

end

end TreeItem

namespace DocumentSymbol

mutual

/-- What is shown of a symbol and then of all within it. -/
def infos : DocumentSymbol → List SymbolInfo
  | .node info children => info :: infosAll children

def infosAll : List DocumentSymbol → List SymbolInfo
  | [] => []
  | s :: rest => infos s ++ infosAll rest

end

mutual

theorem infos_ofTree : ∀ t : TestTree, (ofTree t).infos = t.nodes.map .ofNode
  | .node info children => by
      rw [ofTree, infos, infosAll_ofForest, TestTree.nodes, List.map_cons]

theorem infosAll_ofForest :
    ∀ ts : List TestTree, infosAll (ofForest ts) = (TestTree.forestNodes ts).map .ofNode
  | [] => rfl
  | t :: rest => by
      rw [ofForest, infosAll, infos_ofTree, infosAll_ofForest, TestTree.forestNodes,
        List.map_append]

end

end DocumentSymbol

namespace Lens

theorem isSome_ofNode? {n : TestNode} : (ofNode? n).isSome ↔ n.kind ≠ .root := by
  rw [ofNode?, Option.isSome_map]
  cases n.kind <;> simp [base?]

end Lens

namespace TestTree

/-- All ways to go through a tree agree with its keys and with each other. -/
structure ViewsAgree (t : TestTree) : Prop where
  /-- From any node the loop over a stack ends. It lists, each once and with ascending numbers, the
  nodes whose keys extend that of the node, and they are the nodes of the subtree. -/
  below : ∀ i n, t.arena.info? i = some n → ∃ ids s,
    t.arena.subtree? i = some ids ∧ ids.Pairwise (· < ·) ∧
      (∀ j, j ∈ ids ↔ ∃ m, t.arena.info? j = some m ∧ n.key.covers m.key) ∧
      t.find? n.key = some s ∧ ids.map t.arena.info? = s.nodes.map some
  /-- From any node the way up ends. It lists the nodes whose keys are proper prefixes of the key
  of the node, longer ones first, and they are the ancestors in the tree. -/
  above : ∀ i n, t.arena.info? i = some n → ∃ ids ns,
    t.arena.ancestors? i = some ids ∧
      (∀ j, j ∈ ids ↔ ∃ m, t.arena.info? j = some m ∧ m.key.covers n.key ∧ m.key ≠ n.key) ∧
      t.ancestors? n.key = some ns ∧ ids.map t.arena.info? = ns.map some ∧
      ns.Pairwise fun m m' => m'.key.depth < m.key.depth
  /-- Every prefix of a node's key is the key of a node. -/
  prefixes : ∀ n ∈ t.nodes, ∀ key : NodeKey, key.covers n.key → t.contains key
  /-- A node is below another if it is the same or has it above itself. -/
  inverse : ∀ i j m n below above, t.arena.info? i = some m → t.arena.info? j = some n →
    t.arena.subtree? i = some below → t.arena.ancestors? j = some above →
    (j ∈ below ↔ j = i ∨ i ∈ above)
  /-- The item of a node shows what the loop lists, in the same order. -/
  item : ∀ i n ids s, t.arena.info? i = some n → t.arena.subtree? i = some ids →
    t.find? n.key = some s →
      (TreeItem.ofTree s).infos.map some = ids.map fun j => (t.arena.info? j).map ItemInfo.ofNode
  /-- Lenses and symbols show what the loop lists from the file on, in the same order, but not the
  file. -/
  file : ∃ ids, t.arena.subtree? 0 = some (0 :: ids) ∧
    (Lens.ofTree t true).map some = ids.map (fun j => (t.arena.info? j).bind Lens.ofNode?) ∧
    (DocumentSymbol.infosAll (DocumentSymbol.ofDocument t)).map some =
      ids.map fun j => (t.arena.info? j).map SymbolInfo.ofNode

/-- What is made of the nodes with some numbers is made of the numbers one by one. -/
theorem map_bind_info? {α : Type} {a : Arena} {ids : List Nat} {ns : List TestNode}
    (h : ids.map a.info? = ns.map some) (f : TestNode → Option α) :
    ids.map (fun j => (a.info? j).bind f) = ns.map f := by
  simpa [Function.comp_def] using congrArg (List.map (Option.bind · f)) h

theorem map_map_info? {α : Type} {a : Arena} {ids : List Nat} {ns : List TestNode}
    (h : ids.map a.info? = ns.map some) (f : TestNode → α) :
    ids.map (fun j => (a.info? j).map f) = (ns.map f).map some := by
  simpa [Function.comp_def] using congrArg (List.map (Option.map f)) h

/-! ### From the keys -/

section Agree

variable {t s : TestTree} {place : List Nat}

/-- The loop over a stack, started at the root, comes to all else after it. -/
theorem exists_subtree?_zero (info : TestNode) (children : List TestTree) :
    ∃ ids, (node info children).arena.subtree? 0 = some (0 :: ids) ∧
      ids.map (node info children).arena.info? = (forestNodes children).map some := by
  have hat : (node info children).at? [] = some (node info children) := rfl
  have hblock : (node info children).block [] (node info children) =
      0 :: List.range' 1 (children.map size).sum := by
    rw [block, number_nil, size_node, Nat.add_comm 1, List.range'_succ]
  have hinfos := map_info?_block hat
  rw [hblock, nodes, List.map_cons, List.map_cons] at hinfos
  exact ⟨_, (subtree?_number hat).trans (congrArg some hblock), List.tail_eq_of_cons_eq hinfos⟩

/-- Lenses stand for all nodes but the file. -/
theorem map_some_lenses {info : TestNode} {children : List TestTree} (hfile : info.kind = .root)
    (hbelow : ∀ n ∈ forestNodes children, n.kind ≠ .root) :
    (Lens.ofTree (node info children) true).map some =
      (forestNodes children).map Lens.ofNode? := by
  have hnone : Lens.ofNode? info = none := by
    rw [← Option.not_isSome_iff_eq_none, Lens.isSome_ofNode?, not_not]
    exact hfile
  have hsome : ∀ l? ∈ (forestNodes children).map Lens.ofNode?, l?.isSome = true := by
    intro l? hl
    obtain ⟨n, hn, rfl⟩ := List.mem_map.mp hl
    exact Lens.isSome_ofNode?.mpr (hbelow n hn)
  rw [Lens.ofTree, if_pos rfl, nodes, List.filterMap_cons_none hnone,
    List.map_filterMap_some_eq_filter_map_isSome, List.filter_eq_self.mpr hsome]

theorem Keyed.kind_ne_root_of_mem_forestNodes {info : TestNode} {children : List TestTree}
    (hkeyed : (node info children).Keyed) (hroot : info.key = .root)
    (hkind : ∀ n ∈ (node info children).nodes, n.kind = .root ↔ n.key = .root) {n : TestNode}
    (hn : n ∈ forestNodes children) : n.kind ≠ .root := by
  intro hfile
  have hkey : n.key = info.key := ((hkind n (List.mem_cons_of_mem _ hn)).mp hfile).trans hroot.symm
  have hnodup := hkeyed.nodup_keys
  rw [keys, nodes, List.map_cons, List.nodup_cons] at hnodup
  exact hnodup.1 (hkey ▸ List.mem_map_of_mem hn)

/-- Where keys are as an outline gives them and the file alone is a root, all views agree. -/
theorem Keyed.viewsAgree (hkeyed : t.Keyed) (hroot : t.key = .root)
    (hkind : ∀ n ∈ t.nodes, n.kind = .root ↔ n.key = .root) : t.ViewsAgree where
  below i n hi := by
    obtain ⟨place, s, hs, rfl, rfl⟩ := exists_place_of_info? hi
    refine ⟨_, s, subtree?_number hs, List.pairwise_lt_range', hkeyed.mem_block_iff_covers hs,
      hkeyed.find?_key (mem_subtrees_of_at? hs), map_info?_block hs⟩
  above i n hi := by
    obtain ⟨place, s, hs, rfl, rfl⟩ := exists_place_of_info? hi
    obtain ⟨ns, hns, hinfos⟩ := hkeyed.exists_ancestors? hs
    refine ⟨_, ns, ancestors?_number hs, hkeyed.mem_above_iff_covers hs, hns,
      (map_info?_above hs).trans hinfos, hkeyed.pairwise_above hinfos⟩
  prefixes n hn key hcovers := by
    obtain ⟨s, hs, rfl⟩ := mem_nodes.mp hn
    exact hkeyed.contains_above hroot hs hcovers
  inverse i j m n below above hi hj hbelow habove := by
    obtain ⟨p, s, hs, rfl, rfl⟩ := exists_place_of_info? hi
    obtain ⟨q, r, hr, rfl, rfl⟩ := exists_place_of_info? hj
    obtain rfl := Option.some.inj ((subtree?_number hs).symm.trans hbelow)
    obtain rfl := Option.some.inj ((ancestors?_number hr).symm.trans habove)
    exact mem_block_iff_mem_above hs hr
  item i n ids s hi hids hs := by
    obtain ⟨place, r, hr, rfl, rfl⟩ := exists_place_of_info? hi
    obtain rfl := Option.some.inj ((subtree?_number hr).symm.trans hids)
    obtain rfl := Option.some.inj ((hkeyed.find?_key (mem_subtrees_of_at? hr)).symm.trans hs)
    rw [TreeItem.infos_ofTree, map_map_info? (map_info?_block hr)]
  file := by
    cases t with
    | node info children =>
        obtain ⟨ids, hids, hinfos⟩ := exists_subtree?_zero info children
        have hfile : info.kind = .root := (hkind info List.mem_cons_self).mpr hroot
        have hbelow : ∀ n ∈ forestNodes children, n.kind ≠ .root :=
          fun n => hkeyed.kind_ne_root_of_mem_forestNodes hroot hkind
        refine ⟨ids, hids, ?_, ?_⟩
        · rw [map_some_lenses hfile hbelow, map_bind_info? hinfos]
        · rw [DocumentSymbol.ofDocument, children_node, DocumentSymbol.infosAll_ofForest,
            map_map_info? hinfos]

end Agree

/-- In a tree with the frame of an outline's tree, only the file is a root. -/
theorem kind_eq_root_iff_of_frame {t : TestTree} {previous : Option TestTree} {o : Outline}
    {name : String} (hframe : t.frame = (ofOutline previous o name).frame) {n : TestNode}
    (hn : n ∈ t.nodes) : n.kind = .root ↔ n.key = .root := by
  have hbare : n.bare ∈ (ofOutline previous o name).nodes.map TestNode.bare := by
    rw [← nodes_frame, ← hframe, nodes_frame]
    exact List.mem_map_of_mem hn
  obtain ⟨m, hm, heq⟩ := List.mem_map.mp hbare
  obtain ⟨s, hs, rfl⟩ := mem_nodes.mp hm
  rw [← TestNode.kind_eq_of_bare_eq heq, ← TestNode.key_eq_of_bare_eq heq]
  exact kind_eq_root_iff hs

/-- In the tree of any outline, and whatever runs and clicks have done to it since, the loop over a
stack, the way from parent to parent, the prefixes of keys and the flattened items, symbols and
lenses all tell the same. The arena that the loops go through is, right after the merge, the one
that is filled from the outline node by node. -/
theorem views_of_tree_agree (previous : Option TestTree) (o : Outline) (name : String)
    (ops : List TreeOperation) :
    (merge previous o name).1.arena = .ofOutline previous o name ∧
      (TreeOperation.performAll (merge previous o name).1 ops).ViewsAgree := by
  have hframe := TreeOperation.performAll_frame (merge previous o name).1 ops
  have hkeyed := (ofOutline_keyed previous o name).of_frame_eq hframe
  have hroot := (key_eq_of_frame_eq hframe).trans (ofOutline_key previous o name)
  exact ⟨(Arena.ofOutline_eq_arena previous o name).symm,
    hkeyed.viewsAgree hroot fun n hn => kind_eq_root_iff_of_frame hframe hn⟩

end TestTree

end SpecExplorer
