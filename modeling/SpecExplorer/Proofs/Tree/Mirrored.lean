/-
# The arena of a tree mirrors the outline

Whatever the outline and whatever the tree before, a merge leaves an arena with a node for the file
and one for each node of the outline, numbered in the order of the source. Keys and numbers lead to
each other, and so do parents and children. Runs and clicks change nodes where they stand, so all
of this stays until the next merge.
-/
import SpecExplorer.Proofs.Run.Repeated
import SpecExplorer.Proofs.Tree.Numbered

namespace SpecExplorer

/-- The node as the outline has it, where it stands. -/
def ArenaNode.bare (n : ArenaNode) : ArenaNode := { n with info := n.info.bare }

namespace Arena

/-- The number that a place has, going down from a node through the lists of children. -/
def walk (a : Arena) (i : Nat) : List Nat → Option Nat
  | [] => some i
  | k :: rest => (a.nodes[i]?.bind (·.children[k]?)).bind (a.walk · rest)

/-- The arena with nothing known of runs and clicks. -/
def bare (a : Arena) : Arena := { a with nodes := a.nodes.map ArenaNode.bare }

/-- An arena is that of the file with an outline. -/
structure Mirrors (a : Arena) (o : Outline) (name : String) : Prop where
  /-- There is a node for the file and one for every node of the outline. -/
  size : a.nodes.length = o.size + 1
  /-- The places of the arena are those of the outline, with the file above them. -/
  places : ∀ place, (a.walk 0 place).isSome ↔ place = [] ∨ (o.locate? place).isSome
  /-- Every node stands at a place. -/
  reached : ∀ i < a.nodes.length, ∃ place, a.walk 0 place = some i
  /-- The numbers follow the order of the source, where a node comes before all that is in it. -/
  preorder : ∀ p q i j, a.walk 0 p = some i → a.walk 0 q = some j → (i < j ↔ p < q)
  /-- The first node is the file. -/
  file : ∃ n, a.nodes[0]? = some n ∧ n.info.bare = (TestNode.file name).bare
  /-- The node at a place is what the outline has there, under the key that this has. -/
  shown : ∀ place key m, o.locate? place = some (key, m) →
    ∃ i n, a.walk 0 place = some i ∧ a.nodes[i]? = some n ∧ n.info.bare = .ofOutline key m.info
  /-- No key comes twice. -/
  distinct : (a.nodes.map (·.info.key)).Nodup
  /-- Looking up a key leads to the node that has it, and to no other. -/
  found : ∀ key i, a.index.get? key = some i ↔ ∃ n, a.nodes[i]? = some n ∧ n.info.key = key
  /-- The file is in nothing. -/
  top : ∀ n, a.nodes[0]? = some n → n.parent = none
  /-- Every other node has a parent, which lists it once. -/
  child : ∀ i n, a.nodes[i]? = some n → 0 < i →
    ∃ (p : Nat) (m : ArenaNode), n.parent = some p ∧ a.nodes[p]? = some m ∧ m.children.count i = 1
  /-- What lists a node is its parent. -/
  parent : ∀ p m i, a.nodes[p]? = some m → i ∈ m.children →
    ∃ n : ArenaNode, a.nodes[i]? = some n ∧ n.parent = some p
  /-- Children are listed in the order of the source. -/
  ordered : ∀ n ∈ a.nodes, n.children.Pairwise (· < ·)

end Arena

namespace TestTree

open Arena

variable {t s c : TestTree} {place : List Nat}

/-! ### Sizes -/

section Size

variable {old? : NodeKey → Option TestNode}

theorem sum_size_ofOutlineNodes {ns : List OutlineNode}
    (h : ∀ n ∈ ns, ∀ key, (ofOutlineNode old? key n).size = n.count) (parent : NodeKey)
    (before : List String) :
    ((ofOutlineNodes old? parent before ns).map size).sum = OutlineNode.countAll ns := by
  induction ns generalizing before with
  | nil => rfl
  | cons n rest ih =>
      obtain ⟨hn, hrest⟩ := List.forall_mem_cons.mp h
      rw [ofOutlineNodes, List.map_cons, List.sum_cons, hn, ih hrest, OutlineNode.countAll]

theorem size_ofOutlineNode (key : NodeKey) (n : OutlineNode) :
    (ofOutlineNode old? key n).size = n.count := by
  induction n generalizing key with
  | node info children ih =>
      rw [ofOutlineNode, size_node, OutlineNode.count,
        sum_size_ofOutlineNodes fun c hc key => ih c hc key]

end Size

theorem size_ofOutline (previous : Option TestTree) (o : Outline) (name : String) :
    (ofOutline previous o name).size = o.size + 1 := by
  rw [ofOutline, size_node, sum_size_ofOutlineNodes fun n _ key => size_ofOutlineNode key n,
    Outline.size, Nat.add_comm]

theorem size_frame (t : TestTree) : t.frame.size = t.size := by
  rw [size, nodes_frame, List.length_map, size]

/-! ### Places -/

theorem at?_frame (t : TestTree) (place : List Nat) :
    t.frame.at? place = (t.at? place).map frame := by
  induction place generalizing t with
  | nil => rfl
  | cons i rest ih =>
      rw [at?_cons, at?_cons, children_frame, List.getElem?_map, Option.bind_map, Option.map_bind]
      exact congrArg _ (funext ih)

/-- What the outline says of the node at a place lies in the frame. -/
theorem map_bare_at? (t : TestTree) (place : List Nat) :
    (t.at? place).map (·.info.bare) = (t.frame.at? place).map info := by
  rw [at?_frame, Option.map_map]
  exact congrArg (Option.map · (t.at? place)) (funext fun s => (info_frame s).symm)

/-- Going down from the node at a place leads to the nodes at the places below it. -/
theorem walk_arena (h : t.at? place = some s) (rest : List Nat) :
    t.arena.walk (t.number place) rest =
      (s.at? rest).map fun _ => t.number (place ++ rest) := by
  induction rest generalizing place s with
  | nil => rw [List.append_nil, walk, at?_nil, Option.map_some]
  | cons i rest ih =>
      rw [walk, getElem?_arena h, Option.bind_some, getElem?_numbers, at?_cons]
      cases hc : s.children[i]? with
      | none => rfl
      | some c =>
          rw [Option.map_some, Option.bind_some, Option.bind_some,
            ← number_append_singleton h hc, ih (at?_concat h hc), List.append_assoc]
          rfl

theorem walk_root (t : TestTree) (place : List Nat) :
    t.arena.walk 0 place = (t.at? place).map fun _ => t.number place :=
  walk_arena (at?_nil t) place

theorem walk_eq_some_iff {i : Nat} :
    t.arena.walk 0 place = some i ↔ ∃ s, t.at? place = some s ∧ t.number place = i := by
  rw [walk_root, Option.map_eq_some_iff]

/-- Every node of the arena stands at a place. -/
theorem exists_place {i : Nat} {n : ArenaNode} (h : t.arena.nodes[i]? = some n) :
    ∃ place s, t.at? place = some s ∧ t.number place = i := by
  have hlt := (List.getElem?_eq_some_iff.mp h).1
  rw [length_arena] at hlt
  exact exists_number_eq hlt

/-! ### Parents and children -/

/-- Below the root, a node is a child of the node at the place above. -/
theorem exists_parent (h : t.at? place = some s) (hplace : place ≠ []) :
    ∃ above r k, t.at? above = some r ∧ r.children[k]? = some s ∧ place = above ++ [k] := by
  obtain ⟨above, k, rfl⟩ := List.eq_nil_or_concat place |>.resolve_left hplace
  rw [List.concat_eq_append] at h
  obtain ⟨r, hr, hs⟩ := exists_at?_of_append h
  exact ⟨above, r, k, hr, by simpa using hs, List.concat_eq_append⟩

/-- What the node at a place lists are the numbers of its children. -/
theorem getElem?_children (h : t.at? place = some s) (k : Nat) :
    (numbers (t.number place + 1) s.children)[k]? =
      s.children[k]?.map fun _ => t.number (place ++ [k]) := by
  rw [getElem?_numbers]
  cases hc : s.children[k]? with
  | none => rfl
  | some c => rw [Option.map_some, Option.map_some, number_append_singleton h hc]

theorem getElem?_arena_child (h : t.at? place = some s) {k : Nat} (hc : s.children[k]? = some c) :
    t.arena.nodes[t.number (place ++ [k])]? = some ⟨c.info, some (t.number place),
      numbers (t.number (place ++ [k]) + 1) c.children⟩ := by
  rw [getElem?_arena (at?_concat h hc), if_neg (by simp), List.dropLast_concat]

/-! ### The index -/

theorem map_key_arena (t : TestTree) : t.arena.nodes.map (·.info.key) = t.keys := by
  rw [keys, ← map_info_arena, List.map_map]
  rfl

/-- Where all keys are different, looking one up leads to the node that has it. -/
theorem get?_index_iff (h : t.keys.Nodup) {key : NodeKey} {i : Nat} :
    t.arena.index.get? key = some i ↔ ∃ n, t.arena.nodes[i]? = some n ∧ n.info.key = key := by
  have hindex : t.arena.index.keys.Nodup := by
    rwa [Table.keys, arena, List.zipIdx_map_fst]
  rw [Table.get?_eq_some_iff_mem hindex, arena, List.mem_zipIdx_iff_getElem?, ← map_key_arena,
    List.getElem?_map, Option.map_eq_some_iff]
  rfl

/-- Looking up a key in a tree is looking it up in its arena. -/
theorem node?_eq_arena (h : t.Keyed) (key : NodeKey) :
    t.node? key = (t.arena.index.get? key).bind fun i => t.arena.nodes[i]?.map (·.info) := by
  cases hindex : t.arena.index.get? key with
  | none =>
      rw [Option.bind_none, node?, Option.map_eq_none_iff, ← Option.not_isSome_iff_eq_none,
        find?_isSome_iff]
      rintro ⟨s, hs, rfl⟩
      obtain ⟨place, hplace⟩ := mem_subtrees_iff_exists_at?.mp hs
      have hfound := (get?_index_iff h.nodup_keys).mpr ⟨_, getElem?_arena hplace, rfl⟩
      rw [show s.info.key = s.key from rfl, hindex] at hfound
      cases hfound
  | some i =>
      obtain ⟨n, hn, rfl⟩ := (get?_index_iff h.nodup_keys).mp hindex
      obtain ⟨place, s, hs, rfl⟩ := exists_place hn
      rw [getElem?_arena hs] at hn
      obtain rfl := Option.some.inj hn
      rw [Option.bind_some, getElem?_arena hs, node?]
      exact congrArg (Option.map info) (h.find?_key (mem_subtrees_of_at? hs))

/-! ### Trees of outlines -/

section OfOutline

variable {previous : Option TestTree} {o : Outline} {name : String}
  (hframe : t.frame = (ofOutline previous o name).frame)

include hframe

theorem size_of_frame : t.size = o.size + 1 := by
  rw [← size_frame, hframe, size_frame, size_ofOutline]

/-- A tree of an outline has the places of the outline. -/
theorem isSome_at?_iff : (t.at? place).isSome ↔ place = [] ∨ (o.locate? place).isSome := by
  by_cases hplace : place = []
  · subst hplace
    exact iff_of_true rfl (.inl rfl)
  · have hsome : (t.at? place).isSome = ((ofOutline previous o name).at? place).isSome := by
      rw [← Option.isSome_map (f := frame), ← at?_frame, hframe, at?_frame, Option.isSome_map]
    rw [hsome, at?_ofOutline previous o name hplace, Option.isSome_map]
    simp [hplace]

/-- A node at a place of the outline is what the outline has there. -/
theorem bare_of_locate? {key : NodeKey} {m : OutlineNode} (hm : o.locate? place = some (key, m)) :
    ∃ s, t.at? place = some s ∧ s.info.bare = .ofOutline key m.info := by
  have hplace : place ≠ [] := by
    rintro rfl
    cases hm
  have hbare : (t.at? place).map (·.info.bare) = some (.ofOutline key m.info) := by
    rw [map_bare_at?, hframe, ← map_bare_at?, bare_at?_ofOutline hplace, hm, Option.map_some]
  exact Option.map_eq_some_iff.mp hbare

/-- Whatever has the frame of an outline's tree mirrors the outline. -/
theorem mirrors_arena : t.arena.Mirrors o name where
  size := by rw [length_arena, size_of_frame hframe]
  places place := by rw [walk_root, Option.isSome_map, isSome_at?_iff hframe]
  reached i hi := by
    rw [length_arena] at hi
    obtain ⟨place, s, hs, hnumber⟩ := exists_number_eq hi
    exact ⟨place, walk_eq_some_iff.mpr ⟨s, hs, hnumber⟩⟩
  preorder p q i j hi hj := by
    obtain ⟨s, hs, rfl⟩ := walk_eq_some_iff.mp hi
    obtain ⟨r, hr, rfl⟩ := walk_eq_some_iff.mp hj
    exact number_lt_number_iff hs hr
  file := by
    refine ⟨_, getElem?_arena (at?_nil t), ?_⟩
    rw [bare_info_eq_of_frame_eq hframe]
    exact TestNode.bare_carry _ _
  shown place key m hm := by
    obtain ⟨s, hs, hbare⟩ := bare_of_locate? hframe hm
    exact ⟨_, _, walk_eq_some_iff.mpr ⟨s, hs, rfl⟩, getElem?_arena hs, hbare⟩
  distinct := by
    rw [map_key_arena]
    exact ((ofOutline_keyed previous o name).of_frame_eq hframe).nodup_keys
  found key i := get?_index_iff ((ofOutline_keyed previous o name).of_frame_eq hframe).nodup_keys
  top n hn := by
    rw [← number_nil t, getElem?_arena (at?_nil t)] at hn
    exact (Option.some.inj hn) ▸ rfl
  child i n hn hi := by
    obtain ⟨place, s, hs, rfl⟩ := exists_place hn
    have hplace : place ≠ [] := by
      rintro rfl
      exact absurd hi (Nat.lt_irrefl _)
    obtain ⟨above, r, k, hr, hk, rfl⟩ := exists_parent hs hplace
    rw [getElem?_arena_child hr hk] at hn
    obtain rfl := Option.some.inj hn
    refine ⟨_, _, rfl, getElem?_arena hr, List.count_eq_one_of_mem ?_ ?_⟩
    · exact (pairwise_numbers _ _).imp Nat.ne_of_lt
    · exact List.mem_of_getElem? (by rw [getElem?_children hr, hk, Option.map_some])
  parent p m i hm hi := by
    obtain ⟨place, s, hs, rfl⟩ := exists_place hm
    rw [getElem?_arena hs] at hm
    obtain rfl := Option.some.inj hm
    obtain ⟨k, hk⟩ := List.mem_iff_getElem?.mp hi
    rw [getElem?_children hs] at hk
    obtain ⟨c, hc, rfl⟩ := Option.map_eq_some_iff.mp hk
    exact ⟨_, getElem?_arena_child hs hc, rfl⟩
  ordered n hn := by
    obtain ⟨i, hi⟩ := List.mem_iff_getElem?.mp hn
    obtain ⟨place, s, hs, rfl⟩ := exists_place hi
    rw [getElem?_arena hs] at hi
    obtain rfl := Option.some.inj hi
    exact pairwise_numbers _ _

end OfOutline

/-! ### What changes nodes where they stand -/

theorem numbers_frames (first : Nat) (ts : List TestTree) :
    numbers first (frames ts) = numbers first ts := by
  induction ts generalizing first with
  | nil => rfl
  | cons t rest ih => rw [frames, numbers, size_frame, ih, numbers]

mutual

theorem layout_frame (first : Nat) (parent : Option Nat) :
    ∀ t : TestTree, t.frame.layout first parent = (t.layout first parent).map ArenaNode.bare
  | .node info children => by
      rw [frame, layout, numbers_frames, layoutAll_frames, layout, List.map_cons]
      rfl

theorem layoutAll_frames (first parent : Nat) :
    ∀ ts : List TestTree, layoutAll first parent (frames ts) =
      (layoutAll first parent ts).map ArenaNode.bare
  | [] => rfl
  | t :: rest => by
      rw [frames, layoutAll, layout_frame, size_frame, layoutAll_frames, layoutAll,
        List.map_append]

end

theorem arena_frame (t : TestTree) : t.frame.arena = t.arena.bare := by
  have hkeys : t.frame.keys = t.keys := by
    rw [keys, nodes_frame, List.map_map]
    rfl
  rw [arena, layout_frame, hkeys]
  rfl

/-- The arena that is filled from an outline is that of the merged tree. It mirrors the outline,
and whatever runs and clicks do, it goes on to do so: no node is added or moved, and nothing of it
is changed but its result, its run and its expansion. Lookups by key go through the index. -/
theorem arena_mirrors_outline (previous : Option TestTree) (o : Outline) (name : String)
    (ops : List TreeOperation) :
    (merge previous o name).1.arena = .ofOutline previous o name ∧
      (TreeOperation.performAll (merge previous o name).1 ops).arena.Mirrors o name ∧
      (TreeOperation.performAll (merge previous o name).1 ops).arena.bare =
        (merge previous o name).1.arena.bare ∧
      ∀ key, (TreeOperation.performAll (merge previous o name).1 ops).node? key =
        ((TreeOperation.performAll (merge previous o name).1 ops).arena.index.get? key).bind
          fun i => (TreeOperation.performAll (merge previous o name).1 ops).arena.nodes[i]?.map
            (·.info) := by
  have hframe := TreeOperation.performAll_frame (merge previous o name).1 ops
  have hkeyed := (ofOutline_keyed previous o name).of_frame_eq hframe
  refine ⟨(ofOutline_eq_arena previous o name).symm, mirrors_arena hframe, ?_,
    node?_eq_arena hkeyed⟩
  rw [← arena_frame, hframe, arena_frame]

example : (Arena.ofOutline none .cart "cart_test.go").nodes.map (fun n => (n.parent, n.children)) =
    [(none, [1]), (some 0, [2, 3, 4, 5]), (some 1, []), (some 1, []), (some 1, []), (some 1, [6]),
      (some 5, [])] := by
  decide +kernel

end TestTree

end SpecExplorer
