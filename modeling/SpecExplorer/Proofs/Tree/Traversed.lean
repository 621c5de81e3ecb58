/-
# Traversing an arena

In an arena, all below a node is listed by a loop over a stack, and all above it by going from
parent to parent. Nothing in the shape of an arena makes such a loop end. In the arena of a tree
both do, in no more rounds than there are nodes: what the loop over a stack owes to a node on it is
the block of numbers that belongs to the node's subtree, and the way up passes the places above the
node's own. As a place lies below another just when its key extends the key there, both lists can
be read off the keys.
-/
import Mathlib.Data.List.Induction
import SpecExplorer.Proofs.Tree.Mirrored

namespace SpecExplorer

namespace Arena

/-- What is known of the node with a number. -/
def info? (a : Arena) (i : Nat) : Option TestNode := a.nodes[i]?.map (·.info)

/-- Lists the nodes on a stack and all below them, the last on the stack first, in so many rounds. A
node that is listed leaves its children on the stack, the first of them on top. There is no answer
if there is still something on the stack at the end, or if it names a node that there is not. -/
def visit (a : Arena) (rounds : Nat) (out stack : List Nat) : Option (List Nat) :=
  match stack.getLast?, rounds with
  | none, _ => some out
  | some _, 0 => none
  | some i, rounds + 1 => do
    let n ← a.nodes[i]?
    visit a rounds (out ++ [i]) (stack.dropLast ++ n.children.reverse)

/-- A node and all below it. A round for every node that there is should do. -/
def subtree? (a : Arena) (i : Nat) : Option (List Nat) := a.visit a.nodes.length [] [i]

/-- Lists a node, if there is one, and all above it, in so many rounds. There is no answer if the
top is not reached, or if a node names a parent that there is not. -/
def climb (a : Arena) (rounds : Nat) (out : List Nat) : Option Nat → Option (List Nat)
  | none => some out
  | some i =>
    match rounds with
    | 0 => none
    | rounds + 1 => do
      let n ← a.nodes[i]?
      climb a rounds (out ++ [i]) n.parent

/-- All above a node, nearest first. A round for every node that there is should do. -/
def ancestors? (a : Arena) (i : Nat) : Option (List Nat) := do
  let n ← a.nodes[i]?
  a.climb a.nodes.length [] n.parent

/-- A node on top of the stack takes a number of rounds. They list as many numbers, from the node's
own on, before the loop comes to what else is on the stack. -/
def VisitsBlock (a : Arena) (i size : Nat) : Prop :=
  ∀ rounds out stack, a.visit (rounds + size) out (stack ++ [i]) =
    a.visit rounds (out ++ List.range' i size) stack

/-! ### One round of a loop -/

theorem visit_nil (a : Arena) (rounds : Nat) (out : List Nat) :
    a.visit rounds out [] = some out := by
  cases rounds <;> rfl

theorem climb_none (a : Arena) (rounds : Nat) (out : List Nat) :
    a.climb rounds out none = some out := by
  cases rounds <;> rfl

section Round

variable {a : Arena} {i : Nat} {n : ArenaNode} (h : a.nodes[i]? = some n) (rounds : Nat)
  (out : List Nat)

include h

theorem visit_concat (stack : List Nat) :
    a.visit (rounds + 1) out (stack ++ [i]) =
      a.visit rounds (out ++ [i]) (stack ++ n.children.reverse) := by
  rw [visit.eq_def, List.getLast?_concat, List.dropLast_concat]
  simp only [h, Option.bind_eq_bind, Option.bind_some]

theorem climb_some :
    a.climb (rounds + 1) out (some i) = a.climb rounds (out ++ [i]) n.parent := by
  rw [climb, h]
  rfl

end Round

end Arena

namespace TestTree

variable {t s r c : TestTree} {place : List Nat}

theorem info?_number (h : t.at? place = some s) : t.arena.info? (t.number place) = some s.info := by
  rw [Arena.info?, getElem?_arena h]
  rfl

theorem exists_place_of_info? {i : Nat} {n : TestNode} (h : t.arena.info? i = some n) :
    ∃ place s, t.at? place = some s ∧ t.number place = i ∧ s.info = n := by
  obtain ⟨node, hnode, rfl⟩ := Option.map_eq_some_iff.mp h
  obtain ⟨place, s, hs, rfl⟩ := exists_place hnode
  rw [getElem?_arena hs] at hnode
  exact ⟨place, s, hs, rfl, congrArg ArenaNode.info (Option.some.inj hnode)⟩

/-! ### The loop over a stack -/

/-- The numbers of a node and all below it. -/
def block (t : TestTree) (place : List Nat) (s : TestTree) : List Nat :=
  List.range' (t.number place) s.size

/-- Siblings on the stack, the first of them on top, are listed one block after the other. -/
theorem visit_numbers {a : Arena} {ts : List TestTree} {first : Nat}
    (hvisits : ∀ k c, ts[k]? = some c → a.VisitsBlock (first + sizeBefore ts k) c.size)
    (rounds : Nat) (out stack : List Nat) :
    a.visit (rounds + (ts.map size).sum) out (stack ++ (numbers first ts).reverse) =
      a.visit rounds (out ++ List.range' first (ts.map size).sum) stack := by
  induction ts generalizing first out with
  | nil => simp [numbers]
  | cons t rest ih =>
      have hfirst : a.VisitsBlock first t.size := hvisits 0 t rfl
      have hrest : ∀ k c, rest[k]? = some c →
          a.VisitsBlock (first + t.size + sizeBefore rest k) c.size := by
        intro k c hc
        rw [Nat.add_assoc, ← sizeBefore_succ]
        exact hvisits (k + 1) c hc
      have hrounds : rounds + (t.size + (rest.map size).sum) =
          rounds + (rest.map size).sum + t.size := by omega
      rw [numbers, List.reverse_cons, ← List.append_assoc, List.map_cons, List.sum_cons, hrounds,
        hfirst, ih hrest, List.append_assoc, List.range'_append_1]

/-- The block of a node is that of its subtree. -/
theorem visitsBlock_number (h : t.at? place = some s) :
    t.arena.VisitsBlock (t.number place) s.size := by
  -- By induction on the subtree: whatever is on the stack stays under its children until these
  -- have been listed.
  induction s generalizing place with
  | node info children ih =>
      have hchildren : ∀ k c, children[k]? = some c →
          t.arena.VisitsBlock (t.number place + 1 + sizeBefore children k) c.size := by
        intro k c hc
        have hchild := ih c (List.mem_of_getElem? hc) (at?_concat h hc)
        rwa [number_append_singleton h hc, children_node] at hchild
      intro rounds out stack
      rw [size_node, Nat.add_comm 1, ← Nat.add_assoc, Arena.visit_concat (getElem?_arena h),
        children_node, visit_numbers hchildren, List.append_assoc, List.range'_succ]
      rfl

/-- The loop over a stack ends. -/
theorem subtree?_number (h : t.at? place = some s) :
    t.arena.subtree? (t.number place) = some (t.block place s) := by
  have hsize : s.size ≤ t.arena.nodes.length := by
    rw [length_arena]
    exact Nat.le_of_add_left_le (number_add_size_le h)
  have hvisits := visitsBlock_number h (t.arena.nodes.length - s.size) [] []
  rw [Nat.sub_add_cancel hsize] at hvisits
  exact hvisits.trans (Arena.visit_nil _ _ _)

theorem mem_block_iff (h : t.at? place = some s) {j : Nat} :
    j ∈ t.block place s ↔ ∃ rest r, s.at? rest = some r ∧ t.number (place ++ rest) = j := by
  rw [block, List.mem_range'_1]
  constructor
  · rintro ⟨hle, hlt⟩
    have hbelow : j - t.number place < s.size := by omega
    obtain ⟨rest, r, hr, hnumber⟩ := exists_number_eq hbelow
    refine ⟨rest, r, hr, ?_⟩
    rw [number_append h, hnumber]
    omega
  · rintro ⟨rest, r, hr, rfl⟩
    have hlt := number_lt_size hr
    rw [number_append h]
    omega

/-- The nodes of a block are those of the subtree, in its order. -/
theorem map_info?_block (h : t.at? place = some s) :
    (t.block place s).map t.arena.info? = s.nodes.map some := by
  refine List.ext_getElem? fun m => ?_
  rw [List.getElem?_map, List.getElem?_map, block]
  by_cases hm : m < s.size
  · obtain ⟨rest, r, hr, rfl⟩ := exists_number_eq hm
    have hnode : s.nodes[s.number rest]? = some r.info := by
      rw [← map_info_arena, List.getElem?_map, getElem?_arena hr]
      rfl
    rw [List.getElem?_range' hm, Nat.one_mul, ← number_append h, hnode, Option.map_some,
      info?_number ((at?_append_of_at? h rest).trans hr), Option.map_some]
  · have hbeyond : s.nodes.length ≤ m := Nat.le_of_not_lt hm
    rw [List.getElem?_eq_none hbeyond, List.getElem?_eq_none (by rwa [List.length_range'])]
    rfl

/-! ### The way up -/

/-- The places above a place, nearest first. -/
def placesAbove : List Nat → List (List Nat)
  | [] => []
  | i :: rest => (placesAbove rest).map (i :: ·) ++ [[]]

theorem placesAbove_concat (above : List Nat) (k : Nat) :
    placesAbove (above ++ [k]) = above :: placesAbove above := by
  induction above with
  | nil => rfl
  | cons i rest ih =>
      rw [List.cons_append, placesAbove, ih, List.map_cons, List.cons_append, placesAbove]

theorem mem_placesAbove_iff {p q : List Nat} :
    q ∈ placesAbove p ↔ ∃ k rest, p = q ++ k :: rest := by
  induction p generalizing q with
  | nil => simp [placesAbove]
  | cons i p ih => cases q <;> simp [placesAbove, ih, and_comm, eq_comm]

theorem pairwise_placesAbove (p : List Nat) :
    (placesAbove p).Pairwise fun q r => r.length < q.length := by
  induction p using List.reverseRecOn with
  | nil => exact List.Pairwise.nil
  | append_singleton above k ih =>
      rw [placesAbove_concat]
      refine List.pairwise_cons.mpr ⟨fun q hq => ?_, ih⟩
      obtain ⟨j, rest, rfl⟩ := mem_placesAbove_iff.mp hq
      rw [List.length_append, List.length_cons]
      omega

/-- From the parent of the node at a place, the way leads up through the places above. -/
theorem climb_parent (h : t.at? place = some s) (rounds : Nat) (out : List Nat) :
    t.arena.climb (rounds + place.length) out
        (if place = [] then none else some (t.number place.dropLast)) =
      some (out ++ (placesAbove place).map t.number) := by
  induction place using List.reverseRecOn generalizing s out with
  | nil => rw [if_pos rfl, Arena.climb_none, placesAbove, List.map_nil, List.append_nil]
  | append_singleton above k ih =>
      obtain ⟨r, hr, -⟩ := exists_at?_of_append h
      rw [if_neg (by simp), List.dropLast_concat, List.length_append, List.length_singleton,
        ← Nat.add_assoc, Arena.climb_some (getElem?_arena hr), ih hr, placesAbove_concat,
        List.map_cons, List.append_assoc]
      rfl

theorem length_le_number (h : t.at? place = some s) : place.length ≤ t.number place := by
  induction place generalizing t with
  | nil => exact Nat.le_refl 0
  | cons i rest ih =>
      obtain ⟨c, hc, hs⟩ := Option.bind_eq_some_iff.mp h
      have hrest := ih hs
      rw [number_cons hc, List.length_cons]
      omega

/-- The way up ends. -/
theorem ancestors?_number (h : t.at? place = some s) :
    t.arena.ancestors? (t.number place) = some ((placesAbove place).map t.number) := by
  have hlength : place.length ≤ t.arena.nodes.length := by
    rw [length_arena]
    exact Nat.le_of_lt (Nat.lt_of_le_of_lt (length_le_number h) (number_lt_size h))
  have hclimb := climb_parent h (t.arena.nodes.length - place.length) []
  rw [Nat.sub_add_cancel hlength] at hclimb
  rw [Arena.ancestors?, getElem?_arena h]
  exact hclimb

example : (merge none .cart "cart_test.go").1.arena.subtree? 1 = some [1, 2, 3, 4, 5, 6] ∧
    (merge none .cart "cart_test.go").1.arena.ancestors? 6 = some [5, 1, 0] := by
  decide +kernel

/-- A node is below another exactly if it is the same or has the other above it. -/
theorem mem_block_iff_mem_above {p q : List Nat} (hp : t.at? p = some s) (hq : t.at? q = some r) :
    t.number q ∈ t.block p s ↔
      t.number q = t.number p ∨ t.number p ∈ (placesAbove q).map t.number := by
  rw [mem_block_iff hp, List.mem_map]
  constructor
  · rintro ⟨rest, r', hr', hnumber⟩
    obtain rfl := place_eq_of_number_eq ((at?_append_of_at? hp rest).trans hr') hq hnumber
    cases rest with
    | nil => exact .inl (by rw [List.append_nil])
    | cons k rest => exact .inr ⟨p, mem_placesAbove_iff.mpr ⟨k, rest, rfl⟩, rfl⟩
  · rintro (heq | ⟨above, habove, hnumber⟩)
    · exact ⟨[], s, rfl, by rw [List.append_nil, heq]⟩
    · obtain ⟨k, rest, rfl⟩ := mem_placesAbove_iff.mp habove
      obtain ⟨u, hu, -⟩ := exists_at?_of_append hq
      obtain rfl := place_eq_of_number_eq hu hp hnumber
      exact ⟨k :: rest, r, (at?_append_of_at? hp _).symm.trans hq, rfl⟩

theorem map_info?_above (h : t.at? place = some s) :
    ((placesAbove place).map t.number).map t.arena.info? =
      (placesAbove place).map fun q => (t.at? q).map info := by
  rw [List.map_map]
  refine List.map_congr_left fun q hq => ?_
  obtain ⟨k, rest, rfl⟩ := mem_placesAbove_iff.mp hq
  obtain ⟨r, hr, -⟩ := exists_at?_of_append h
  rw [hr]
  exact info?_number hr

/-! ### What the keys say -/

namespace Keyed

variable (hkeyed : t.Keyed)

include hkeyed

theorem number_eq_of_key_eq {p q : List Nat} (hp : t.at? p = some s) (hq : t.at? q = some r)
    (hkey : s.key = r.key) : t.number p = t.number q := by
  have hs := (get?_index_iff hkeyed.nodup_keys).mpr ⟨_, getElem?_arena hp, hkey⟩
  have hr := (get?_index_iff hkeyed.nodup_keys).mpr ⟨_, getElem?_arena hq, rfl⟩
  exact Option.some.inj (hs.symm.trans hr)

/-- A place is at or below another exactly if its key extends the key there. -/
theorem covers_iff_exists_append {p q : List Nat} (hp : t.at? p = some s)
    (hq : t.at? q = some r) : s.key.covers r.key ↔ ∃ rest, q = p ++ rest := by
  constructor
  · intro hcovers
    have hr := hkeyed.mem_subtrees_of_covers (mem_subtrees_of_at? hp) (mem_subtrees_of_at? hq)
      hcovers
    obtain ⟨rest, hrest⟩ := mem_subtrees_iff_exists_at?.mp hr
    have hat := (at?_append_of_at? hp rest).trans hrest
    exact ⟨rest, place_eq_of_number_eq hq hat (hkeyed.number_eq_of_key_eq hq hat rfl)⟩
  · rintro ⟨rest, rfl⟩
    rw [at?_append_of_at? hp] at hq
    exact (hkeyed.of_mem_subtrees (mem_subtrees_of_at? hp)).covers_of_mem_subtrees
      (mem_subtrees_of_at? hq)

theorem depth_at? (h : t.at? place = some s) : s.key.depth = t.key.depth + place.length := by
  induction place generalizing t with
  | nil =>
      obtain rfl := Option.some.inj h
      rfl
  | cons i rest ih =>
      obtain ⟨c, hc, hs⟩ := Option.bind_eq_some_iff.mp h
      have hmem := List.mem_of_getElem? hc
      rw [ih (hkeyed.of_mem_children hmem) hs, hkeyed.depth_of_mem_children hmem,
        List.length_cons]
      omega

theorem mem_block_iff_covers (h : t.at? place = some s) (j : Nat) :
    j ∈ t.block place s ↔ ∃ m, t.arena.info? j = some m ∧ s.key.covers m.key := by
  rw [mem_block_iff h]
  constructor
  · rintro ⟨rest, r, hr, rfl⟩
    have hat := (at?_append_of_at? h rest).trans hr
    exact ⟨r.info, info?_number hat, (hkeyed.covers_iff_exists_append h hat).mpr ⟨rest, rfl⟩⟩
  · rintro ⟨m, hm, hcovers⟩
    obtain ⟨q, r, hr, rfl, rfl⟩ := exists_place_of_info? hm
    obtain ⟨rest, rfl⟩ := (hkeyed.covers_iff_exists_append h hr).mp hcovers
    exact ⟨rest, r, (at?_append_of_at? h rest).symm.trans hr, rfl⟩

theorem mem_above_iff_covers (h : t.at? place = some s) (j : Nat) :
    j ∈ (placesAbove place).map t.number ↔
      ∃ m, t.arena.info? j = some m ∧ m.key.covers s.key ∧ m.key ≠ s.key := by
  rw [List.mem_map]
  constructor
  · rintro ⟨q, hq, rfl⟩
    obtain ⟨k, rest, rfl⟩ := mem_placesAbove_iff.mp hq
    obtain ⟨r, hr, -⟩ := exists_at?_of_append h
    refine ⟨r.info, info?_number hr, (hkeyed.covers_iff_exists_append hr h).mpr ⟨_, rfl⟩, ?_⟩
    intro hkey
    have hdepth : r.key.depth = s.key.depth := congrArg NodeKey.depth hkey
    rw [hkeyed.depth_at? hr, hkeyed.depth_at? h, List.length_append, List.length_cons] at hdepth
    omega
  · rintro ⟨m, hm, hcovers, hne⟩
    obtain ⟨q, r, hr, rfl, rfl⟩ := exists_place_of_info? hm
    obtain ⟨rest, rfl⟩ := (hkeyed.covers_iff_exists_append hr h).mp hcovers
    cases rest with
    | nil =>
        rw [List.append_nil, hr] at h
        exact absurd (congrArg key (Option.some.inj h)) hne
    | cons k rest => exact ⟨q, mem_placesAbove_iff.mpr ⟨k, rest, rfl⟩, rfl⟩

end Keyed

/-! ### Ancestors in the tree -/

/-- A key that is in a child has the ancestors that it has there, and then the node itself. -/
theorem Keyed.ancestors?_of_mem_children {info : TestNode} {children : List TestTree}
    (hkeyed : (node info children).Keyed) (hc : c ∈ children) {key : NodeKey}
    (hkey : c.contains key) :
    (node info children).ancestors? key = (c.ancestors? key).map (· ++ [info]) := by
  have hne : info.key ≠ key := by
    rintro rfl
    obtain ⟨s, hs, heq⟩ := contains_iff.mp hkey
    exact absurd (congrArg NodeKey.depth heq) (Nat.ne_of_gt (hkeyed.depth_lt_of_mem_child hc hs))
  have hsome : (children.findSome? (TestTree.ancestors? key)).isSome :=
    List.findSome?_isSome_iff.mpr ⟨c, hc, (isSome_ancestors? key c).trans hkey⟩
  obtain ⟨above, habove⟩ := Option.isSome_iff_exists.mp hsome
  obtain ⟨d, hd, hfound⟩ := List.exists_of_findSome?_eq_some habove
  have hdkey : d.contains key := by rw [← isSome_ancestors?, hfound, Option.isSome_some]
  obtain rfl := hkeyed.eq_of_children_contain hd hc hdkey hkey
  rw [ancestors?_node, if_neg hne, habove, hfound]

/-- The ancestors of a node are the nodes at the places above. -/
theorem Keyed.exists_ancestors? (hkeyed : t.Keyed) (h : t.at? place = some s) :
    ∃ above, t.ancestors? s.key = some above ∧
      (placesAbove place).map (fun q => (t.at? q).map info) = above.map some := by
  induction place generalizing t with
  | nil =>
      obtain rfl := Option.some.inj h
      cases t
      exact ⟨[], (ancestors?_node ..).trans (if_pos rfl), rfl⟩
  | cons i rest ih =>
      obtain ⟨c, hc, hs⟩ := Option.bind_eq_some_iff.mp h
      cases t with
      | node info children =>
          have hmem : c ∈ children := List.mem_of_getElem? hc
          have hkey : c.contains s.key := contains_key (mem_subtrees_of_at? hs)
          obtain ⟨above, habove, hmap⟩ := ih (hkeyed.of_mem_children hmem) hs
          refine ⟨above ++ [info], ?_, ?_⟩
          · rw [hkeyed.ancestors?_of_mem_children hmem hkey, habove, Option.map_some]
          · rw [placesAbove, List.map_append, List.map_append, ← hmap, List.map_map]
            simp only [Function.comp_def, at?_cons, hc, Option.bind_some]
            rfl

/-- Nodes at the places above a place have shorter keys one after the other. -/
theorem Keyed.pairwise_above (hkeyed : t.Keyed) {above : List TestNode}
    (h : (placesAbove place).map (fun q => (t.at? q).map info) = above.map some) :
    above.Pairwise fun m m' => m'.key.depth < m.key.depth := by
  have hpairs : ((placesAbove place).map fun q => (t.at? q).map info).Pairwise
      fun m? m'? => ∀ m m', m? = some m → m'? = some m' → m'.key.depth < m.key.depth := by
    refine List.pairwise_map.mpr ((pairwise_placesAbove place).imp fun {q p} hlt => ?_)
    intro m m' hm hm'
    obtain ⟨s, hs, rfl⟩ := Option.map_eq_some_iff.mp hm
    obtain ⟨r, hr, rfl⟩ := Option.map_eq_some_iff.mp hm'
    calc r.key.depth = t.key.depth + p.length := hkeyed.depth_at? hr
      _ < t.key.depth + q.length := Nat.add_lt_add_left hlt _
      _ = s.key.depth := (hkeyed.depth_at? hs).symm
  rw [h, List.pairwise_map] at hpairs
  exact hpairs.imp fun hlt => hlt _ _ rfl rfl

end TestTree

end SpecExplorer
