/-
# Numbers and places

In an arena a node has a number, in a tree it has a place. The number of a place counts the nodes
that stand before it: those on the way to it, and all below their earlier children. It follows that
numbers go up with the order of places, that every number up to the size of the tree belongs to a
place, and what a node of the arena lists as its parent and its children.
-/
import Mathlib.Algebra.GroupWithZero.Nat
import SpecExplorer.Proofs.Tree.Arena
import SpecExplorer.Proofs.Tree.Placed

namespace SpecExplorer

namespace TestTree

/-! ### Sizes of forests -/

/-- How many nodes the siblings before an index have. -/
def sizeBefore (ts : List TestTree) (i : Nat) : Nat := ((ts.take i).map size).sum

theorem size_node (info : TestNode) (children : List TestTree) :
    (node info children).size = 1 + (children.map size).sum := by
  rw [size, nodes_node, List.length_cons, List.length_flatMap, Nat.add_comm]
  rfl

theorem size_pos (t : TestTree) : 0 < t.size := by
  cases t
  rw [size_node]
  omega

theorem sizeBefore_succ (t : TestTree) (rest : List TestTree) (i : Nat) :
    sizeBefore (t :: rest) (i + 1) = t.size + sizeBefore rest i := by
  rw [sizeBefore, List.take_succ_cons, List.map_cons, List.sum_cons, sizeBefore]

@[simp] theorem sizeBefore_zero (ts : List TestTree) : sizeBefore ts 0 = 0 := rfl

/-- A sibling and those before it have no more nodes than there are before a later index. -/
theorem sizeBefore_add_le {ts : List TestTree} {i j : Nat} {c : TestTree} (hc : ts[i]? = some c)
    (hlt : i < j) : sizeBefore ts i + c.size ≤ sizeBefore ts j := by
  induction ts generalizing i j with
  | nil => simp at hc
  | cons t rest ih =>
      cases j with
      | zero => exact absurd hlt (Nat.not_lt_zero i)
      | succ j =>
          rw [sizeBefore_succ]
          cases i with
          | zero =>
              obtain rfl := Option.some.inj hc
              rw [sizeBefore_zero, Nat.zero_add]
              exact Nat.le_add_right ..
          | succ i =>
              rw [sizeBefore_succ]
              have hrest := ih hc (Nat.lt_of_succ_lt_succ hlt)
              omega

theorem sizeBefore_length (ts : List TestTree) : sizeBefore ts ts.length = (ts.map size).sum := by
  rw [sizeBefore, List.take_length]

theorem sizeBefore_add_le_sum {ts : List TestTree} {i : Nat} {c : TestTree}
    (hc : ts[i]? = some c) : sizeBefore ts i + c.size ≤ (ts.map size).sum := by
  rw [← sizeBefore_length]
  exact sizeBefore_add_le hc (List.getElem?_eq_some_iff.mp hc).1

/-- Every node among siblings is a node of one of them. -/
theorem exists_sizeBefore {ts : List TestTree} {n : Nat} (h : n < (ts.map size).sum) :
    ∃ i c, ts[i]? = some c ∧ ∃ m < c.size, n = sizeBefore ts i + m := by
  induction ts generalizing n with
  | nil => exact absurd h (Nat.not_lt_zero n)
  | cons t rest ih =>
      by_cases ht : n < t.size
      · exact ⟨0, t, rfl, n, ht, (Nat.zero_add n).symm⟩
      · rw [List.map_cons, List.sum_cons] at h
        have hrest : n - t.size < (rest.map size).sum := by omega
        obtain ⟨i, c, hc, m, hm, heq⟩ := ih hrest
        refine ⟨i + 1, c, hc, m, hm, ?_⟩
        rw [sizeBefore_succ]
        omega

/-! ### The number of a place -/

/-- How many nodes stand before a place. -/
def number (t : TestTree) : List Nat → Nat
  | [] => 0
  | i :: rest => 1 + sizeBefore t.children i + t.children[i]?.elim 0 (number · rest)

variable {t s c : TestTree} {place : List Nat}

@[simp] theorem number_nil (t : TestTree) : t.number [] = 0 := rfl

theorem number_cons {i : Nat} (hc : t.children[i]? = some c) (rest : List Nat) :
    t.number (i :: rest) = 1 + sizeBefore t.children i + c.number rest := by
  rw [number, hc]
  rfl

/-- The nodes at and below a place have their numbers among those of the tree. -/
theorem number_add_size_le (h : t.at? place = some s) : t.number place + s.size ≤ t.size := by
  induction place generalizing t with
  | nil =>
      obtain rfl := Option.some.inj h
      exact Nat.le_of_eq (Nat.zero_add _)
  | cons i rest ih =>
      obtain ⟨c, hc, hs⟩ := Option.bind_eq_some_iff.mp h
      have hbelow := ih hs
      cases t with
      | node info children =>
          have hsum := sizeBefore_add_le_sum hc
          rw [number_cons hc, size_node]
          rw [children_node] at hsum ⊢
          omega

theorem number_lt_size (h : t.at? place = some s) : t.number place < t.size :=
  Nat.lt_of_lt_of_le (Nat.lt_add_of_pos_right s.size_pos) (number_add_size_le h)

/-- Numbers go up with the order of places. -/
theorem number_lt_number {p q : List Nat} {r : TestTree} (hp : t.at? p = some s)
    (hq : t.at? q = some r) (hlt : p < q) : t.number p < t.number q := by
  induction p generalizing t q with
  | nil =>
      cases q with
      | nil => exact absurd hlt (List.lt_irrefl _)
      | cons j q =>
          rw [number_nil, number]
          omega
  | cons i p ih =>
      cases q with
      | nil => exact absurd hlt (List.not_lt_nil _)
      | cons j q =>
          obtain ⟨c, hc, hp⟩ := Option.bind_eq_some_iff.mp hp
          obtain ⟨d, hd, hq⟩ := Option.bind_eq_some_iff.mp hq
          rw [number_cons hc, number_cons hd]
          rcases List.cons_lt_cons_iff.mp hlt with hij | ⟨rfl, hpq⟩
          · have hbelow := number_lt_size hp
            have hbefore := sizeBefore_add_le hc hij
            omega
          · obtain rfl := Option.some.inj (hc.symm.trans hd)
            exact Nat.add_lt_add_left (ih hp hq hpq) _

theorem number_lt_number_iff {p q : List Nat} {r : TestTree} (hp : t.at? p = some s)
    (hq : t.at? q = some r) : t.number p < t.number q ↔ p < q := by
  refine ⟨fun hlt => ?_, number_lt_number hp hq⟩
  by_contra hnot
  by_cases hqp : q < p
  · exact Nat.lt_asymm hlt (number_lt_number hq hp hqp)
  · obtain rfl : p = q := List.le_antisymm hqp hnot
    exact Nat.lt_irrefl _ hlt

theorem place_eq_of_number_eq {p q : List Nat} {r : TestTree} (hp : t.at? p = some s)
    (hq : t.at? q = some r) (h : t.number p = t.number q) : p = q := by
  have hpq : ¬ p < q := fun hlt => Nat.ne_of_lt (number_lt_number hp hq hlt) h
  have hqp : ¬ q < p := fun hlt => Nat.ne_of_gt (number_lt_number hq hp hlt) h
  exact List.le_antisymm hqp hpq

/-- Every number up to the size of the tree is that of a place. -/
theorem exists_number_eq {n : Nat} (h : n < t.size) :
    ∃ place s, t.at? place = some s ∧ t.number place = n := by
  induction t generalizing n with
  | node info children ih =>
      cases n with
      | zero => exact ⟨[], _, rfl, rfl⟩
      | succ n =>
          rw [size_node] at h
          have hbelow : n < (children.map size).sum := by omega
          obtain ⟨i, c, hc, m, hm, rfl⟩ := exists_sizeBefore hbelow
          obtain ⟨place, s, hs, rfl⟩ := ih c (List.mem_of_getElem? hc) hm
          refine ⟨i :: place, s, Option.bind_eq_some_iff.mpr ⟨c, hc, hs⟩, ?_⟩
          rw [number_cons hc, children_node]
          omega

theorem at?_append (p q : List Nat) : t.at? (p ++ q) = (t.at? p).bind fun s => s.at? q := by
  induction p generalizing t with
  | nil => rfl
  | cons i p ih =>
      rw [List.cons_append, at?_cons, at?_cons, Option.bind_assoc]
      exact congrArg _ (funext fun c => ih)

theorem exists_at?_of_append {p q : List Nat} (h : t.at? (p ++ q) = some s) :
    ∃ r, t.at? p = some r ∧ r.at? q = some s :=
  Option.bind_eq_some_iff.mp ((at?_append p q).symm.trans h)

theorem at?_append_of_at? (h : t.at? place = some s) (rest : List Nat) :
    t.at? (place ++ rest) = s.at? rest := by
  rw [at?_append, h, Option.bind_some]

theorem at?_concat (h : t.at? place = some s) {i : Nat} (hc : s.children[i]? = some c) :
    t.at? (place ++ [i]) = some c := by
  rw [at?_append_of_at? h, at?_cons, hc]
  rfl

/-- Below a node, numbers are counted from that of the node on. -/
theorem number_append (h : t.at? place = some s) (rest : List Nat) :
    t.number (place ++ rest) = t.number place + s.number rest := by
  induction place generalizing t with
  | nil =>
      obtain rfl := Option.some.inj h
      exact (Nat.zero_add _).symm
  | cons i above ih =>
      obtain ⟨d, hd, hs⟩ := Option.bind_eq_some_iff.mp h
      rw [List.cons_append, number_cons hd, number_cons hd, ih hs, ← Nat.add_assoc]

/-- The children of a node come after it, each after all below the earlier ones. -/
theorem number_append_singleton (h : t.at? place = some s) {i : Nat}
    (hc : s.children[i]? = some c) :
    t.number (place ++ [i]) = t.number place + 1 + sizeBefore s.children i := by
  rw [number_append h, number_cons hc, number_nil, Nat.add_zero, Nat.add_assoc]

/-! ### Nodes of an arena by their places -/

theorem getElem?_numbers (first : Nat) (ts : List TestTree) (i : Nat) :
    (numbers first ts)[i]? = ts[i]?.map fun _ => first + sizeBefore ts i := by
  induction ts generalizing first i with
  | nil => rfl
  | cons t rest ih =>
      cases i with
      | zero => rfl
      | succ i =>
          rw [numbers, List.getElem?_cons_succ, List.getElem?_cons_succ, ih, sizeBefore_succ,
            Nat.add_assoc]

/-- The nodes of a tree among siblings stand behind those of its earlier siblings. -/
theorem getElem?_layoutAll {ts : List TestTree} {i m : Nat} (hc : ts[i]? = some c) (hm : m < c.size)
    (first parent : Nat) : (layoutAll first parent ts)[sizeBefore ts i + m]? =
      (layout (first + sizeBefore ts i) (some parent) c)[m]? := by
  induction ts generalizing first i with
  | nil => simp at hc
  | cons t rest ih =>
      rw [layoutAll]
      cases i with
      | zero =>
          obtain rfl := Option.some.inj hc
          have hlt : m < (layout first (some parent) t).length := by rwa [length_layout]
          simpa [sizeBefore] using List.getElem?_append_left hlt
      | succ i =>
          rw [sizeBefore_succ, List.getElem?_append_right (by rw [length_layout]; omega),
            length_layout, Nat.add_assoc, Nat.add_sub_cancel_left, ih hc, Nat.add_assoc]

/-- What the arena has at the number of a place. -/
theorem getElem?_layout (h : t.at? place = some s) (first : Nat) (parent : Option Nat) :
    (t.layout first parent)[t.number place]? =
      some ⟨s.info, if place = [] then parent else some (first + t.number place.dropLast),
        numbers (first + t.number place + 1) s.children⟩ := by
  induction place generalizing t first parent with
  | nil =>
      obtain rfl := Option.some.inj h
      cases t
      rfl
  | cons i rest ih =>
      obtain ⟨c, hc, hs⟩ := Option.bind_eq_some_iff.mp h
      cases t with
      | node info children =>
          have hnumber := number_cons hc
          rw [children_node] at hc hnumber
          have hbelow := (getElem?_layoutAll hc (number_lt_size hs) (first + 1) first).trans
            (ih hs _ _)
          have hparent : (if rest = [] then some first
                else some (first + 1 + sizeBefore children i + c.number rest.dropLast)) =
              some (first + (node info children).number (i :: rest).dropLast) := by
            cases rest with
            | nil => rfl
            | cons j rest =>
                have hne : j :: rest ≠ [] := List.cons_ne_nil _ _
                rw [if_neg hne, List.dropLast_cons_of_ne_nil hne, hnumber, ← Nat.add_assoc,
                  ← Nat.add_assoc]
          rw [layout, hnumber, Nat.add_assoc, Nat.add_comm 1, List.getElem?_cons_succ, hbelow,
            hparent, if_neg (List.cons_ne_nil _ _)]
          congr 3
          omega

/-- The node with the number of a place names its parent and its children by their places. -/
theorem getElem?_arena (h : t.at? place = some s) : t.arena.nodes[t.number place]? =
    some ⟨s.info, if place = [] then none else some (t.number place.dropLast),
      numbers (t.number place + 1) s.children⟩ := by
  rw [arena, getElem?_layout h, Nat.zero_add, Nat.zero_add]

/-- Siblings have ascending numbers. -/
theorem pairwise_numbers (first : Nat) (ts : List TestTree) :
    (numbers first ts).Pairwise (· < ·) := by
  rw [List.pairwise_iff_getElem]
  intro i j hi hj hij
  have hni := List.getElem?_eq_getElem hi
  have hnj := List.getElem?_eq_getElem hj
  rw [getElem?_numbers] at hni hnj
  obtain ⟨c, hc, heqi⟩ := Option.map_eq_some_iff.mp hni
  obtain ⟨d, hd, heqj⟩ := Option.map_eq_some_iff.mp hnj
  have hbefore := sizeBefore_add_le hc hij
  have hpos := c.size_pos
  omega

mutual

theorem map_info_layout (first : Nat) (parent : Option Nat) :
    ∀ t : TestTree, (t.layout first parent).map (·.info) = t.nodes
  | .node info children => by
      rw [layout, List.map_cons, map_info_layoutAll, nodes]

theorem map_info_layoutAll (first parent : Nat) :
    ∀ ts : List TestTree, (layoutAll first parent ts).map (·.info) = forestNodes ts
  | [] => rfl
  | t :: rest => by
      rw [layoutAll, List.map_append, map_info_layout, map_info_layoutAll, forestNodes]

end

theorem map_info_arena (t : TestTree) : t.arena.nodes.map (·.info) = t.nodes :=
  map_info_layout 0 none t

theorem length_arena (t : TestTree) : t.arena.nodes.length = t.size := length_layout 0 none t

end TestTree

end SpecExplorer
