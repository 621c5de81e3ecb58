/-
# Arenas with other nodes in their places

What runs do to an arena they do to its nodes; who is whose parent or child stays. Such an arena is
the old one painted anew: a function says for every number what is known of the node there. The way
up from a node takes no notice of it. The arena of a rebuilt tree is that of the tree, painted with
the rebuilt nodes.
-/
import SpecExplorer.Proofs.Tree.Traversed

namespace SpecExplorer

namespace Arena

/-- What is known of the node with a number, if there is one. -/
def infoAt (a : Arena) (i : Nat) : TestNode := (a.info? i).getD (.file "")

/-- The arena with other nodes in its places. -/
def paint (a : Arena) (shown : Nat → TestNode) : Arena :=
  { a with nodes := a.nodes.mapIdx fun i n => { n with info := shown i } }

variable {a b : Arena} {shown : Nat → TestNode} {i : Nat}

theorem getElem?_paint (a : Arena) (shown : Nat → TestNode) (i : Nat) :
    (a.paint shown).nodes[i]? = a.nodes[i]?.map fun n => { n with info := shown i } :=
  List.getElem?_mapIdx

@[simp] theorem length_paint (a : Arena) (shown : Nat → TestNode) :
    (a.paint shown).nodes.length = a.nodes.length := List.length_mapIdx

theorem info?_paint (h : i < a.nodes.length) : (a.paint shown).info? i = some (shown i) := by
  rw [info?, getElem?_paint, List.getElem?_eq_getElem h]
  rfl

theorem paint_congr {shown' : Nat → TestNode} (h : ∀ i < a.nodes.length, shown i = shown' i) :
    a.paint shown = a.paint shown' := by
  have hnodes : (a.paint shown).nodes = (a.paint shown').nodes := by
    refine List.ext_getElem? fun i => ?_
    rw [getElem?_paint, getElem?_paint]
    by_cases hi : i < a.nodes.length
    · rw [h i hi]
    · rw [List.getElem?_eq_none (Nat.le_of_not_lt hi)]
      rfl
  exact congrArg (Arena.mk · a.index) hnodes

/-- Arenas that agree but for what runs and clicks do are painted from each other. -/
theorem eq_paint_of_bare_eq (h : b.bare = a.bare) : b = a.paint b.infoAt := by
  have hindex : b.bare.index = a.bare.index := congrArg Arena.index h
  have hnodes : b.nodes = (a.paint b.infoAt).nodes := by
    refine List.ext_getElem? fun i => ?_
    have hbare : b.nodes[i]?.map ArenaNode.bare = a.nodes[i]?.map ArenaNode.bare := by
      rw [← List.getElem?_map, ← List.getElem?_map]
      exact congrArg (fun c : Arena => c.nodes[i]?) h
    rw [getElem?_paint, infoAt, info?]
    cases hb : b.nodes[i]? with
    | none =>
        rw [hb, Option.map_none, eq_comm, Option.map_eq_none_iff] at hbare
        rw [hbare]
        rfl
    | some n =>
        rw [hb, Option.map_some, eq_comm, Option.map_eq_some_iff] at hbare
        obtain ⟨m, hm, hmn⟩ := hbare
        have hparent : m.parent = n.parent := congrArg (·.parent) hmn
        have hchildren : m.children = n.children := congrArg (·.children) hmn
        rw [hm]
        simp [hparent, hchildren]
  obtain ⟨nodes, index⟩ := b
  exact congrArg₂ Arena.mk hnodes hindex

/-! ### The way up in a painted arena -/

theorem climb_paint (a : Arena) (shown : Nat → TestNode) (rounds : Nat) (out : List Nat)
    (i : Option Nat) : (a.paint shown).climb rounds out i = a.climb rounds out i := by
  induction rounds generalizing out i with
  | zero => cases i <;> rfl
  | succ rounds ih =>
      cases i with
      | none => rfl
      | some i =>
          rw [climb, climb, getElem?_paint]
          cases a.nodes[i]? with
          | none => rfl
          | some n => exact ih _ _

@[simp] theorem ancestors?_paint (a : Arena) (shown : Nat → TestNode) (i : Nat) :
    (a.paint shown).ancestors? i = a.ancestors? i := by
  rw [ancestors?, ancestors?, getElem?_paint, length_paint]
  cases a.nodes[i]? with
  | none => rfl
  | some n => exact climb_paint _ _ _ _ _

end Arena

namespace TestTree

variable {t t' s : TestTree} {place : List Nat} {f : NodeChange}

theorem infoAt_number (h : t.at? place = some s) : t.arena.infoAt (t.number place) = s.info := by
  rw [Arena.infoAt, info?_number h, Option.getD_some]

theorem arena_eq_paint (h : t'.frame = t.frame) : t'.arena = t.arena.paint t'.arena.infoAt :=
  Arena.eq_paint_of_bare_eq (by rw [← arena_frame, h, arena_frame])

theorem number_frame (t : TestTree) (place : List Nat) : t.frame.number place = t.number place := by
  induction place generalizing t with
  | nil => rfl
  | cons i rest ih =>
      have hbefore : sizeBefore t.frame.children i = sizeBefore t.children i := by
        rw [sizeBefore, children_frame, ← List.map_take, List.map_map]
        exact congrArg List.sum (List.map_congr_left fun c _ => size_frame c)
      rw [number, number, hbefore, children_frame, List.getElem?_map]
      cases t.children[i]? with
      | none => rfl
      | some c => exact congrArg (1 + sizeBefore t.children i + ·) (ih c)

theorem number_eq_of_frame_eq (h : t'.frame = t.frame) (place : List Nat) :
    t'.number place = t.number place := by
  rw [← number_frame, h, number_frame]

/-- In a rebuilt tree the rebuilt subtrees have the places of the subtrees. -/
theorem at?_rebuild (f : NodeChange) (t : TestTree) (place : List Nat) :
    (t.rebuild f).at? place = (t.at? place).map (rebuild f) := by
  induction place generalizing t with
  | nil => rfl
  | cons i rest ih =>
      rw [at?_cons, at?_cons, children_rebuild, List.getElem?_map, Option.bind_map, Option.map_bind]
      exact congrArg _ (funext ih)

theorem at?_rebuild_of_at? (h : t.at? place = some s) (f : NodeChange) :
    (t.rebuild f).at? place = some (s.rebuild f) := by
  rw [at?_rebuild, h, Option.map_some]

/-- In the arena of a rebuilt tree stand the rebuilt nodes. -/
theorem infoAt_rebuild (hf : ∀ info children, (f info children).bare = info.bare)
    (h : t.at? place = some s) :
    (t.rebuild f).arena.infoAt (t.number place) = f s.info (s.children.map (rebuild f)) := by
  rw [← number_eq_of_frame_eq (rebuild_frame hf t), infoAt_number (at?_rebuild_of_at? h f),
    info_rebuild]

end TestTree

end SpecExplorer
