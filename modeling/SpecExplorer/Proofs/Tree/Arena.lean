/-
# Trees laid out in an arena

A tree can be laid out in one list. Its nodes are numbered in pre-order; each has the number of its
parent and those of its children, and an index leads from a key to a number. Such an arena can also
be filled from an outline, node by node: a node is pushed under its parent, its key is that of the
parent extended by its name and by how often the name was seen among its siblings so far, and then
all below it is added. That gives the very arena of the tree that a merge makes of the outline.
-/
import SpecExplorer.Proofs.Tree.Merged
import SpecExplorer.Table

namespace SpecExplorer

/-- A node in an arena. Other nodes are named by their numbers. -/
structure ArenaNode where
  info : TestNode
  parent : Option Nat
  children : List Nat

/-- The node with some more children. -/
def ArenaNode.adopt (n : ArenaNode) (ids : List Nat) : ArenaNode :=
  { n with children := n.children ++ ids }

theorem ArenaNode.adopt_adopt (n : ArenaNode) (ids more : List Nat) :
    (n.adopt ids).adopt more = n.adopt (ids ++ more) := by
  simp [adopt]

structure Arena where
  /-- By their numbers, counted from zero. -/
  nodes : List ArenaNode
  /-- The number of the node with a key. -/
  index : Table NodeKey Nat

namespace Arena

/-! ### Filling an arena -/

/-- A node by itself, with the number zero. -/
def ofRoot (info : TestNode) : Arena := ⟨[⟨info, none, []⟩], Table.empty.put info.key 0⟩

/-- The key of the node with a number. -/
def keyAt (a : Arena) (i : Nat) : NodeKey := (a.nodes[i]?.map (·.info.key)).getD .root

/-- Adds a node under a parent. -/
def push (a : Arena) (parent : Nat) (info : TestNode) : Arena where
  nodes :=
    (a.nodes ++ [ArenaNode.mk info (some parent) []]).modify parent (·.adopt [a.nodes.length])
  index := a.index.put info.key a.nodes.length

mutual

/-- Adds an outline node under a parent, and all that is below it. -/
def addNode (old? : NodeKey → Option TestNode) (a : Arena) (parent : Nat) (key : NodeKey) :
    OutlineNode → Arena
  | .node o children =>
    let id := a.nodes.length
    let a := a.push parent ((TestNode.ofOutline key o).carry (old? key))
    addSiblings old? a id (a.keyAt id) .empty children

/-- Adds siblings one after the other; `seen` counts their names so far. -/
def addSiblings (old? : NodeKey → Option TestNode) (a : Arena) (parent : Nat) (key : NodeKey)
    (seen : Table String Nat) : List OutlineNode → Arena
  | [] => a
  | n :: rest =>
    let ordinal := (seen.get? n.info.name).getD 0
    let a := addNode old? a parent (key.child n.info.name ordinal) n
    addSiblings old? a parent key (seen.put n.info.name (ordinal + 1)) rest

end

/-- The arena of an outline, with what `previous` knew about its keys. -/
def ofOutline (previous : Option TestTree) (o : Outline) (name : String) : Arena :=
  let a := ofRoot ((TestNode.file name).carry (previous.map TestTree.info))
  addSiblings (TestTree.old? previous) a 0 (a.keyAt 0) .empty o.roots

end Arena

/-! ### Laying out a tree -/

namespace TestTree

/-- The numbers of siblings, where the first has a given one. -/
def numbers (first : Nat) : List TestTree → List Nat
  | [] => []
  | t :: rest => first :: numbers (first + t.size) rest

mutual

/-- The nodes of a tree in pre-order, numbered from `first` on. -/
def layout (first : Nat) (parent : Option Nat) : TestTree → List ArenaNode
  | .node info children =>
    ⟨info, parent, numbers (first + 1) children⟩ :: layoutAll (first + 1) first children

def layoutAll (first parent : Nat) : List TestTree → List ArenaNode
  | [] => []
  | t :: rest => layout first (some parent) t ++ layoutAll (first + t.size) parent rest

end

/-- The tree in an arena, with the root as number zero. -/
def arena (t : TestTree) : Arena := ⟨t.layout 0 none, ⟨t.keys.zipIdx⟩⟩

end TestTree

/-! ### Adding to the end of an arena -/

theorem modify_append {α : Type} (f : α → α) {i : Nat} {l : List α} (h : i < l.length)
    (m : List α) : (l ++ m).modify i f = l.modify i f ++ m := by
  induction l generalizing i with
  | nil => exact absurd h (Nat.not_lt_zero i)
  | cons a rest ih =>
      cases i with
      | zero => rfl
      | succ i =>
          rw [List.cons_append, List.modify_succ_cons, List.modify_succ_cons, List.cons_append,
            ih (Nat.lt_of_succ_lt_succ h)]

theorem modify_append_length {α : Type} (f : α → α) (l : List α) (a : α) (m : List α) :
    (l ++ a :: m).modify l.length f = l ++ f a :: m := by
  induction l with
  | nil => rfl
  | cons b rest ih => rw [List.cons_append, List.length_cons, List.modify_succ_cons, ih,
      List.cons_append]

namespace Table

variable {κ α : Type} [DecidableEq κ]

/-- Binds keys one after the other. -/
def putAll (t : Table κ α) (pairs : List (κ × α)) : Table κ α :=
  pairs.foldl (fun t p => t.put p.1 p.2) t

theorem putAll_append (t : Table κ α) (pairs more : List (κ × α)) :
    t.putAll (pairs ++ more) = (t.putAll pairs).putAll more := List.foldl_append

theorem putIn_of_not_mem {key : κ} {entries : List (κ × α)} (h : key ∉ entries.map (·.1))
    (value : α) : putIn key value entries = entries ++ [(key, value)] := by
  induction entries with
  | nil => rfl
  | cons entry rest ih =>
      rw [List.map_cons, List.mem_cons, not_or] at h
      rw [putIn, if_neg h.1, ih h.2, List.cons_append]

/-- Keys that are all different, and none of them bound before, are bound in their order. -/
theorem putAll_eq {t : Table κ α} {pairs : List (κ × α)}
    (h : ((t.entries ++ pairs).map (·.1)).Nodup) : t.putAll pairs = ⟨t.entries ++ pairs⟩ := by
  induction pairs generalizing t with
  | nil => rw [List.append_nil, putAll, List.foldl_nil]
  | cons p rest ih =>
      have hnew : p.1 ∉ t.entries.map (·.1) := by
        rw [List.map_append, List.nodup_append] at h
        exact fun hmem => h.2.2 _ hmem _ List.mem_cons_self rfl
      have hput : t.put p.1 p.2 = ⟨t.entries ++ [p]⟩ := by rw [put, putIn_of_not_mem hnew]
      rw [List.append_cons] at h ⊢
      rw [putAll, List.foldl_cons, hput]
      exact ih h

end Table

namespace TestTree

theorem length_keys (t : TestTree) : t.keys.length = t.size := List.length_map _

mutual

theorem length_layout (first : Nat) (parent : Option Nat) :
    ∀ t : TestTree, (t.layout first parent).length = t.size
  | .node info children => by
      rw [layout, List.length_cons, length_layoutAll, size, nodes, List.length_cons]

theorem length_layoutAll (first parent : Nat) :
    ∀ ts : List TestTree, (layoutAll first parent ts).length = (forestNodes ts).length
  | [] => rfl
  | t :: rest => by
      rw [layoutAll, List.length_append, length_layout, length_layoutAll, forestNodes,
        List.length_append, size]

end

end TestTree

namespace Arena

open TestTree

/-- The arena with some trees added under a node. -/
def graft (a : Arena) (parent : Nat) (ts : List TestTree) : Arena where
  nodes := a.nodes.modify parent (·.adopt (numbers a.nodes.length ts)) ++
    layoutAll a.nodes.length parent ts
  index := a.index.putAll ((ts.flatMap keys).zipIdx a.nodes.length)

variable {a : Arena} {parent : Nat} (h : parent < a.nodes.length)

theorem graft_nil (a : Arena) (parent : Nat) : a.graft parent [] = a := by
  have hnone : (fun n : ArenaNode => n.adopt []) = id := funext fun n => by simp [ArenaNode.adopt]
  simp [graft, numbers, layoutAll, hnone, Table.putAll]

theorem length_nodes_push (a : Arena) (parent : Nat) (info : TestNode) :
    (a.push parent info).nodes.length = a.nodes.length + 1 := by
  rw [push, List.length_modify, List.length_append, List.length_singleton]

theorem length_nodes_graft (a : Arena) (parent : Nat) (t : TestTree) :
    (a.graft parent [t]).nodes.length = a.nodes.length + t.size := by
  rw [graft, List.length_append, List.length_modify, length_layoutAll, forestNodes, forestNodes,
    List.append_nil, size]

include h

theorem nodes_push (info : TestNode) : (a.push parent info).nodes =
    a.nodes.modify parent (·.adopt [a.nodes.length]) ++ [⟨info, some parent, []⟩] :=
  modify_append _ h _

theorem keyAt_push (info : TestNode) : (a.push parent info).keyAt a.nodes.length = info.key := by
  rw [keyAt, nodes_push h, List.getElem?_append_right (by simp), List.length_modify, Nat.sub_self]
  rfl

/-- Trees can be added one after the other. -/
theorem graft_graft (t : TestTree) (rest : List TestTree) :
    (a.graft parent [t]).graft parent rest = a.graft parent (t :: rest) := by
  have hmodify : parent < (a.nodes.modify parent (·.adopt [a.nodes.length])).length := by
    rwa [List.length_modify]
  rw [graft, length_nodes_graft]
  simp only [graft, numbers, layoutAll, List.append_nil, List.flatMap_cons, List.flatMap_nil]
  rw [modify_append _ hmodify, List.modify_modify_eq, List.append_assoc, List.zipIdx_append,
    Table.putAll_append, length_keys]
  simp only [Function.comp_def, ArenaNode.adopt_adopt, List.singleton_append]

/-- A tree can be added by its root and then its children. -/
theorem graft_push (info : TestNode) (children : List TestTree) :
    (a.push parent info).graft a.nodes.length children = a.graft parent [.node info children] := by
  have hlength : (a.nodes.modify parent (·.adopt [a.nodes.length])).length = a.nodes.length :=
    List.length_modify ..
  have hnodes := modify_append_length (·.adopt (numbers (a.nodes.length + 1) children))
    (a.nodes.modify parent (·.adopt [a.nodes.length])) ⟨info, some parent, []⟩ []
  rw [hlength] at hnodes
  rw [graft, nodes_push h, List.length_append, hlength, List.length_singleton, hnodes]
  simp only [graft, numbers, layoutAll, layout, List.flatMap_singleton, keys, nodes_node,
    List.map_cons, List.zipIdx_cons, List.map_flatMap, List.append_assoc, List.append_nil]
  rfl

omit h

/-! ### Filling is laying out -/

variable {old? : NodeKey → Option TestNode}

/-- Adding siblings grafts their trees, if that holds of each. -/
theorem addSiblings_eq {ns : List OutlineNode}
    (hadd : ∀ n ∈ ns, ∀ (a : Arena) {parent : Nat}, parent < a.nodes.length → ∀ key,
      addNode old? a parent key n = a.graft parent [ofOutlineNode old? key n])
    {a : Arena} {parent : Nat} (h : parent < a.nodes.length) (key : NodeKey)
    {seen : Table String Nat} {before : List String}
    (hseen : ∀ name, (seen.get? name).getD 0 = before.count name) :
    addSiblings old? a parent key seen ns =
      a.graft parent (ofOutlineNodes old? key before ns) := by
  induction ns generalizing a seen before with
  | nil => exact (graft_nil a parent).symm
  | cons n rest ih =>
      obtain ⟨hn, hrest⟩ := List.forall_mem_cons.mp hadd
      rw [addSiblings, hseen, hn a h, ofOutlineNodes, ← graft_graft h _ (ofOutlineNodes ..)]
      refine ih hrest ?_ fun name => ?_
      · rw [length_nodes_graft]
        omega
      · rw [Table.get?_put, List.count_cons]
        grind

/-- Adding an outline node grafts its tree. -/
theorem addNode_eq (n : OutlineNode) (a : Arena) {parent : Nat} (h : parent < a.nodes.length)
    (key : NodeKey) : addNode old? a parent key n = a.graft parent [ofOutlineNode old? key n] := by
  induction n generalizing a parent key with
  | node info children ih =>
      have hkey : ((TestNode.ofOutline key info).carry (old? key)).key = key :=
        TestNode.carry_key _ _
      rw [addNode, keyAt_push h, hkey, ofOutlineNode, ← graft_push h]
      refine addSiblings_eq (fun c hc a _ h key => ih c hc a h key) ?_ key fun name => rfl
      rw [length_nodes_push]
      exact Nat.lt_succ_self _

/-- A root and the trees grafted under it are the tree of the root, if all keys are different. -/
theorem graft_ofRoot {root : TestNode} {ts : List TestTree} (h : (node root ts).keys.Nodup) :
    (ofRoot root).graft 0 ts = (node root ts).arena := by
  have hindex : (Table.empty.put root.key 0).putAll ((ts.flatMap keys).zipIdx 1) =
      ⟨(node root ts).keys.zipIdx⟩ := by
    have hkeys : (node root ts).keys = root.key :: ts.flatMap keys := by
      rw [keys, nodes_node, List.map_cons, List.map_flatMap]
      rfl
    rw [hkeys] at h ⊢
    refine Table.putAll_eq ?_
    simpa [Table.put, Table.putIn, Table.empty] using h
  rw [graft, ofRoot, arena, layout, ← hindex]
  rfl

/-- Filling an arena from an outline lays out the tree of the outline. -/
theorem ofOutline_eq_arena (previous : Option TestTree) (o : Outline) (name : String) :
    ofOutline previous o name = (TestTree.ofOutline previous o name).arena := by
  have hseen : ∀ name, ((Table.empty : Table String Nat).get? name).getD 0 = [].count name :=
    fun name => rfl
  have hkey : (ofRoot ((TestNode.file name).carry (previous.map info))).keyAt 0 = .root :=
    TestNode.carry_key _ _
  rw [ofOutline, addSiblings_eq (fun n _ a _ h key => addNode_eq n a h key) Nat.one_pos _ hseen,
    hkey]
  exact graft_ofRoot (ofOutline_keyed previous o name).nodup_keys

end Arena

end SpecExplorer
