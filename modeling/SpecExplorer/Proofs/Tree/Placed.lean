/-
# Places in an outline

A place in a tree is the list of child indices on the way to it. Places make it possible to say
which node of an outline a node of its tree comes from, without the tree: `Outline.locate?` gives
the node at a place together with its key, where every step extends the key by the name of the node
and the number of earlier siblings that have the name. The tree of an outline has a node at just
these places, each under its key, so its keys are those of the outline and the key of the file.
-/
import SpecExplorer.Proofs.Tree.Frame

namespace SpecExplorer

/-! ### Places -/

namespace OutlineNode

/-- The key of the sibling at an index, under the key of the parent. -/
def siblingKey (parent : NodeKey) (ns : List OutlineNode) (i : Nat) (n : OutlineNode) : NodeKey :=
  parent.child n.info.name ((ns.take i).countP (·.info.name == n.info.name))

/-- The node at a place below a node with a key, and the key that it has. -/
def locate? (key : NodeKey) (n : OutlineNode) : List Nat → Option (NodeKey × OutlineNode)
  | [] => some (key, n)
  | i :: rest =>
    n.children[i]?.bind fun c => locate? (siblingKey key n.children i c) c rest

@[simp] theorem locate?_nil (key : NodeKey) (n : OutlineNode) :
    n.locate? key [] = some (key, n) := rfl

@[simp] theorem locate?_cons (key : NodeKey) (n : OutlineNode) (i : Nat) (rest : List Nat) :
    n.locate? key (i :: rest) =
      n.children[i]?.bind fun c => c.locate? (siblingKey key n.children i c) rest := rfl

@[simp] theorem info_node (info : OutlineInfo) (children : List OutlineNode) :
    (node info children).info = info := rfl

@[simp] theorem children_node (info : OutlineInfo) (children : List OutlineNode) :
    (node info children).children = children := rfl

end OutlineNode

namespace Outline

/-- The node at a place and the key that it has. No node stands for the file itself. -/
def locate? (o : Outline) : List Nat → Option (NodeKey × OutlineNode)
  | [] => none
  | i :: rest =>
    o.roots[i]?.bind fun n => n.locate? (OutlineNode.siblingKey .root o.roots i n) rest

/-- Some node of the outline has a key. -/
def HasKey (o : Outline) (key : NodeKey) : Prop := ∃ place n, o.locate? place = some (key, n)

end Outline

namespace TestTree

/-- The subtree at a place. -/
def at? (t : TestTree) : List Nat → Option TestTree
  | [] => some t
  | i :: rest => t.children[i]?.bind fun c => at? c rest

@[simp] theorem at?_nil (t : TestTree) : t.at? [] = some t := rfl

@[simp] theorem at?_cons (t : TestTree) (i : Nat) (rest : List Nat) :
    t.at? (i :: rest) = t.children[i]?.bind fun c => c.at? rest := rfl

/-- Every subtree stands at some place. -/
theorem mem_subtrees_iff_exists_at? {s t : TestTree} :
    s ∈ t.subtrees ↔ ∃ place, t.at? place = some s := by
  constructor
  · intro hs
    induction t with
    | node info children ih =>
        rcases mem_subtrees_node.mp hs with rfl | ⟨c, hc, hs⟩
        · exact ⟨[], rfl⟩
        · obtain ⟨place, hplace⟩ := ih c hc hs
          obtain ⟨i, hi⟩ := List.mem_iff_getElem?.mp hc
          exact ⟨i :: place, by simp [hi, hplace]⟩
  · rintro ⟨place, hplace⟩
    induction place generalizing t with
    | nil =>
        obtain rfl := Option.some.inj hplace
        exact self_mem_subtrees t
    | cons i rest ih =>
        obtain ⟨c, hc, hrest⟩ := Option.bind_eq_some_iff.mp hplace
        exact mem_subtrees_trans (ih hrest) (mem_subtrees_of_mem_children (List.mem_of_getElem? hc))

theorem mem_subtrees_of_at? {s t : TestTree} {place : List Nat} (h : t.at? place = some s) :
    s ∈ t.subtrees :=
  mem_subtrees_iff_exists_at?.mpr ⟨place, h⟩

/-! ### The tree of an outline at its places -/

section OfOutline

variable {old? : NodeKey → Option TestNode}

/-- The tree of the sibling at an index, where `before` holds the names of siblings that come
before all of them. -/
theorem getElem?_ofOutlineNodes (parent : NodeKey) (before : List String) (ns : List OutlineNode)
    (i : Nat) :
    (ofOutlineNodes old? parent before ns)[i]? = ns[i]?.map fun n =>
      ofOutlineNode old? (parent.child n.info.name
        (before.count n.info.name + (ns.take i).countP (·.info.name == n.info.name))) n := by
  induction ns generalizing before i with
  | nil => rfl
  | cons m rest ih =>
      cases i with
      | zero => rfl
      | succ i =>
          rw [ofOutlineNodes, List.getElem?_cons_succ, List.getElem?_cons_succ, ih]
          refine congrArg (Option.map · rest[i]?) (funext fun n => ?_)
          rw [List.take_succ_cons, List.countP_cons, List.count_cons]
          congr 2
          omega

theorem getElem?_ofOutlineNodes_nil (parent : NodeKey) (ns : List OutlineNode) (i : Nat) :
    (ofOutlineNodes old? parent [] ns)[i]? =
      ns[i]?.map fun n => ofOutlineNode old? (OutlineNode.siblingKey parent ns i n) n := by
  rw [getElem?_ofOutlineNodes]
  simp only [List.count_nil, Nat.zero_add]
  rfl

/-- The subtree at a place is the tree of the outline node there, under the key that it has. -/
theorem at?_ofOutlineNode (key : NodeKey) (n : OutlineNode) (place : List Nat) :
    (ofOutlineNode old? key n).at? place =
      (n.locate? key place).map fun (key, m) => ofOutlineNode old? key m := by
  induction place generalizing key n with
  | nil => rfl
  | cons i rest ih =>
      cases n with
      | node info children =>
          rw [ofOutlineNode, at?_cons, children_node, getElem?_ofOutlineNodes_nil,
            OutlineNode.locate?_cons, OutlineNode.children_node]
          cases children[i]? with
          | none => rfl
          | some c => exact ih _ c

/-- No node of an outline becomes a root. -/
theorem ofOutlineNode_kind_ne_root (key : NodeKey) (n : OutlineNode) :
    (ofOutlineNode old? key n).info.kind ≠ .root := by
  cases n with
  | node info children =>
      rw [ofOutlineNode, info_node, TestNode.carry_kind]
      change NodeKind.ofOutline info.kind ≠ .root
      cases info.kind <;> decide

variable (previous : Option TestTree) (o : Outline) (name : String)

/-- The subtree at a place below the file is the tree of the outline node there. -/
theorem at?_ofOutline {place : List Nat} (hplace : place ≠ []) :
    (ofOutline previous o name).at? place =
      (o.locate? place).map fun (key, n) => ofOutlineNode (TestTree.old? previous) key n := by
  cases place with
  | nil => exact absurd rfl hplace
  | cons i rest =>
      rw [ofOutline, at?_cons, children_node, getElem?_ofOutlineNodes_nil, Outline.locate?]
      cases o.roots[i]? with
      | none => rfl
      | some n => exact at?_ofOutlineNode _ n rest

variable {previous o name}

/-- Every subtree of the tree of an outline is the whole tree or that of a node of the outline,
under the key that the node has. -/
theorem exists_locate?_of_mem {s : TestTree} (hs : s ∈ (ofOutline previous o name).subtrees) :
    s = ofOutline previous o name ∨ ∃ place n, o.locate? place = some (s.key, n) ∧
      s = ofOutlineNode (TestTree.old? previous) s.key n := by
  obtain ⟨place, hs⟩ := mem_subtrees_iff_exists_at?.mp hs
  by_cases hplace : place = []
  · subst hplace
    exact .inl (Option.some.inj hs).symm
  · rw [at?_ofOutline previous o name hplace] at hs
    obtain ⟨⟨key, n⟩, hlocate, rfl⟩ := Option.map_eq_some_iff.mp hs
    exact .inr ⟨place, n, by simpa using hlocate, by simp⟩

/-- In the tree of an outline, only the file is a root. -/
theorem kind_eq_root_iff {s : TestTree} (hs : s ∈ (ofOutline previous o name).subtrees) :
    s.info.kind = .root ↔ s.key = .root := by
  by_cases hself : s = ofOutline previous o name
  · subst hself
    have hkind : (ofOutline previous o name).info.kind = .root := TestNode.carry_kind _ _
    exact iff_of_true hkind (ofOutline_key previous o name)
  · have hkeyed := ofOutline_keyed previous o name
    refine iff_of_false ?_ fun hkey => hself (hkeyed.eq_of_key_eq hs (self_mem_subtrees _)
      (hkey.trans (ofOutline_key previous o name).symm))
    obtain ⟨place, n, -, hs⟩ := (exists_locate?_of_mem hs).resolve_left hself
    rw [hs]
    exact ofOutlineNode_kind_ne_root _ n

/-- The keys of the tree of an outline are those of the outline, and the key of the file. -/
theorem contains_ofOutline_iff {key : NodeKey} :
    (ofOutline previous o name).contains key ↔ key = .root ∨ o.HasKey key := by
  rw [contains_iff]
  constructor
  · rintro ⟨s, hs, rfl⟩
    rcases exists_locate?_of_mem hs with rfl | ⟨place, n, hlocate, -⟩
    · exact .inl (ofOutline_key previous o name)
    · exact .inr ⟨place, n, hlocate⟩
  · rintro (rfl | ⟨place, n, hlocate⟩)
    · exact ⟨_, self_mem_subtrees _, ofOutline_key previous o name⟩
    · have hplace : place ≠ [] := by
        rintro rfl
        cases hlocate
      have hat := at?_ofOutline previous o name hplace
      rw [hlocate] at hat
      exact ⟨_, mem_subtrees_of_at? hat, ofOutlineNode_key key n⟩

end OfOutline

end TestTree

end SpecExplorer
