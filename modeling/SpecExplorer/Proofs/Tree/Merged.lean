/-
# Trees of outlines

Every tree that a merge gives is keyed, whatever the outline and whatever the tree before: the
ordinal of a child counts the earlier siblings of its name. Where the specs of an outline have
nothing below them, the same holds for the specs of its tree.
-/
import SpecExplorer.Proofs.Tree.Keyed

namespace SpecExplorer

/-- Specs of an outline, at any depth, have nothing below them. -/
inductive OutlineNode.SpecsAreLeaves : OutlineNode → Prop
  | node {info : OutlineInfo} {children : List OutlineNode}
      (leaf : info.kind = .spec → children = [])
      (below : ∀ c ∈ children, c.SpecsAreLeaves) : SpecsAreLeaves (.node info children)

/-- Specs of an outline have nothing below them, as the outline of a tool's report has it. -/
def Outline.SpecsAreLeaves (o : Outline) : Prop := ∀ n ∈ o.roots, n.SpecsAreLeaves

/-- Induction over an outline node, with the hypothesis for every child. -/
@[elab_as_elim, induction_eliminator]
theorem OutlineNode.induction {motive : OutlineNode → Prop}
    (node : ∀ info children, (∀ c ∈ children, motive c) → motive (.node info children))
    (n : OutlineNode) : motive n := by
  refine OutlineNode.rec (motive_1 := motive) (motive_2 := fun cs => ∀ c ∈ cs, motive c)
    node ?_ ?_ n
  · intro c hc
    cases hc
  · intro head tail hhead htail c hc
    rcases List.mem_cons.mp hc with rfl | hc
    · exact hhead
    · exact htail c hc

theorem OutlineNode.specsAreLeaves_node {info : OutlineInfo} {children : List OutlineNode} :
    (OutlineNode.node info children).SpecsAreLeaves ↔
      (info.kind = .spec → children = []) ∧ ∀ c ∈ children, c.SpecsAreLeaves := by
  constructor
  · rintro ⟨hleaf, hbelow⟩
    exact ⟨hleaf, hbelow⟩
  · rintro ⟨hleaf, hbelow⟩
    exact .node hleaf hbelow

/-- An outline node that tells no more than its kind and its name. -/
def OutlineNode.plain (kind : OutlineKind) (name : String) (children : List OutlineNode) :
    OutlineNode :=
  .node ⟨kind, name, "", .zero, false, false, []⟩ children

/-- The outline of a file in which two specs share a name path and one container is empty. -/
def Outline.cart : Outline :=
  ⟨[.plain .container "cart"
    [.plain .spec "adds" [], .plain .spec "adds" [], .plain .container "later" [],
      .plain .container "checkout" [.plain .spec "pays" []]]]⟩

/-- The outline of a file with one container and some specs in it. -/
def Outline.cartOf (specs : List String) : Outline :=
  ⟨[.plain .container "cart" (specs.map fun name => .plain .spec name [])]⟩

theorem Outline.cart_specsAreLeaves : cart.SpecsAreLeaves := by
  simp [SpecsAreLeaves, cart, OutlineNode.plain, OutlineNode.specsAreLeaves_node]

theorem Outline.cartOf_specsAreLeaves (specs : List String) : (cartOf specs).SpecsAreLeaves := by
  simp [SpecsAreLeaves, cartOf, OutlineNode.plain, OutlineNode.specsAreLeaves_node]

namespace TestTree

/-- Specs have nothing below them. -/
def SpecsAreLeaves (t : TestTree) : Prop :=
  ∀ s ∈ t.subtrees, s.info.kind = .spec → s.children = []

theorem specsAreLeaves_node {info : TestNode} {children : List TestTree} :
    (node info children).SpecsAreLeaves ↔
      (info.kind = .spec → children = []) ∧ ∀ c ∈ children, c.SpecsAreLeaves :=
  forall_subtrees_node

theorem SpecsAreLeaves.of_mem_subtrees {s t : TestTree} (h : t.SpecsAreLeaves)
    (hs : s ∈ t.subtrees) : s.SpecsAreLeaves :=
  fun r hr => h r (mem_subtrees_trans hr hs)

theorem SpecsAreLeaves.of_mem_children {c t : TestTree} (h : t.SpecsAreLeaves)
    (hc : c ∈ t.children) : c.SpecsAreLeaves :=
  h.of_mem_subtrees (mem_subtrees_of_mem_children hc)

end TestTree

namespace TestNode

@[simp] theorem carry_key (n : TestNode) (old : Option TestNode) : (n.carry old).key = n.key := by
  cases old <;> rfl

@[simp] theorem carry_name (n : TestNode) (old : Option TestNode) :
    (n.carry old).name = n.name := by
  cases old <;> rfl

@[simp] theorem carry_kind (n : TestNode) (old : Option TestNode) :
    (n.carry old).kind = n.kind := by
  cases old <;> rfl

end TestNode

namespace TestTree

variable {old? : NodeKey → Option TestNode} {parent : NodeKey}

@[simp] theorem ofOutlineNode_key (key : NodeKey) (n : OutlineNode) :
    (ofOutlineNode old? key n).key = key := by
  cases n
  simp [ofOutlineNode, TestNode.ofOutline]

@[simp] theorem ofOutlineNode_name (key : NodeKey) (n : OutlineNode) :
    (ofOutlineNode old? key n).info.name = n.info.name := by
  cases n
  simp [ofOutlineNode, TestNode.ofOutline, OutlineNode.info]

/-- Every tree of a list of siblings is the tree of one of them, under its name and an ordinal
that is no smaller than the number of earlier siblings of that name. -/
theorem exists_of_mem_ofOutlineNodes {before : List String} {ns : List OutlineNode}
    {c : TestTree} (hc : c ∈ ofOutlineNodes old? parent before ns) :
    ∃ n ∈ ns, ∃ ordinal, before.count n.info.name ≤ ordinal ∧
      c = ofOutlineNode old? (parent.child n.info.name ordinal) n := by
  induction ns generalizing before with
  | nil => cases hc
  | cons n rest ih =>
      rcases List.mem_cons.mp hc with rfl | hc
      · exact ⟨n, List.mem_cons_self, _, Nat.le_refl _, rfl⟩
      · obtain ⟨m, hm, ordinal, hle, rfl⟩ := ih hc
        exact ⟨m, List.mem_cons_of_mem _ hm, ordinal,
          Nat.le_trans List.count_le_count_cons hle, rfl⟩

theorem nodup_keys_ofOutlineNodes (before : List String) (ns : List OutlineNode) :
    ((ofOutlineNodes old? parent before ns).map key).Nodup := by
  induction ns generalizing before with
  | nil => exact List.nodup_nil
  | cons n rest ih =>
      rw [ofOutlineNodes, List.map_cons, List.nodup_cons]
      refine ⟨?_, ih _⟩
      intro hmem
      obtain ⟨c, hc, hkey⟩ := List.mem_map.mp hmem
      obtain ⟨m, -, ordinal, hle, rfl⟩ := exists_of_mem_ofOutlineNodes hc
      rw [ofOutlineNode_key, ofOutlineNode_key, NodeKey.child_inj] at hkey
      obtain ⟨hname, hordinal⟩ := hkey
      rw [hname, List.count_cons_self, hordinal] at hle
      omega

/-- The tree of an outline node is keyed. -/
theorem ofOutlineNode_keyed (key : NodeKey) (n : OutlineNode) :
    (ofOutlineNode old? key n).Keyed := by
  induction n generalizing key with
  | node info children ih =>
      refine keyed_node.mpr ⟨⟨nodup_keys_ofOutlineNodes _ _, fun c hc => ?_⟩, fun c hc => ?_⟩
      · obtain ⟨n, -, ordinal, -, rfl⟩ := exists_of_mem_ofOutlineNodes hc
        exact ⟨ordinal, by simp [TestNode.ofOutline]⟩
      · obtain ⟨n, hn, ordinal, -, rfl⟩ := exists_of_mem_ofOutlineNodes hc
        exact ih n hn _

/-- The tree of an outline is keyed, whatever the tree before. -/
theorem ofOutline_keyed (previous : Option TestTree) (o : Outline) (name : String) :
    (ofOutline previous o name).Keyed := by
  refine keyed_node.mpr ⟨⟨nodup_keys_ofOutlineNodes _ _, fun c hc => ?_⟩, fun c hc => ?_⟩
  · obtain ⟨n, -, ordinal, -, rfl⟩ := exists_of_mem_ofOutlineNodes hc
    exact ⟨ordinal, by simp [TestNode.file]⟩
  · obtain ⟨n, -, ordinal, -, rfl⟩ := exists_of_mem_ofOutlineNodes hc
    exact ofOutlineNode_keyed _ n

@[simp] theorem ofOutline_key (previous : Option TestTree) (o : Outline) (name : String) :
    (ofOutline previous o name).key = .root := by
  simp [ofOutline, TestNode.file]

theorem ofOutlineNode_specsAreLeaves (key : NodeKey) {n : OutlineNode} (h : n.SpecsAreLeaves) :
    (ofOutlineNode old? key n).SpecsAreLeaves := by
  induction h generalizing key with
  | @node info children leaf below ih =>
      refine specsAreLeaves_node.mpr ⟨fun hkind => ?_, fun c hc => ?_⟩
      · have hspec : info.kind = .spec := by
          cases hk : info.kind <;> simp_all [TestNode.ofOutline, NodeKind.ofOutline]
        rw [leaf hspec]
        rfl
      · obtain ⟨n, hn, ordinal, -, rfl⟩ := exists_of_mem_ofOutlineNodes hc
        exact ih n hn _

/-- The specs of a tree are leaves where those of its outline are. -/
theorem ofOutline_specsAreLeaves (previous : Option TestTree) {o : Outline}
    (h : o.SpecsAreLeaves) (name : String) : (ofOutline previous o name).SpecsAreLeaves := by
  refine specsAreLeaves_node.mpr ⟨fun hkind => ?_, fun c hc => ?_⟩
  · simp [TestNode.file] at hkind
  · obtain ⟨n, hn, ordinal, -, rfl⟩ := exists_of_mem_ofOutlineNodes hc
    exact ofOutlineNode_specsAreLeaves _ (h n hn)

end TestTree

end SpecExplorer
