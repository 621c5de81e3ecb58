/-
# The specs that a focus selects

A focus knows the names of a node as one text. It tells neither twins apart, which differ in nothing
but their ordinals, nor where one name ends and the next one begins. If no name holds a blank, the
text can be cut into the names again, and then a focus selects the specs of all nodes that share the
names of its own node. So it selects exactly the specs under its node wherever no other node has
those names.
-/
import SpecExplorer.Proofs.Run.Expression
import SpecExplorer.Proofs.Run.Focused
import SpecExplorer.Proofs.Tree.Placed

namespace SpecExplorer

namespace NodeKey

/-- Whether no name of the key holds a blank. -/
def unbroken (key : NodeKey) : Bool := key.names.all fun name => !name.toList.any Text.isBlank

variable {a b : NodeKey}

theorem names_ne_nil (h : a ≠ .root) : a.names ≠ [] := by
  cases a with
  | mk segments =>
      intro hnil
      obtain rfl : segments = [] := List.map_eq_nil_iff.mp hnil
      exact h rfl

theorem isBlank_of_unbroken (h : a.unbroken) {name : String} (hname : name ∈ a.names) {c : Char}
    (hc : c ∈ name.toList) : Text.isBlank c = false := by
  have hnone : name.toList.any Text.isBlank = false := by
    simpa using List.all_eq_true.mp h name hname
  simpa using List.any_eq_false.mp hnone c hc

/-- The blanks of a joined text that are in none of the names are the spaces between them. -/
theorem eq_space_of_mem_intercalate {names : List String}
    (hnames : ∀ name ∈ names, ∀ c ∈ name.toList, Text.isBlank c = false) {c : Char}
    (hc : c ∈ (String.intercalate " " names).toList) (hblank : Text.isBlank c) : c = ' ' := by
  induction names with
  | nil => simp at hc
  | cons name rest ih =>
      have hname : c ∉ name.toList := fun hmem => by
        rw [hnames name List.mem_cons_self c hmem] at hblank
        cases hblank
      cases rest with
      | nil => exact absurd (by simpa using hc) hname
      | cons next rest =>
          rw [String.intercalate_cons_cons, String.toList_append, String.toList_append,
            List.append_assoc, List.mem_append, List.mem_append] at hc
          rcases hc with hc | hc | hc
          · exact absurd hc hname
          · simpa using hc
          · exact ih (fun name hmem => hnames name (List.mem_cons_of_mem _ hmem)) hc

/-- The full text of a key without blanks in its names is cut into them at its spaces. -/
theorem splitOn_fullText (h : a.unbroken) (hroot : a ≠ .root) :
    a.fullText.toList.splitOn ' ' = a.names.map String.toList := by
  have hnone : ∀ cs ∈ a.names.map String.toList, ' ' ∉ cs := by
    intro cs hcs hmem
    obtain ⟨name, hname, rfl⟩ := List.mem_map.mp hcs
    have hblank := isBlank_of_unbroken h hname hmem
    revert hblank
    decide
  rw [fullText, String.toList_intercalate]
  exact List.splitOn_intercalate ' ' hnone (mt List.map_eq_nil_iff.mp (names_ne_nil hroot))

theorem toList_map_injective : Function.Injective (List.map String.toList) :=
  List.map_injective_iff.mpr fun _ _ => String.toList_inj.mp

/-- Texts of names without blanks are the same only for the same names. -/
theorem names_eq_of_fullText_eq (ha : a.unbroken) (hb : b.unbroken) (hroota : a ≠ .root)
    (hrootb : b ≠ .root) (h : a.fullText = b.fullText) : a.names = b.names := by
  apply toList_map_injective
  rw [← splitOn_fullText ha hroota, ← splitOn_fullText hb hrootb, h]

/-- Where a text of names without blanks goes on from another one with a blank, so do the names. -/
theorem names_prefix_of_fullText (ha : a.unbroken) (hb : b.unbroken) (hroota : a ≠ .root)
    (hrootb : b ≠ .root) {c : Char} (hc : Text.isBlank c) {rest : List Char}
    (h : b.fullText.toList = a.fullText.toList ++ c :: rest) : a.names <+: b.names := by
  obtain rfl : c = ' ' := eq_space_of_mem_intercalate
    (fun name hname _ => isBlank_of_unbroken hb hname) (by rw [← fullText, h]; simp) hc
  rw [← List.prefix_map_iff_of_injective fun _ _ => String.toList_inj.mp,
    ← splitOn_fullText ha hroota, ← splitOn_fullText hb hrootb, h, List.splitOn_append_cons_self]
  exact List.prefix_append _ _

end NodeKey

namespace TestTree

/-- Names that the names of a spec start with are those of a node that has the spec under it. -/
theorem Keyed.exists_above {t : TestTree} (hkeyed : t.Keyed) (hroot : t.key = .root)
    {n : TestNode} (hn : n ∈ t.specs) {names : List String} (hnames : names <+: n.key.names) :
    ∃ above ∈ t.subtrees, above.key.names = names ∧ n ∈ above.specs := by
  obtain ⟨s, hs, rfl, hkind⟩ := mem_specs.mp hn
  let key : NodeKey := ⟨s.key.segments.take names.length⟩
  have hcovers : key.covers s.key := NodeKey.covers_iff.mpr (List.take_prefix _ _)
  obtain ⟨above, habove, hkey⟩ := contains_iff.mp (hkeyed.contains_above hroot hs hcovers)
  refine ⟨above, habove, ?_, ?_⟩
  · rw [hkey, NodeKey.names, List.map_take]
    exact (List.prefix_iff_eq_take.mp hnames).symm
  · exact mem_specs.mpr ⟨s, hkeyed.mem_subtrees_of_covers habove hs (hkey ▸ hcovers), rfl, hkind⟩

end TestTree

namespace Focus

variable {key : NodeKey} {kind : NodeKind} {f : Focus}

theorem exists_ofNode? (hroot : key ≠ .root) (hkind : kind ≠ .root) :
    ∃ f, ofNode? key kind = some f := by
  have hsegments : key.isRoot = false := by
    cases key
    simpa [NodeKey.isRoot, NodeKey.root] using hroot
  unfold ofNode?
  rw [hsegments]
  cases kind with
  | root => exact absurd rfl hkind
  | spec => exact ⟨_, rfl⟩
  | container => exact ⟨_, rfl⟩

/-- The focus of a node selects its text and, for a container, what goes on from it with a
blank. -/
theorem selects_ofNode?_iff (hf : ofNode? key kind = some f) {full : String} :
    f.selects full ↔ full = key.fullText ∨ kind = .container ∧
      ∃ c rest, Text.isBlank c ∧ full.toList = key.fullText.toList ++ c :: rest := by
  unfold ofNode? at hf
  split at hf
  next => cases hf
  next =>
      cases kind with
      | root => cases hf
      | spec =>
          cases hf
          simp [selects]
      | container =>
          cases hf
          simp [selects_startingWith_iff]

/-- Nodes that share their names have the same focus. -/
theorem ofNode?_congr {other : NodeKey} (h : key.names = other.names) (kind : NodeKind) :
    ofNode? key kind = ofNode? other kind := by
  have hroot : key.isRoot = other.isRoot := by
    have hempty := congrArg List.isEmpty h
    rwa [NodeKey.names, NodeKey.names, List.isEmpty_map, List.isEmpty_map] at hempty
  unfold ofNode?
  rw [hroot, NodeKey.fullText, NodeKey.fullText, h]

end Focus

namespace TestTree

section Keyed

variable {t sub : TestTree} {f : Focus} {n : TestNode}

/-- The focus of a node selects the specs under it; that of a spec, the spec itself. -/
theorem Keyed.selects_of_mem_specs (hkeyed : sub.Keyed) {kind : NodeKind}
    (hf : Focus.ofNode? sub.key kind = some f) (hn : n ∈ sub.specs)
    (hspec : kind = .spec → n.key = sub.key) : f.selects n.key.fullText := by
  obtain ⟨s, hs, rfl, -⟩ := mem_specs.mp hn
  have hselects := Focus.selects_of_covers (hkeyed.covers_of_mem_subtrees hs) hspec
  rw [hf] at hselects
  exact hselects

/-- Among names without blanks, the focus of a node selects the specs of all nodes that share its
names. -/
theorem Keyed.selects_iff (hkeyed : t.Keyed) (hroot : t.key = .root) {key : NodeKey}
    {kind : NodeKind} (hf : Focus.ofNode? key kind = some f) (hkey : key ≠ .root)
    (hunbroken : key.unbroken) (hn : n ∈ t.specs) (hnroot : n.key ≠ .root)
    (hnunbroken : n.key.unbroken) :
    f.selects n.key.fullText ↔ ∃ twin ∈ t.subtrees, twin.key.names = key.names ∧
      n ∈ twin.specs ∧ (kind = .spec → n.key = twin.key) := by
  constructor
  · rw [Focus.selects_ofNode?_iff hf]
    rintro (htext | ⟨hkind, c, rest, hc, htext⟩)
    · have hnames := NodeKey.names_eq_of_fullText_eq hnunbroken hunbroken hnroot hkey htext
      obtain ⟨s, hs, rfl, hspec⟩ := mem_specs.mp hn
      exact ⟨s, hs, hnames, mem_specs.mpr ⟨s, self_mem_subtrees s, rfl, hspec⟩, fun _ => rfl⟩
    · have hnames := NodeKey.names_prefix_of_fullText hunbroken hnunbroken hkey hnroot hc htext
      obtain ⟨above, habove, habovenames, hmem⟩ := hkeyed.exists_above hroot hn hnames
      refine ⟨above, habove, habovenames, hmem, ?_⟩
      rw [hkind]
      exact nofun
  · rintro ⟨twin, htwin, hnames, hmem, hspec⟩
    rw [← Focus.ofNode?_congr hnames] at hf
    exact (hkeyed.of_mem_subtrees htwin).selects_of_mem_specs hf hmem hspec

/-- Among names without blanks, the focus of a node whose names no other node has selects the specs
under it and no others. -/
theorem Keyed.selects_iff_mem (hkeyed : t.Keyed) (hroot : t.key = .root) (hsub : sub ∈ t.subtrees)
    (hf : Focus.ofNode? sub.key sub.info.kind = some f) (hsubroot : sub.key ≠ .root)
    (hunbroken : sub.key.unbroken)
    (halone : ∀ twin ∈ t.subtrees, twin.key.names = sub.key.names → twin.key = sub.key)
    (hleaf : sub.info.kind = .spec → sub.children = []) (hn : n ∈ t.specs)
    (hnroot : n.key ≠ .root) (hnunbroken : n.key.unbroken) :
    f.selects n.key.fullText ↔ n ∈ sub.specs := by
  rw [hkeyed.selects_iff hroot hf hsubroot hunbroken hn hnroot hnunbroken]
  constructor
  · rintro ⟨twin, htwin, hnames, hmem, -⟩
    obtain rfl := hkeyed.eq_of_key_eq htwin hsub (halone twin htwin hnames)
    exact hmem
  · intro hmem
    exact ⟨sub, hsub, rfl, hmem, fun hkind => key_eq_of_mem_specs_leaf (hleaf hkind) hmem⟩

end Keyed

end TestTree

open TestTree

/-- The focus of a node is read as an expression that is found in the text of the node and, for a
container, in all that goes on from there with a blank. So it is found in the specs under the node.
If no name holds a blank, the specs in which it is found are those of the nodes that share the names
of its own, and if there are no others with those names, they are the ones under the node. -/
theorem focus_is_found_along_names (previous : Option TestTree) (o : Outline) (name : String)
    {sub : TestTree} (hsub : sub ∈ (TestTree.merge previous o name).1.subtrees)
    (hroot : sub.key ≠ .root) :
    ∃ f e, Focus.ofNode? sub.key sub.info.kind = some f ∧ Expression.read? f.expression = some e ∧
      (∀ full, e.FoundIn full ↔ full = sub.key.fullText ∨ sub.info.kind = .container ∧
        ∃ c rest, Text.isBlank c ∧ full.toList = sub.key.fullText.toList ++ c :: rest) ∧
      (∀ n ∈ sub.specs, (sub.info.kind = .spec → n.key = sub.key) → e.FoundIn n.key.fullText) ∧
      (sub.key.unbroken → ∀ n ∈ (TestTree.merge previous o name).1.specs, n.key.unbroken →
        (e.FoundIn n.key.fullText ↔ ∃ twin ∈ (TestTree.merge previous o name).1.subtrees,
          twin.key.names = sub.key.names ∧ n ∈ twin.specs ∧
            (sub.info.kind = .spec → n.key = twin.key))) ∧
      (sub.key.unbroken → (∀ n ∈ (TestTree.merge previous o name).1.specs, n.key.unbroken) →
        (∀ twin ∈ (TestTree.merge previous o name).1.subtrees,
          twin.key.names = sub.key.names → twin.key = sub.key) →
        (sub.info.kind = .spec → sub.children = []) →
        ∀ n ∈ (TestTree.merge previous o name).1.specs,
          (e.FoundIn n.key.fullText ↔ n ∈ sub.specs)) := by
  have hkeyed : (TestTree.merge previous o name).1.Keyed := ofOutline_keyed previous o name
  have hfile : (TestTree.merge previous o name).1.key = .root := ofOutline_key previous o name
  obtain ⟨f, hf⟩ := Focus.exists_ofNode? hroot (mt (kind_eq_root_iff hsub).mp hroot)
  have hnroot : ∀ n ∈ (TestTree.merge previous o name).1.specs, n.key ≠ .root := by
    intro n hn hkey
    obtain ⟨s, hs, rfl, hkind⟩ := mem_specs.mp hn
    rw [(kind_eq_root_iff hs).mpr hkey] at hkind
    cases hkind
  refine ⟨f, .ofFocus f, hf, Expression.read?_expression f, fun full => ?_, fun n hn hspec => ?_,
    fun hunbroken n hn hnunbroken => ?_, fun hunbroken hall halone hleaf n hn => ?_⟩
  · rw [Expression.foundIn_ofFocus, Focus.selects_ofNode?_iff hf]
  · rw [Expression.foundIn_ofFocus]
    exact (hkeyed.of_mem_subtrees hsub).selects_of_mem_specs hf hn hspec
  · rw [Expression.foundIn_ofFocus]
    exact hkeyed.selects_iff hfile hf hroot hunbroken hn (hnroot n hn) hnunbroken
  · rw [Expression.foundIn_ofFocus]
    exact hkeyed.selects_iff_mem hfile hsub hf hroot hunbroken halone hleaf hn (hnroot n hn)
      (hall n hn)

theorem focus_is_found_along_names_checkout :
    ∃ sub ∈ (TestTree.merge none .cart "cart_test.go").1.subtrees,
      sub.key = .ofNames ["cart", "checkout"] ∧ sub.key ≠ .root ∧
      ∃ f e, Focus.ofNode? sub.key sub.info.kind = some f ∧
        Expression.read? f.expression = some e ∧
        ∀ n ∈ (TestTree.merge none .cart "cart_test.go").1.specs,
          (e.FoundIn n.key.fullText ↔ n ∈ sub.specs) := by
  have hfound : ((TestTree.merge none .cart "cart_test.go").1.find?
      (.ofNames ["cart", "checkout"])).map (·.info.kind) = some .container := by
    decide +kernel
  obtain ⟨sub, hsub, hkind⟩ := Option.map_eq_some_iff.mp hfound
  obtain ⟨hmem, hkey⟩ := mem_subtrees_of_find? hsub
  have hroot : sub.key ≠ .root := by
    rw [hkey]
    decide
  have hunbroken : sub.key.unbroken := by
    rw [hkey]
    decide +kernel
  have hall : ∀ n ∈ (TestTree.merge none .cart "cart_test.go").1.specs, n.key.unbroken := by
    decide +kernel
  have hnodes : ∀ n ∈ (TestTree.merge none .cart "cart_test.go").1.nodes,
      n.key.names = ["cart", "checkout"] → n.key = .ofNames ["cart", "checkout"] := by
    decide +kernel
  obtain ⟨f, e, hf, hread, -, -, -, hexact⟩ :=
    focus_is_found_along_names none .cart "cart_test.go" hmem hroot
  refine ⟨sub, hmem, hkey, hroot, f, e, hf, hread, hexact hunbroken hall ?_ ?_⟩
  · intro twin htwin hnames
    rw [hkey] at hnames ⊢
    exact hnodes twin.info (info_mem_nodes htwin) hnames
  · rw [hkind]
    exact nofun

/-- The outline of a file with a container and beside it a spec whose name goes on from that of the
container. -/
def Outline.cartTotal : Outline :=
  ⟨[.plain .container "cart" [.plain .spec "adds" []], .plain .spec "cart total" []]⟩

/-- The focus of the container is found in the spec beside it. -/
theorem focus_of_cart_is_found_in_total :
    ∃ sub ∈ (TestTree.merge none .cartTotal "cart_test.go").1.subtrees,
      sub.key = .ofNames ["cart"] ∧ sub.key ≠ .root ∧
      ∃ f e n, Focus.ofNode? sub.key sub.info.kind = some f ∧
        Expression.read? f.expression = some e ∧
        n ∈ (TestTree.merge none .cartTotal "cart_test.go").1.specs ∧
        e.FoundIn n.key.fullText ∧ n ∉ sub.specs := by
  have hfound : ((TestTree.merge none .cartTotal "cart_test.go").1.find? (.ofNames ["cart"])).map
      (fun sub => (sub.info.kind, sub.specs.map (·.key))) =
        some (.container, [.ofNames ["cart", "adds"]]) := by
    decide +kernel
  obtain ⟨sub, hsub, hfacts⟩ := Option.map_eq_some_iff.mp hfound
  obtain ⟨hkind, hspecs⟩ := Prod.mk.inj hfacts
  obtain ⟨hmem, hkey⟩ := mem_subtrees_of_find? hsub
  obtain ⟨n, hn, htotal⟩ : ∃ n ∈ (TestTree.merge none .cartTotal "cart_test.go").1.specs,
      n.key = .ofNames ["cart total"] := by
    decide +kernel
  refine ⟨sub, hmem, hkey, by rw [hkey]; decide, .startingWith "cart",
    .ofFocus (.startingWith "cart"), n, by rw [hkey, hkind]; rfl, Expression.read?_expression _,
    hn, ?_, fun hunder => ?_⟩
  · rw [Expression.foundIn_ofFocus, htotal]
    decide +kernel
  · have hmemkey := List.mem_map_of_mem (f := (·.key)) hunder
    rw [hspecs, htotal] at hmemkey
    revert hmemkey
    decide

end SpecExplorer
