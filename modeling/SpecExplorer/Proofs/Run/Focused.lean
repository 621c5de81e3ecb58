/-
# Focused runs

The run of a node is narrowed by a focus, which is a pattern on full texts and knows nothing of
ordinals. It selects every spec under the node, and besides, every other spec of the file whose
text it matches. The records of those come in source order too, and a session attributes them to
the specs of its scope. So a spec under the node shows the outcome of the spec that has its place
among all of its name path in the file, which is its own where no such spec stands before the node.
-/
import SpecExplorer.Proofs.Run.Act
import SpecExplorer.Proofs.Run.Attribution
import SpecExplorer.Run.Focus

namespace SpecExplorer

open TestTree

/-! ### What a focus selects -/

namespace NodeKey

theorem names_eq_of_covers {a b : NodeKey} (h : a.covers b) :
    ∃ rest, b.names = a.names ++ rest := by
  obtain ⟨rest, hrest⟩ := covers_iff.mp h
  exact ⟨rest.map (·.name), by rw [names, names, ← hrest, List.map_append]⟩

/-- The full text of a key extends that of a key above it by whole names. -/
theorem fullText_of_covers {a b : NodeKey} (h : a.covers b) (hroot : a.isRoot = false) :
    b.fullText = a.fullText ∨ ∃ rest, b.fullText = a.fullText ++ " " ++ rest := by
  obtain ⟨rest, hrest⟩ := names_eq_of_covers h
  have hne : a.names ≠ [] := by simpa [names, isRoot] using hroot
  rw [fullText, hrest]
  by_cases hnil : rest = []
  · rw [hnil, List.append_nil]
    exact .inl rfl
  · exact .inr ⟨_, String.intercalate_append_of_ne_nil hne hnil⟩

end NodeKey

namespace Focus

theorem selects_startingWith_self (text : String) : (startingWith text).selects text := by
  simp [selects]

theorem selects_startingWith_append (text rest : String) :
    (startingWith text).selects (text ++ " " ++ rest) := by
  have hblank : (" ".toList ++ rest.toList).head?.all Text.isBlank := rfl
  rw [selects, String.toList_append, String.toList_append, List.append_assoc, List.drop_left,
    hblank, Bool.and_true, List.isPrefixOf_iff_prefix]
  exact List.prefix_append _ _

/-- The focus of a node selects every text below it. -/
theorem selects_of_covers {key : NodeKey} {kind : NodeKind} {below : NodeKey}
    (hcovers : key.covers below) (hspec : kind = .spec → below = key) :
    (ofNode? key kind).all (·.selects below.fullText) := by
  unfold ofNode?
  split
  next => rfl
  next hroot =>
      cases kind with
      | root => rfl
      | spec => simp [hspec rfl, selects]
      | container =>
          rw [Option.all_some]
          rcases NodeKey.fullText_of_covers hcovers (by simpa using hroot) with heq | ⟨rest, heq⟩
          · rw [heq]
            exact selects_startingWith_self _
          · rw [heq]
            exact selects_startingWith_append _ rest

end Focus

namespace TestTree

/-- The specs of a tree that a focus selects, all of them where there is none, in source order. -/
def focused (focus : Option Focus) (t : TestTree) : List TestNode :=
  t.specs.filter fun n => focus.all (·.selects n.key.fullText)

/-- A focus selects all specs of a name path or none. -/
theorem focused_filter_names {focus : Option Focus} {names : List String}
    (h : focus.all (·.selects (String.intercalate " " names))) (t : TestTree) :
    (t.focused focus).filter (·.key.names == names) = t.specsNamed names := by
  rw [focused, specsNamed, List.filter_filter]
  refine List.filter_congr fun n _ => ?_
  by_cases hnames : n.key.names = names
  · simp [hnames, NodeKey.fullText, h]
  · simp [hnames]

/-- The nodes of a subtree stand next to each other in those of the tree. -/
theorem nodes_infix_of_mem_subtrees {s t : TestTree} (hs : s ∈ t.subtrees) :
    s.nodes <:+: t.nodes := by
  induction t with
  | node info children ih =>
      rcases mem_subtrees_node.mp hs with rfl | ⟨c, hc, hsc⟩
      · exact List.infix_rfl
      · obtain ⟨before, after, rfl⟩ := List.append_of_mem hc
        refine (ih c hc hsc).trans ⟨info :: before.flatMap nodes, after.flatMap nodes, ?_⟩
        simp

/-- A tree has at least as many specs of a name path as a subtree. -/
theorem length_specsNamed_le {s t : TestTree} (hs : s ∈ t.subtrees) (names : List String) :
    (s.specsNamed names).length ≤ (t.specsNamed names).length :=
  (((nodes_infix_of_mem_subtrees hs).filter _).filter _).length_le

/-- At and under a leaf there is no spec but the leaf. -/
theorem key_eq_of_mem_specs_leaf {s : TestTree} (hleaf : s.children = []) {n : TestNode}
    (hn : n ∈ s.specs) : n.key = s.key := by
  cases s with
  | node info children =>
      obtain rfl : children = [] := hleaf
      have hmem := mem_nodes_of_mem_specs hn
      rw [nodes_node, List.flatMap_nil, List.mem_singleton] at hmem
      rw [hmem, key_node]

/-- Where specs are leaves, the specs at and under a spec are that spec alone. -/
theorem key_eq_of_mem_specs_spec {s : TestTree} (hleaf : s.SpecsAreLeaves)
    (hkind : s.info.kind = .spec) {n : TestNode} (hn : n ∈ s.specs) : n.key = s.key :=
  key_eq_of_mem_specs_leaf (hleaf s (self_mem_subtrees s) hkind) hn

end TestTree

namespace RunSession

/-! ### Reports of a runner -/

/-- What an event reports of the specs of a file: a name path and a final result. -/
def report? (file : String) : RunEvent → Option (List String × RunResult)
  | .record (.spec r) =>
    if r.fileName?.all (· == file) then r.status?.map fun status => (r.names, r.result status)
    else none
  | _ => none

theorem outcome?_eq_report? (file : String) (names : List String) (e : RunEvent) :
    outcome? file names e =
      (report? file e).bind fun p => if p.1 = names then some p.2 else none := by
  cases e with
  | record record =>
      cases record with
      | suite r => rfl
      | spec r =>
          unfold outcome? report?
          by_cases hown : r.fileName?.all (· == file)
          · cases hstatus : r.status? with
            | none => simp [hstatus]
            | some status => by_cases hnames : r.names = names <;> simp [hown, hnames, hstatus]
          · simp [hown]
  | started | malformed | output | exited => rfl

/-- A runner that reports the outcomes of specs in order reports those of each name path in
order. -/
theorem outcomes_of_reports {file : String} {events : List RunEvent} {ns : List TestNode}
    {outcome : NodeKey → RunResult}
    (h : events.filterMap (report? file) = ns.map fun n => (n.key.names, outcome n.key))
    (names : List String) :
    outcomes file names events =
      (ns.filter (·.key.names == names)).map fun n => outcome n.key := by
  have houtcomes : outcomes file names events = (events.filterMap (report? file)).filterMap
      fun p => if p.1 = names then some p.2 else none := by
    rw [outcomes, List.filterMap_filterMap]
    exact List.filterMap_congr fun e _ => outcome?_eq_report? file names e
  rw [houtcomes, h, List.filterMap_map, ← List.filterMap_eq_map, List.filterMap_filter]
  refine List.filterMap_congr fun n _ => ?_
  by_cases hnames : n.key.names = names <;> simp [hnames]

section Run

variable {t sub : TestTree} {key : NodeKey} (hkeyed : t.Keyed) (hleaves : t.SpecsAreLeaves)

include hkeyed hleaves

/-- The specs that a run of a whole scope has outcomes for show them after the exit. -/
theorem exists_node_play (hkey : t.find? key = some sub) (run : RunId) {before : List RunEvent}
    (hbefore : before.any isExit = false) (success : Bool) (code : Option Int)
    {names : List String} {i : Nat} {n : TestNode} (hn : (sub.specsNamed names)[i]? = some n)
    {r : RunResult} (hr : (outcomes t.info.name names before)[i]? = some r) :
    ∃ x, (play t key run (before ++ [.exited success code])).2.node? n.key = some x ∧
      Shows key (printed before) x r := by
  have hstart := Attributed.start hkeyed hleaves hkey run
  obtain ⟨sub₁, h₁, -, hscope, hopen⟩ :=
    hstart.applyAll (keeps_showsSoFar _) before (.inr hbefore)
  obtain ⟨sub₂, h₂, -⟩ := h₁.exit hopen success code
  obtain ⟨x, hx, hshown⟩ := h₂.exists_node hn
  refine ⟨x, ?_, ?_⟩
  · rw [play, applyAll_append]
    exact hx
  · rw [outcomes_append_singleton] at hshown
    rw [hscope, List.nil_append, show outcome? t.info.name names (.exited success code) = none from
      rfl, Option.toList_none, List.append_nil, hr] at hshown
    exact hshown

/-- The focus of a node selects the specs of each name path under the node. -/
theorem outcomes_of_focused (hkey : t.find? key = some sub) {events : List RunEvent}
    {outcome : NodeKey → RunResult}
    (hreports : events.filterMap (report? t.info.name) =
      (t.focused (Focus.ofNode? key sub.info.kind)).map fun n => (n.key.names, outcome n.key))
    {names : List String} {n : TestNode} (hn : n ∈ sub.specsNamed names) :
    outcomes t.info.name names events = (t.specsNamed names).map fun m => outcome m.key := by
  obtain ⟨hmem, rfl⟩ := mem_subtrees_of_find? hkey
  obtain ⟨hspec, hnames⟩ := mem_specsNamed.mp hn
  obtain ⟨y, hy, rfl⟩ := mem_nodes.mp (mem_nodes_of_mem_specs hspec)
  have hcovers : sub.key.covers y.key := (hkeyed.of_mem_subtrees hmem).covers_of_mem_subtrees hy
  have hselects := Focus.selects_of_covers hcovers fun hkind =>
    key_eq_of_mem_specs_spec (hleaves.of_mem_subtrees hmem) hkind hspec
  rw [NodeKey.fullText, show y.key.names = names from hnames] at hselects
  rw [outcomes_of_reports hreports, focused_filter_names hselects]

/-- The specs outside a scope are as they were after any run over it. -/
theorem node?_play_of_outside (hroot : t.key = .root) (hkey : t.contains key) (run : RunId)
    (events : List RunEvent) {m : TestNode} (hm : m ∈ t.specs) (houtside : ¬ key.covers m.key) :
    (play t key run events).2.node? m.key = some m := by
  obtain ⟨sub, hsub, hsubkey⟩ := contains_iff.mp hkey
  obtain ⟨x, hx, rfl⟩ := mem_nodes.mp (mem_nodes_of_mem_specs hm)
  have hspec : x.info.kind = .spec := kind_of_mem_specs hm
  -- A spec has nothing below it, so it is not above the scope either.
  have habove : ¬ x.key.covers key := by
    intro hcovers
    rw [← hsubkey] at hcovers houtside
    have hbelow := hkeyed.mem_subtrees_of_covers hx hsub hcovers
    have hnil := hleaves x hx hspec
    cases x with
    | node info children =>
        obtain rfl : children = [] := hnil
        rw [subtrees_node, List.flatMap_nil, List.mem_singleton] at hbelow
        rw [hbelow] at houtside
        exact houtside (NodeKey.covers_refl _)
  have hplayed := mem_subtrees_play hkeyed hroot hx houtside habove run events
  have hkeyed' := hkeyed.of_frame_eq (play_frame t key run events)
  have hfound := hkeyed'.find?_key hplayed
  rw [node?, show x.info.key = x.key from rfl, hfound, Option.map_some]

end Run

/-- The run of a node settles its specs in the order of the file. If its runner reports the
outcome of every spec that the focus of the node selects, in source order, then after the exit each
spec under the node shows the outcome of the spec that has its place among those of its name path
in the file. That is its own outcome where the specs of the name path under the node are the first
ones in the file. The specs outside the node are as they were. -/
theorem focused_run_settles_specs_by_place (previous : Option TestTree) {o : Outline}
    (hleaves : o.SpecsAreLeaves) (name : String) {key : NodeKey} {sub : TestTree}
    (hkey : (TestTree.merge previous o name).1.find? key = some sub) (run : RunId)
    {before : List RunEvent} (hbefore : before.any isExit = false)
    {outcome : NodeKey → RunResult}
    (hreports : before.filterMap (report? name) =
      ((TestTree.merge previous o name).1.focused (Focus.ofNode? key sub.info.kind)).map
        fun n => (n.key.names, outcome n.key))
    (success : Bool) (code : Option Int) :
    (∀ names (i : Nat) n, (sub.specsNamed names)[i]? = some n → ∃ m x,
      ((TestTree.merge previous o name).1.specsNamed names)[i]? = some m ∧
      (sub.specsNamed names <+: (TestTree.merge previous o name).1.specsNamed names → m = n) ∧
      (play (TestTree.merge previous o name).1 key run
        (before ++ [.exited success code])).2.node? n.key = some x ∧
      Shows key (printed before) x (outcome m.key)) ∧
    ∀ m ∈ (TestTree.merge previous o name).1.specs, ¬ key.covers m.key →
      (play (TestTree.merge previous o name).1 key run
        (before ++ [.exited success code])).2.node? m.key = some m := by
  have hkeyed : (TestTree.merge previous o name).1.Keyed := ofOutline_keyed previous o name
  have hspecs : (TestTree.merge previous o name).1.SpecsAreLeaves :=
    ofOutline_specsAreLeaves previous hleaves name
  have hname : (TestTree.merge previous o name).1.info.name = name := TestNode.carry_name _ _
  refine ⟨fun names i n hn => ?_, fun m hm houtside => ?_⟩
  · have hmem := List.mem_of_getElem? hn
    have houtcomes := outcomes_of_focused hkeyed hspecs hkey (by rwa [hname]) hmem
    have hlt : i < ((TestTree.merge previous o name).1.specsNamed names).length :=
      Nat.lt_of_lt_of_le (List.getElem?_eq_some_iff.mp hn).1
        (length_specsNamed_le (mem_subtrees_of_find? hkey).1 names)
    obtain ⟨m, hm⟩ : ∃ m, ((TestTree.merge previous o name).1.specsNamed names)[i]? = some m :=
      ⟨_, List.getElem?_eq_getElem hlt⟩
    obtain ⟨x, hx, hshown⟩ := exists_node_play hkeyed hspecs hkey run hbefore success code hn
      (r := outcome m.key) (by rw [houtcomes, List.getElem?_map, hm, Option.map_some])
    refine ⟨m, x, hm, fun hfirst => ?_, hx, hshown⟩
    obtain ⟨hi, rfl⟩ := List.getElem?_eq_some_iff.mp hn
    exact Option.some.inj (hm.symm.trans (List.prefix_iff_getElem?.mp hfirst i hi))
  · exact node?_play_of_outside hkeyed hspecs (ofOutline_key previous o name)
      (contains_of_find? hkey) run _ hm houtside

/-- A run in which every spec of the cart that shares a name path with another is reported, the
first as passed and the second as failed. -/
def twinRecords : List RunEvent :=
  [.started, .record (.spec ⟨["cart"], "adds", "passed", none, none, none, none⟩),
    .record (.spec ⟨["cart"], "adds", "failed", none, none, none, none⟩)]

/-- The second of the two specs of one name path. -/
def secondAdds : NodeKey := (NodeKey.ofNames ["cart"]).child "adds" 1

def cartOutcome (key : NodeKey) : RunResult :=
  .ofStatus (if key = secondAdds then .failed else .passed)

/-- The focus of the second spec of a name path selects the first one too, and the second then
shows the outcome of the first. -/
theorem focused_run_of_second_shows_first :
    twinRecords.any isExit = false ∧
      twinRecords.filterMap (report? "cart_test.go") =
        ((TestTree.merge none .cart "cart_test.go").1.focused
          (Focus.ofNode? secondAdds .spec)).map (fun n => (n.key.names, cartOutcome n.key)) ∧
      ∃ x, (play (TestTree.merge none .cart "cart_test.go").1 secondAdds 7
          (twinRecords ++ [.exited true (some 0)])).2.node? secondAdds = some x ∧
        x.kind = .spec ∧ ¬ Shows secondAdds (printed twinRecords) x (cartOutcome secondAdds) := by
  refine ⟨rfl, by decide +kernel, ?_⟩
  have hshown : ((play (TestTree.merge none .cart "cart_test.go").1 secondAdds 7
      (twinRecords ++ [.exited true (some 0)])).2.node? secondAdds).map
        (fun x => (x.kind, x.result)) = some (.spec, some (.ofStatus .passed)) := by
    decide +kernel
  obtain ⟨x, hx, hfacts⟩ := Option.map_eq_some_iff.mp hshown
  obtain ⟨hkind, hresult⟩ := Prod.mk.inj hfacts
  refine ⟨x, hx, hkind, ?_⟩
  rintro (hown | ⟨-, -, hprinted, -⟩)
  · rw [hresult] at hown
    revert hown
    decide
  · exact hprinted rfl

/-- A run of the whole cart in which every spec is reported. -/
def cartReports : List RunEvent :=
  twinRecords ++
    [.record (.spec ⟨["cart", "checkout"], "pays", "passed", none, none, none, none⟩)]

theorem focused_run_settles_specs_by_place_cart :
    Outline.cart.SpecsAreLeaves ∧ cartReports.any isExit = false ∧
      ∃ sub n x, (TestTree.merge none .cart "cart_test.go").1.find? (.ofNames ["cart"]) = some sub ∧
        cartReports.filterMap (report? "cart_test.go") =
          ((TestTree.merge none .cart "cart_test.go").1.focused
            (Focus.ofNode? (.ofNames ["cart"]) sub.info.kind)).map
              (fun n => (n.key.names, cartOutcome n.key)) ∧
        (sub.specsNamed ["cart", "adds"])[1]? = some n ∧
        (play (TestTree.merge none .cart "cart_test.go").1 (.ofNames ["cart"]) 7
          (cartReports ++ [.exited false (some 1)])).2.node? n.key = some x ∧
        Shows (.ofNames ["cart"]) [] x (cartOutcome n.key) := by
  have hsub : ((TestTree.merge none .cart "cart_test.go").1.find? (.ofNames ["cart"])).map
      (fun sub => (sub.info.kind, sub.specsNamed ["cart", "adds"])) =
        some (.container, (TestTree.merge none .cart "cart_test.go").1.specsNamed
          ["cart", "adds"]) := by
    decide +kernel
  obtain ⟨sub, hsub, hfacts⟩ := Option.map_eq_some_iff.mp hsub
  obtain ⟨hkind, hspecs⟩ := Prod.mk.inj hfacts
  have hreports : cartReports.filterMap (report? "cart_test.go") =
      ((TestTree.merge none .cart "cart_test.go").1.focused
        (Focus.ofNode? (.ofNames ["cart"]) sub.info.kind)).map
          (fun n => (n.key.names, cartOutcome n.key)) := by
    rw [hkind]
    decide +kernel
  obtain ⟨n, hn⟩ : ∃ n, (sub.specsNamed ["cart", "adds"])[1]? = some n := by
    rw [hspecs, ← Option.isSome_iff_exists]
    decide +kernel
  obtain ⟨m, x, hm, hown, hx, hshown⟩ := (focused_run_settles_specs_by_place none
    Outline.cart_specsAreLeaves "cart_test.go" hsub 7 rfl hreports false (some 1)).1 _ 1 n hn
  obtain rfl := hown (hspecs ▸ List.prefix_refl _)
  exact ⟨Outline.cart_specsAreLeaves, rfl, sub, m, x, hsub, hreports, hn, hx, hshown⟩

end RunSession

end SpecExplorer
