/-
# Ranges stay nested

An editor rejects symbols whose ranges are inverted or leave the range of their parent. The tool
reports byte ranges that are nested: none is inverted, what stands in a node is inside of its
range, and siblings come one after the other. The outline has positions in place of the offsets,
and setup nodes are gone from it, but its ranges are nested in the same sense. Where the offsets
fall plays no role, since positions never go back as offsets grow.
-/
import Mathlib.Data.List.Pairwise
import SpecExplorer.Proofs.Outline.Lifted
import SpecExplorer.Proofs.Text.Places

namespace SpecExplorer

/-- A kind of trees whose nodes cover a range. -/
structure RangedTree (τ α : Type) where
  start : τ → α
  stop : τ → α
  children : τ → List τ

namespace RangedTree

variable {τ α : Type} [LE α] (v : RangedTree τ α)

/-- The range of a node is not inverted, those of its children are inside of it, one after the
other, and so on for each of them. -/
inductive Nested : τ → Prop
  | intro (t : τ) (hle : v.start t ≤ v.stop t)
      (hinside : ∀ u ∈ v.children t, v.start t ≤ v.start u ∧ v.stop u ≤ v.stop t)
      (hordered : (v.children t).Pairwise fun u w => v.stop u ≤ v.start w)
      (hbelow : ∀ u ∈ v.children t, Nested u) : Nested t

/-- The ranges of a forest are nested, and those of the roots come one after the other. -/
structure NestedAll (ts : List τ) : Prop where
  each : ∀ t ∈ ts, v.Nested t
  ordered : ts.Pairwise fun t u => v.stop t ≤ v.start u

theorem NestedAll.singleton {v : RangedTree τ α} {t : τ} (h : v.Nested t) : v.NestedAll [t] :=
  ⟨List.forall_mem_singleton.mpr h, List.pairwise_singleton _ _⟩

end RangedTree

/-- Declarations with their byte ranges. -/
def Declaration.ranged : RangedTree Declaration Nat where
  start d := d.info.start
  stop d := d.info.stop
  children := Declaration.nodes

/-- Nodes of an outline with their ranges of positions. -/
def OutlineNode.ranged : RangedTree OutlineNode Position where
  start n := n.info.range.start
  stop n := n.info.range.stop
  children := OutlineNode.children

namespace Declaration

variable {content : String} {d : Declaration} {ds : List Declaration} {n : OutlineNode}
  {lo hi lo' hi' : Nat}

theorem outlineAll_eq_flatMap (content : String) (ds : List Declaration) :
    outlineAll content ds = ds.flatMap (outline content) := by
  induction ds with
  | nil => rw [outlineAll, List.flatMap_nil]
  | cons d rest ih => rw [outlineAll, List.flatMap_cons, ih]

theorem mem_outlineAll : n ∈ outlineAll content ds ↔ ∃ d ∈ ds, n ∈ outline content d := by
  rw [outlineAll_eq_flatMap, List.mem_flatMap]

/-- The range of a node was made of offsets between two others. -/
def LiesWithin (content : String) (lo hi : Nat) (n : OutlineNode) : Prop :=
  ∃ a b, lo ≤ a ∧ b ≤ hi ∧ n.info.range = ⟨.ofOffset content a, .ofOffset content b⟩

theorem LiesWithin.mono (h : LiesWithin content lo hi n) (hlo : lo' ≤ lo) (hhi : hi ≤ hi') :
    LiesWithin content lo' hi' n := by
  obtain ⟨a, b, ha, hb, hrange⟩ := h
  exact ⟨a, b, Nat.le_trans hlo ha, Nat.le_trans hb hhi, hrange⟩

/-- What is kept of a declaration lies within its range, also where it has moved up out of setup
nodes. -/
theorem liesWithin_of_mem_outline (h : ranged.Nested d) :
    ∀ n ∈ outline content d, LiesWithin content d.info.start d.info.stop n := by
  induction h with
  | intro d hle hinside hordered hbelow ih =>
      intro n hn
      obtain ⟨d, nodes⟩ := d
      rw [outline] at hn
      split at hn
      next =>
          rw [List.mem_singleton.mp hn]
          exact ⟨d.start, d.stop, Nat.le_refl _, Nat.le_refl _, rfl⟩
      next =>
          rw [List.mem_singleton.mp hn]
          exact ⟨d.start, d.stop, Nat.le_refl _, Nat.le_refl _, rfl⟩
      next =>
          obtain ⟨c, hc, hn⟩ := mem_outlineAll.mp hn
          exact (ih c hc n hn).mono (hinside c hc).1 (hinside c hc).2

section Fits

variable (hfits : ∀ offset, (Text.placeOf content offset).Fits)

include hfits

/-- What is kept of declarations one after the other comes one after the other. -/
theorem nestedAll_outlineAll (hnested : ranged.NestedAll ds)
    (h : ∀ d ∈ ds, OutlineNode.ranged.NestedAll (outline content d)) :
    OutlineNode.ranged.NestedAll (outlineAll content ds) where
  each n hn := by
    obtain ⟨d, hd, hn⟩ := mem_outlineAll.mp hn
    exact (h d hd).each n hn
  ordered := by
    rw [outlineAll_eq_flatMap, List.pairwise_flatMap]
    refine ⟨fun d hd => (h d hd).ordered, hnested.ordered.imp_of_mem ?_⟩
    intro d d' hd hd' hle n hn n' hn'
    obtain ⟨a, b, -, hb, hrange⟩ := liesWithin_of_mem_outline (hnested.each d hd) n hn
    obtain ⟨a', b', ha', -, hrange'⟩ := liesWithin_of_mem_outline (hnested.each d' hd') n' hn'
    have hoffsets : b ≤ a' := Nat.le_trans hb (Nat.le_trans hle ha')
    simpa only [OutlineNode.ranged, hrange, hrange'] using
      Position.ofOffset_le_ofOffset hfits hoffsets

/-- The content of a container stays inside of its range. -/
theorem nested_container {info : OutlineInfo} {lo hi : Nat}
    (hrange : info.range = ⟨.ofOffset content lo, .ofOffset content hi⟩) (hle : lo ≤ hi)
    {children : List OutlineNode} (hall : OutlineNode.ranged.NestedAll children)
    (hwithin : ∀ n ∈ children, LiesWithin content lo hi n) :
    OutlineNode.ranged.Nested (.node info children) := by
  have hmono {a b : Nat} : a ≤ b → Position.ofOffset content a ≤ Position.ofOffset content b :=
    Position.ofOffset_le_ofOffset hfits
  refine .intro _ ?_ ?_ hall.ordered hall.each
  · simpa only [OutlineNode.ranged, OutlineNode.info, hrange] using hmono hle
  · intro n hn
    obtain ⟨a, b, ha, hb, hrange'⟩ := hwithin n hn
    simp only [OutlineNode.ranged, hrange']
    simpa only [OutlineNode.info, hrange] using ⟨hmono ha, hmono hb⟩

theorem nestedAll_outline (h : ranged.Nested d) :
    OutlineNode.ranged.NestedAll (outline content d) := by
  induction h with
  | intro d hle hinside hordered hbelow ih =>
      obtain ⟨d, nodes⟩ := d
      have hall := nestedAll_outlineAll hfits ⟨hbelow, hordered⟩ ih
      have hwithin : ∀ n ∈ outlineAll content nodes, LiesWithin content d.start d.stop n := by
        intro n hn
        obtain ⟨c, hc, hn⟩ := mem_outlineAll.mp hn
        exact (liesWithin_of_mem_outline (hbelow c hc) n hn).mono (hinside c hc).1 (hinside c hc).2
      rw [outline]
      split
      next => exact .singleton (nested_container hfits rfl hle hall hwithin)
      next =>
          have hnone : OutlineNode.ranged.NestedAll [] := ⟨List.forall_mem_nil _, .nil⟩
          exact .singleton (nested_container hfits rfl hle hnone (List.forall_mem_nil _))
      next => exact hall

end Fits

end Declaration

namespace Outline

/-- In a text whose lines and columns fit in 32 bits, later offsets have later positions, and the
outline of any report whose byte ranges are nested has nested ranges itself. -/
theorem ranges_stay_nested (content : String)
    (hfits : ∀ offset, (Text.placeOf content offset).Fits) :
    (∀ offset offset', offset ≤ offset' →
        Position.ofOffset content offset ≤ Position.ofOffset content offset') ∧
      ∀ ds, Declaration.ranged.NestedAll ds →
        OutlineNode.ranged.NestedAll (ofDeclarations content ds).roots :=
  ⟨fun _ _ => Position.ofOffset_le_ofOffset hfits, fun _ hnested =>
    Declaration.nestedAll_outlineAll hfits hnested fun d hd =>
      Declaration.nestedAll_outline hfits (hnested.each d hd)⟩

/-- A node with a byte range. -/
def spanned (function : String) (start stop : Nat) (nodes : List Declaration) : Declaration :=
  .node ⟨function, "", start, stop, false, false, false, []⟩ nodes

/-- A setup node with two containers. The ranges start and stop inside of characters, between a
carriage return and its line feed, and past the end of the text. -/
def crossing : List Declaration :=
  [spanned "BeforeAll" 0 100
    [spanned "Describe" 1 6 [spanned "It" 3 4 []], spanned "Context" 6 99 [spanned "It" 7 98 []]]]

theorem crossing_nested : Declaration.ranged.NestedAll crossing := by
  have hit (start stop : Nat) (h : start ≤ stop) :
      Declaration.ranged.Nested (spanned "It" start stop []) :=
    .intro _ h nofun .nil nofun
  have hsingle {function : String} {start stop : Nat} {d : Declaration} (hle : start ≤ stop)
      (hinside : start ≤ d.info.start ∧ d.info.stop ≤ stop) (hd : Declaration.ranged.Nested d) :
      Declaration.ranged.Nested (spanned function start stop [d]) :=
    .intro _ hle (List.forall_mem_singleton.mpr hinside) (List.pairwise_singleton _ _)
      (List.forall_mem_singleton.mpr hd)
  refine .singleton (.intro _ (by decide) ?_ ?_ ?_)
  · simp [Declaration.ranged, Declaration.nodes, Declaration.info, spanned]
  · simp [Declaration.ranged, Declaration.nodes, Declaration.info, spanned]
  · refine List.forall_mem_cons.mpr ⟨?_, List.forall_mem_singleton.mpr ?_⟩
    · exact hsingle (by decide) (by decide) (hit 3 4 (by decide))
    · exact hsingle (by decide) (by decide) (hit 7 98 (by decide))

theorem ranges_stay_nested_crossing :
    (∀ offset, (Text.placeOf "é😀\r\nx" offset).Fits) ∧ Declaration.ranged.NestedAll crossing ∧
      OutlineNode.ranged.NestedAll (ofDeclarations "é😀\r\nx" crossing).roots := by
  have hsize : "é😀\r\nx".utf8ByteSize < 2 ^ 32 := by decide
  have hfits := Text.fits_of_size_lt hsize
  exact ⟨hfits, crossing_nested, (ranges_stay_nested _ hfits).2 crossing crossing_nested⟩

end Outline

end SpecExplorer
