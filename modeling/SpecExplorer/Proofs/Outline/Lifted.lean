/-
# What an outline keeps

The tool reports setup nodes of all kinds between the containers and the specs, and more of them
inside the specs. An outline keeps the containers and the specs that stand in no spec. Where a
setup node is left out, what stood in it moves up to where it stood, however deep that was.

Nodes are told apart by their addresses, since two of them may read the same. The main statement
has a map from the addresses of the outline to those of the report. It meets every node that has
to be kept, goes along with the order of the document, so that no node is met twice, and takes the
parent of a node to the nearest container above.
-/
import Mathlib.Data.List.Basic
import SpecExplorer.Outline.Decode

namespace SpecExplorer

/-! ### Forests and addresses -/

/-- Where a node stands in a forest: its place among the roots or the children of another node,
after the address of that node. The empty address stands for what is above all roots. Addresses
come in the order of the document: a node, then all that is below it, then its next sibling. -/
abbrev Address := List Nat

namespace Address

/-- One node is somewhere above another. -/
def IsAbove (p a : Address) : Prop := p <+: a ∧ p ≠ a

/-- The same place with one more root in front. -/
def next : Address → Address
  | [] => []
  | i :: a => (i + 1) :: a

theorem nil_lt {a : Address} (h : a ≠ []) : [] < a := by
  cases a with
  | nil => exact absurd rfl h
  | cons i a => exact List.nil_lt_cons i a

theorem next_lt_next {a b : Address} (h : a < b) : a.next < b.next := by
  match a, b with
  | [], [] => exact h
  | [], j :: b => exact List.nil_lt_cons (j + 1) b
  | i :: a, [] => exact absurd h (List.not_lt_nil _)
  | i :: a, j :: b =>
      rw [List.cons_lt_cons_iff] at h
      rw [next, next, List.cons_lt_cons_iff]
      exact h.imp Nat.succ_lt_succ (And.imp_left (congrArg Nat.succ))

theorem not_isAbove_nil (p : Address) : ¬ p.IsAbove [] :=
  fun h => h.2 (List.prefix_nil.mp h.1)

theorem isAbove_cons {p a : Address} {i : Nat} :
    p.IsAbove (i :: a) ↔ p = [] ∨ ∃ q : Address, p = i :: q ∧ q.IsAbove a := by
  constructor
  · rintro ⟨hbegins, hne⟩
    rcases List.prefix_cons_iff.mp hbegins with rfl | ⟨q, rfl, hq⟩
    · exact .inl rfl
    · exact .inr ⟨q, rfl, hq, fun heq => hne (heq ▸ rfl)⟩
  · rintro (rfl | ⟨q, rfl, hq, hne⟩)
    · exact ⟨List.nil_prefix, nofun⟩
    · exact ⟨List.cons_prefix_cons.mpr ⟨rfl, hq⟩, fun heq => hne (List.cons.inj heq).2⟩

theorem isAbove_next {p a : Address} :
    p.IsAbove a.next ↔ ∃ q : Address, p = q.next ∧ q.IsAbove a := by
  cases a with
  | nil => simp [next, not_isAbove_nil]
  | cons i a =>
      rw [next, isAbove_cons]
      constructor
      · rintro (rfl | ⟨q, rfl, hq⟩)
        · exact ⟨[], rfl, isAbove_cons.mpr (.inl rfl)⟩
        · exact ⟨i :: q, rfl, isAbove_cons.mpr (.inr ⟨q, rfl, hq⟩)⟩
      · rintro ⟨q, rfl, hq⟩
        rcases isAbove_cons.mp hq with rfl | ⟨q', rfl, hq'⟩
        · exact .inl rfl
        · exact .inr ⟨q', rfl, hq'⟩

end Address

section Lookup

variable {τ : Type} (children : τ → List τ)

/-- The node at an address. -/
def nodeAt? : List τ → Address → Option τ
  | _, [] => none
  | ts, i :: a => ts[i]?.bind fun t => if a = [] then some t else nodeAt? (children t) a

variable {children} {t : τ} {ts us : List τ} {a : Address} {i : Nat}

@[simp] theorem nodeAt?_nil_right : nodeAt? children ts [] = none := by
  rw [nodeAt?]

@[simp] theorem nodeAt?_nil_left : nodeAt? children [] a = none := by
  cases a <;> simp [nodeAt?]

@[simp] theorem nodeAt?_cons_zero :
    nodeAt? children (t :: ts) (0 :: a) =
      if a = [] then some t else nodeAt? children (children t) a := by
  simp [nodeAt?]

@[simp] theorem nodeAt?_cons_succ :
    nodeAt? children (t :: ts) ((i + 1) :: a) = nodeAt? children ts (i :: a) := by
  simp [nodeAt?]

theorem nodeAt?_next : nodeAt? children (t :: ts) a.next = nodeAt? children ts a := by
  cases a <;> simp [Address.next]

theorem nodeAt?_append :
    nodeAt? children (ts ++ us) (i :: a) =
      if i < ts.length then nodeAt? children ts (i :: a)
      else nodeAt? children us ((i - ts.length) :: a) := by
  rw [nodeAt?, nodeAt?, nodeAt?, List.getElem?_append]
  split <;> rfl

theorem nodeAt?_singleton {u : τ} : nodeAt? children [t] a = some u ↔
    ∃ b : Address, a = 0 :: b ∧ (b = [] ∧ t = u ∨ nodeAt? children (children t) b = some u) := by
  constructor
  · intro h
    match a with
    | [] => simp at h
    | 0 :: b =>
        refine ⟨b, rfl, ?_⟩
        by_cases hb : b = [] <;> simp_all
    | (i + 1) :: b => simp at h
  · rintro ⟨b, rfl, ⟨rfl, rfl⟩ | h⟩
    · simp
    · have hb : b ≠ [] := by
        rintro rfl
        simp at h
      simp [hb, h]

theorem ne_nil_of_nodeAt? (h : nodeAt? children ts a = some t) : a ≠ [] := by
  rintro rfl
  rw [nodeAt?_nil_right] at h
  cases h

theorem lt_length_of_nodeAt? (h : nodeAt? children ts (i :: a) = some t) : i < ts.length := by
  rw [nodeAt?] at h
  obtain ⟨u, hu, -⟩ := Option.bind_eq_some_iff.mp h
  exact (List.getElem?_eq_some_iff.mp hu).1

end Lookup

/-! ### Declarations above others -/

namespace Declaration

def info : Declaration → DeclarationInfo
  | .node d _ => d

def nodes : Declaration → List Declaration
  | .node _ nodes => nodes

/-- What the declaration at an address counts as. -/
def kindAt? (ds : List Declaration) (a : Address) : Option OutlineKind :=
  (nodeAt? nodes ds a).bind fun d => d.info.kind?

/-- Some declaration above an address is a spec. -/
def InSpec (ds : List Declaration) (a : Address) : Prop :=
  ∃ q : Address, q.IsAbove a ∧ kindAt? ds q = some .spec

/-- The innermost container above an address. The empty address says that there is none. -/
structure NearestContainer (ds : List Declaration) (p a : Address) : Prop where
  above : p.IsAbove a
  container : p = [] ∨ kindAt? ds p = some .container
  nearest : ∀ q : Address, q.IsAbove a → kindAt? ds q = some .container → q <+: p

variable {d : DeclarationInfo} {nodes ds : List Declaration} {first : Declaration}
  {p a : Address} {i : Nat}

@[simp] theorem kindAt?_nil : kindAt? ds [] = none := by
  simp [kindAt?]

@[simp] theorem kindAt?_root : kindAt? (.node d nodes :: ds) [0] = d.kind? := by
  simp [kindAt?, info]

theorem ne_nil_of_kindAt? {k : OutlineKind} (h : kindAt? ds a = some k) : a ≠ [] := by
  rintro rfl
  rw [kindAt?_nil] at h
  cases h

theorem kindAt?_below (h : a ≠ []) :
    kindAt? (.node d nodes :: ds) (0 :: a) = kindAt? nodes a := by
  simp [kindAt?, h, Declaration.nodes]

theorem kindAt?_zero : kindAt? (first :: ds) (0 :: a) = kindAt? [first] (0 :: a) := by
  simp [kindAt?]

@[simp] theorem kindAt?_next : kindAt? (first :: ds) a.next = kindAt? ds a := by
  cases a <;> simp [kindAt?, Address.next]

/-- What counts as something in a single root is the root or something below the root. -/
theorem eq_root_or_below {k : OutlineKind} (h : kindAt? [.node d nodes] a = some k) :
    a = [0] ∧ d.kind? = some k ∨ ∃ b : Address, a = 0 :: b ∧ kindAt? nodes b = some k := by
  obtain ⟨d', hd', hk⟩ := Option.bind_eq_some_iff.mp h
  obtain ⟨b, rfl, ⟨rfl, rfl⟩ | hd'⟩ := nodeAt?_singleton.mp hd'
  · exact .inl ⟨rfl, hk⟩
  · exact .inr ⟨b, rfl, Option.bind_eq_some_iff.mpr ⟨d', hd', hk⟩⟩

/-- What stands above a node that is not a root is the root or something below the root. -/
theorem exists_above {q : Address} {k : OutlineKind} (hq : q.IsAbove (0 :: a))
    (hk : kindAt? (.node d nodes :: ds) q = some k) :
    q = [0] ∧ a ≠ [] ∧ d.kind? = some k ∨
      ∃ q' : Address, q = 0 :: q' ∧ q'.IsAbove a ∧ kindAt? nodes q' = some k := by
  rcases Address.isAbove_cons.mp hq with rfl | ⟨q', rfl, hq'⟩
  · exact absurd rfl (ne_nil_of_kindAt? hk)
  · by_cases hnil : q' = []
    · subst hnil
      rw [kindAt?_root] at hk
      refine .inl ⟨rfl, ?_, hk⟩
      rintro rfl
      exact Address.not_isAbove_nil _ hq'
    · rw [kindAt?_below hnil] at hk
      exact .inr ⟨q', rfl, hq', hk⟩

theorem inSpec_below (h : a ≠ []) :
    InSpec (.node d nodes :: ds) (0 :: a) ↔ d.kind? = some .spec ∨ InSpec nodes a := by
  constructor
  · rintro ⟨q, hq, hk⟩
    rcases exists_above hq hk with ⟨-, -, hk⟩ | ⟨q', -, hq', hk⟩
    · exact .inl hk
    · exact .inr ⟨q', hq', hk⟩
  · rintro (hk | ⟨q, hq, hk⟩)
    · exact ⟨[0], Address.isAbove_cons.mpr (.inr ⟨[], rfl, List.nil_prefix, h.symm⟩), by simpa⟩
    · refine ⟨0 :: q, Address.isAbove_cons.mpr (.inr ⟨q, rfl, hq⟩), ?_⟩
      rwa [kindAt?_below (ne_nil_of_kindAt? hk)]

theorem not_inSpec_root : ¬ InSpec ds [i] := by
  rintro ⟨q, hq, hk⟩
  rcases Address.isAbove_cons.mp hq with rfl | ⟨q', -, hq'⟩
  · exact ne_nil_of_kindAt? hk rfl
  · exact Address.not_isAbove_nil q' hq'

/-- Of a root and what is below it, roots after it say nothing. -/
theorem inSpec_zero : InSpec (first :: ds) (0 :: a) ↔ InSpec [first] (0 :: a) := by
  refine exists_congr fun q => and_congr_right fun hq => ?_
  rcases Address.isAbove_cons.mp hq with rfl | ⟨q', rfl, -⟩
  · simp
  · rw [kindAt?_zero]

theorem inSpec_next : InSpec (first :: ds) a.next ↔ InSpec ds a := by
  constructor
  · rintro ⟨q, hq, hk⟩
    obtain ⟨q', rfl, hq'⟩ := Address.isAbove_next.mp hq
    rw [kindAt?_next] at hk
    exact ⟨q', hq', hk⟩
  · rintro ⟨q, hq, hk⟩
    exact ⟨q.next, Address.isAbove_next.mpr ⟨q, rfl, hq⟩, by rwa [kindAt?_next]⟩

namespace NearestContainer

theorem of_roots : NearestContainer ds [] [i] where
  above := ⟨List.nil_prefix, nofun⟩
  container := .inl rfl
  nearest q hq _ := by
    rcases Address.isAbove_cons.mp hq with rfl | ⟨q', -, hq'⟩
    · exact List.nil_prefix
    · exact absurd hq' (Address.not_isAbove_nil q')

/-- In a container, the container itself is nearest to what has none nearer. -/
theorem inside (h : NearestContainer nodes p a) (hkind : d.kind? = some .container) :
    NearestContainer [.node d nodes] (0 :: p) (0 :: a) where
  above := Address.isAbove_cons.mpr (.inr ⟨p, rfl, h.above⟩)
  container := by
    by_cases hp : p = []
    · subst hp
      rw [kindAt?_root]
      exact .inr hkind
    · rw [kindAt?_below hp]
      exact .inr (h.container.resolve_left hp)
  nearest q hq hk := by
    rcases exists_above hq hk with ⟨rfl, -, -⟩ | ⟨q', rfl, hq', hk'⟩
    · exact ⟨p, rfl⟩
    · exact List.cons_prefix_cons.mpr ⟨rfl, h.nearest q' hq' hk'⟩

/-- What stands above a setup node stays nearest, unless there is a container inside. -/
theorem lifted (h : NearestContainer nodes p a) (hkind : d.kind? = none) :
    NearestContainer [.node d nodes] (if p = [] then [] else 0 :: p) (0 :: a) := by
  have hinside {q : Address} (hq : q.IsAbove (0 :: a))
      (hk : kindAt? [.node d nodes] q = some .container) :
      ∃ q' : Address, q = 0 :: q' ∧ q'.IsAbove a ∧ kindAt? nodes q' = some .container := by
    refine (exists_above hq hk).resolve_left ?_
    rintro ⟨-, -, hkind'⟩
    rw [hkind] at hkind'
    cases hkind'
  split
  next hp =>
      subst hp
      refine ⟨⟨List.nil_prefix, nofun⟩, .inl rfl, ?_⟩
      intro q hq hk
      obtain ⟨q', -, hq', hk'⟩ := hinside hq hk
      exact absurd (List.prefix_nil.mp (h.nearest q' hq' hk')) (ne_nil_of_kindAt? hk')
  next hp =>
      refine ⟨Address.isAbove_cons.mpr (.inr ⟨p, rfl, h.above⟩), .inr ?_, ?_⟩
      · rw [kindAt?_below hp]
        exact h.container.resolve_left hp
      · intro q hq hk
        obtain ⟨q', rfl, hq', hk'⟩ := hinside hq hk
        exact List.cons_prefix_cons.mpr ⟨rfl, h.nearest q' hq' hk'⟩

theorem zero (h : NearestContainer [first] p (0 :: a)) :
    NearestContainer (first :: ds) p (0 :: a) := by
  have hsame {q : Address} (hq : q.IsAbove (0 :: a)) :
      kindAt? (first :: ds) q = kindAt? [first] q := by
    rcases Address.isAbove_cons.mp hq with rfl | ⟨q', rfl, -⟩
    · simp
    · exact kindAt?_zero
  refine ⟨h.above, ?_, fun q hq hk => h.nearest q hq (hsame hq ▸ hk)⟩
  rw [hsame h.above]
  exact h.container

theorem next (h : NearestContainer ds p a) : NearestContainer (first :: ds) p.next a.next where
  above := Address.isAbove_next.mpr ⟨p, rfl, h.above⟩
  container := by
    rw [kindAt?_next]
    exact h.container.imp_left fun hp => by rw [hp, Address.next]
  nearest q hq hk := by
    obtain ⟨q', rfl, hq'⟩ := Address.isAbove_next.mp hq
    rw [kindAt?_next] at hk
    have hbegins := h.nearest q' hq' hk
    cases q' with
    | nil => exact List.nil_prefix
    | cons i q' =>
        obtain ⟨rest, rfl⟩ := hbegins
        exact ⟨rest, rfl⟩

end NearestContainer

end Declaration

/-! ### Outlines and the declarations they keep -/

/-- The node at an address of an outline. -/
abbrev OutlineNode.at? (roots : List OutlineNode) (o : Address) : Option OutlineNode :=
  nodeAt? OutlineNode.children roots o

/-- The declaration at an address of a report. -/
abbrev Declaration.at? (ds : List Declaration) (a : Address) : Option Declaration :=
  nodeAt? Declaration.nodes ds a

/-- An outline keeps what it should of declarations, where `origin` says which declaration each
of its nodes was made of. -/
structure Lifts (content : String) (ds : List Declaration) (roots : List OutlineNode)
    (origin : Address → Address) : Prop where
  top : origin [] = []
  /-- Every node is what an outline shows of a container or a spec that stands in no spec. -/
  shown : ∀ o n, OutlineNode.at? roots o = some n → ∃ d kind,
    Declaration.at? ds (origin o) = some d ∧ d.info.kind? = some kind ∧
      ¬ Declaration.InSpec ds (origin o) ∧ n.info = d.info.toOutline content kind
  /-- Every such container and spec has a node. -/
  complete : ∀ a kind, Declaration.kindAt? ds a = some kind → ¬ Declaration.InSpec ds a →
    ∃ o n, OutlineNode.at? roots o = some n ∧ origin o = a
  /-- The nodes stand in the order of the document. -/
  ordered : ∀ o o' n n', OutlineNode.at? roots o = some n → OutlineNode.at? roots o' = some n' →
    o < o' → origin o < origin o'
  /-- The parent of a node, or nothing for a root, is the nearest container above. -/
  parent : ∀ o i n, OutlineNode.at? roots (o ++ [i]) = some n →
    Declaration.NearestContainer ds (origin o) (origin (o ++ [i]))
  /-- Specs have no children. -/
  leaf : ∀ o n, OutlineNode.at? roots o = some n → n.info.kind = .spec → n.children = []

namespace Lifts

variable {content : String} {d : DeclarationInfo} {first : Declaration}
  {nodes ds : List Declaration} {roots roots' children : List OutlineNode}
  {f g : Address → Address}

theorem origin_ne_nil (h : Lifts content ds roots f) {o : Address} {n : OutlineNode}
    (hn : OutlineNode.at? roots o = some n) : f o ≠ [] := by
  obtain ⟨d, kind, hd, -⟩ := h.shown o n hn
  exact ne_nil_of_nodeAt? hd

/-- No two nodes come from one declaration. -/
theorem once (h : Lifts content ds roots f) {o o' : Address} {n n' : OutlineNode}
    (hn : OutlineNode.at? roots o = some n) (hn' : OutlineNode.at? roots o' = some n')
    (heq : f o = f o') : o = o' := by
  refine List.le_antisymm (fun hlt => ?_) fun hlt => ?_
  · exact List.lt_irrefl (f o) (heq ▸ h.ordered o' o n' n hn' hn hlt)
  · exact List.lt_irrefl (f o) (heq ▸ h.ordered o o' n n' hn hn' hlt)

theorem nil : Lifts content [] [] id where
  top := rfl
  shown o n hn := by simp at hn
  complete a kind ha := by simp [Declaration.kindAt?] at ha
  ordered o o' n n' hn := by simp at hn
  parent o i n hn := by simp at hn
  leaf o n hn := by simp at hn

/-- The origin of the nodes of a single root by that of the nodes below. -/
def inside (f : Address → Address) : Address → Address
  | [] => []
  | _ :: o => 0 :: f o

/-- A container keeps its place, and what is kept of its content is below it. -/
theorem container (h : Lifts content nodes children f) (hkind : d.kind? = some .container) :
    Lifts content [.node d nodes] [.node (d.toOutline content .container) children]
      (inside f) where
  top := rfl
  shown o n hn := by
    obtain ⟨o, rfl, ⟨rfl, rfl⟩ | hn⟩ := nodeAt?_singleton.mp hn
    · rw [inside, h.top]
      exact ⟨_, _, rfl, hkind, Declaration.not_inSpec_root, rfl⟩
    · obtain ⟨d', kind, hd', hkind', hspec, hinfo⟩ := h.shown o n hn
      refine ⟨d', kind, nodeAt?_singleton.mpr ⟨f o, rfl, .inr hd'⟩, hkind', ?_, hinfo⟩
      rw [inside, Declaration.inSpec_below (h.origin_ne_nil hn), hkind]
      exact fun hin => hin.elim nofun hspec
  complete a kind ha hspec := by
    rcases Declaration.eq_root_or_below ha with ⟨rfl, -⟩ | ⟨a, rfl, hbelow⟩
    · exact ⟨[0], _, nodeAt?_singleton.mpr ⟨[], rfl, .inl ⟨rfl, rfl⟩⟩, by rw [inside, h.top]⟩
    · rw [Declaration.inSpec_below (Declaration.ne_nil_of_kindAt? hbelow)] at hspec
      obtain ⟨o, n, hn, rfl⟩ := h.complete a kind hbelow fun hin => hspec (.inr hin)
      exact ⟨0 :: o, n, nodeAt?_singleton.mpr ⟨o, rfl, .inr hn⟩, rfl⟩
  ordered o o' n n' hn hn' hlt := by
    obtain ⟨b, rfl, hb⟩ := nodeAt?_singleton.mp hn
    obtain ⟨b', rfl, hb'⟩ := nodeAt?_singleton.mp hn'
    rw [List.cons_lt_cons_iff] at hlt
    have hbelow := (hlt.resolve_left (Nat.lt_irrefl 0)).2
    rw [inside, inside, List.cons_lt_cons_iff]
    refine .inr ⟨rfl, ?_⟩
    rcases hb' with ⟨rfl, -⟩ | hb'
    · exact absurd hbelow (List.not_lt_nil b)
    · rcases hb with ⟨rfl, -⟩ | hb
      · rw [h.top]
        exact Address.nil_lt (h.origin_ne_nil hb')
      · exact h.ordered b b' n n' hb hb' hbelow
  parent o i n hn := by
    cases o with
    | nil =>
        obtain ⟨o', heq, -⟩ := nodeAt?_singleton.mp hn
        obtain ⟨rfl, rfl⟩ := List.cons.inj heq
        rw [List.nil_append, inside, inside, h.top]
        exact .of_roots
    | cons j o =>
        obtain ⟨o', heq, ⟨rfl, -⟩ | hn⟩ := nodeAt?_singleton.mp hn
        · simp at heq
        · obtain ⟨rfl, rfl⟩ := List.cons.inj heq
          exact (h.parent o i n hn).inside hkind
  leaf o n hn hspec := by
    obtain ⟨o, rfl, ⟨rfl, rfl⟩ | hn⟩ := nodeAt?_singleton.mp hn
    · cases hspec
    · exact h.leaf o n hn hspec

/-- A spec keeps its place, and nothing of its content is kept. -/
theorem spec (hkind : d.kind? = some .spec) :
    Lifts content [.node d nodes] [.node (d.toOutline content .spec) []] id where
  top := rfl
  shown o n hn := by
    obtain ⟨o, rfl, ⟨rfl, rfl⟩ | hn⟩ := nodeAt?_singleton.mp hn
    · exact ⟨_, _, rfl, hkind, Declaration.not_inSpec_root, rfl⟩
    · simp [OutlineNode.children] at hn
  complete a kind ha hspec := by
    rcases Declaration.eq_root_or_below ha with ⟨rfl, -⟩ | ⟨a, rfl, hbelow⟩
    · exact ⟨[0], _, nodeAt?_singleton.mpr ⟨[], rfl, .inl ⟨rfl, rfl⟩⟩, rfl⟩
    · rw [Declaration.inSpec_below (Declaration.ne_nil_of_kindAt? hbelow)] at hspec
      exact absurd (.inl hkind) hspec
  ordered o o' n n' _ _ hlt := hlt
  parent o i n hn := by
    obtain ⟨o', heq, ⟨rfl, -⟩ | hn⟩ := nodeAt?_singleton.mp hn
    · obtain ⟨rfl, -⟩ := List.append_inj' (heq.trans (List.nil_append [0]).symm) rfl
      exact .of_roots
    · simp [OutlineNode.children] at hn
  leaf o n hn _ := by
    obtain ⟨o, rfl, ⟨rfl, rfl⟩ | hn⟩ := nodeAt?_singleton.mp hn
    · rfl
    · simp [OutlineNode.children] at hn

/-- The origin of nodes that have moved up out of a single root. -/
def raised (f : Address → Address) (o : Address) : Address := if f o = [] then [] else 0 :: f o

/-- What is kept of the content of a setup node takes the place of that. -/
theorem setup (h : Lifts content nodes roots f) (hkind : d.kind? = none) :
    Lifts content [.node d nodes] roots (raised f) where
  top := by rw [raised, if_pos h.top]
  shown o n hn := by
    have hne := h.origin_ne_nil hn
    obtain ⟨d', kind, hd', hkind', hspec, hinfo⟩ := h.shown o n hn
    rw [raised, if_neg hne]
    refine ⟨d', kind, nodeAt?_singleton.mpr ⟨f o, rfl, .inr hd'⟩, hkind', ?_, hinfo⟩
    rw [Declaration.inSpec_below hne, hkind]
    exact fun hin => hin.elim nofun hspec
  complete a kind ha hspec := by
    rcases Declaration.eq_root_or_below ha with ⟨rfl, hkind'⟩ | ⟨a, rfl, hbelow⟩
    · -- the setup node itself counts as nothing
      exact absurd (hkind.symm.trans hkind') nofun
    · rw [Declaration.inSpec_below (Declaration.ne_nil_of_kindAt? hbelow)] at hspec
      obtain ⟨o, n, hn, rfl⟩ := h.complete a kind hbelow fun hin => hspec (.inr hin)
      exact ⟨o, n, hn, if_neg (h.origin_ne_nil hn)⟩
  ordered o o' n n' hn hn' hlt := by
    rw [raised, raised, if_neg (h.origin_ne_nil hn), if_neg (h.origin_ne_nil hn'),
      List.cons_lt_cons_iff]
    exact .inr ⟨rfl, h.ordered o o' n n' hn hn' hlt⟩
  parent o i n hn := by
    rw [raised, raised, if_neg (h.origin_ne_nil hn)]
    exact (h.parent o i n hn).lifted hkind
  leaf := h.leaf

/-- The origin of nodes, by that of the first ones, as many as a number says, and of the rest. -/
def joined (m : Nat) (f g : Address → Address) : Address → Address
  | [] => []
  | i :: o => if i < m then f (i :: o) else (g ((i - m) :: o)).next

theorem joined_cons_of_lt {m i : Nat} (hi : i < m) (o : Address) :
    joined m f g (i :: o) = f (i :: o) :=
  if_pos hi

theorem joined_cons_of_not_lt {m i : Nat} (hi : ¬ i < m) (o : Address) :
    joined m f g (i :: o) = (g ((i - m) :: o)).next :=
  if_neg hi

/-- A node of two outlines, one after the other, is of the first or of the second. -/
theorem at?_joined (h : Lifts content [first] roots f) {o : Address} {n : OutlineNode}
    (hn : OutlineNode.at? (roots ++ roots') o = some n) : ∃ i p, o = i :: p ∧
      (i < roots.length ∧ OutlineNode.at? roots (i :: p) = some n ∧ (∃ b, f (i :: p) = 0 :: b) ∨
        ¬ i < roots.length ∧ OutlineNode.at? roots' ((i - roots.length) :: p) = some n) := by
  match o with
  | [] => simp at hn
  | i :: p =>
      refine ⟨i, p, rfl, ?_⟩
      rw [OutlineNode.at?, nodeAt?_append] at hn
      split at hn
      next hi =>
          obtain ⟨d', kind, hd', -⟩ := h.shown _ _ hn
          obtain ⟨b, hb, -⟩ := nodeAt?_singleton.mp hd'
          exact .inl ⟨hi, hn, b, hb⟩
      next hi => exact .inr ⟨hi, hn⟩

/-- What is kept of several declarations stands one after the other. -/
theorem cons (h : Lifts content [first] roots f) (h' : Lifts content ds roots' g) :
    Lifts content (first :: ds) (roots ++ roots') (joined roots.length f g) where
  top := rfl
  shown o n hn := by
    obtain ⟨i, p, rfl, ⟨hi, hn, b, hb⟩ | ⟨hi, hn⟩⟩ := h.at?_joined hn
    · obtain ⟨d', kind, hd', hkind', hspec, hinfo⟩ := h.shown _ n hn
      rw [hb] at hd' hspec
      rw [joined_cons_of_lt hi, hb]
      refine ⟨d', kind, ?_, hkind', mt Declaration.inSpec_zero.mp hspec, hinfo⟩
      rwa [Declaration.at?, nodeAt?_cons_zero] at hd' ⊢
    · obtain ⟨d', kind, hd', hkind', hspec, hinfo⟩ := h'.shown _ n hn
      rw [joined_cons_of_not_lt hi]
      exact ⟨d', kind, nodeAt?_next.trans hd', hkind', mt Declaration.inSpec_next.mp hspec, hinfo⟩
  complete a kind ha hspec := by
    match a with
    | [] => simp at ha
    | 0 :: b =>
        rw [Declaration.kindAt?_zero] at ha
        rw [Declaration.inSpec_zero] at hspec
        obtain ⟨o, n, hn, heq⟩ := h.complete _ kind ha hspec
        match o with
        | [] => simp at hn
        | i :: p =>
            have hi := lt_length_of_nodeAt? hn
            refine ⟨i :: p, n, ?_, (joined_cons_of_lt hi p).trans heq⟩
            rw [OutlineNode.at?, nodeAt?_append, if_pos hi]
            exact hn
    | (k + 1) :: b =>
        have ha : Declaration.kindAt? ds (k :: b) = some kind :=
          Declaration.kindAt?_next.symm.trans ha
        obtain ⟨o, n, hn, heq⟩ := h'.complete (k :: b) kind ha
          (mt Declaration.inSpec_next.mpr hspec)
        match o with
        | [] => simp at hn
        | i :: p =>
            have hi : ¬ roots.length + i < roots.length := by omega
            refine ⟨(roots.length + i) :: p, n, ?_, ?_⟩
            · rw [OutlineNode.at?, nodeAt?_append, if_neg hi, Nat.add_sub_cancel_left]
              exact hn
            · rw [joined_cons_of_not_lt hi, Nat.add_sub_cancel_left, heq, Address.next]
  ordered o o' n n' hn hn' hlt := by
    obtain ⟨i, p, rfl, ⟨hi, hn, b, hb⟩ | ⟨hi, hn⟩⟩ := h.at?_joined hn <;>
      obtain ⟨j, q, rfl, ⟨hj, hn', b', hb'⟩ | ⟨hj, hn'⟩⟩ := h.at?_joined hn'
    · rw [joined_cons_of_lt hi, joined_cons_of_lt hj]
      exact h.ordered _ _ n n' hn hn' hlt
    · -- what comes of the first root is before what comes of those after it
      rw [joined_cons_of_lt hi, joined_cons_of_not_lt hj, hb]
      obtain ⟨k, b', hk⟩ := List.exists_cons_of_ne_nil (h'.origin_ne_nil hn')
      rw [hk, Address.next, List.cons_lt_cons_iff]
      exact .inl (Nat.succ_pos k)
    · rw [List.cons_lt_cons_iff] at hlt
      omega
    · rw [joined_cons_of_not_lt hi, joined_cons_of_not_lt hj]
      refine Address.next_lt_next (h'.ordered _ _ n n' hn hn' ?_)
      rw [List.cons_lt_cons_iff] at hlt ⊢
      exact hlt.imp (by omega) (And.imp_left (by omega))
  parent o i n hn := by
    match o with
    | [] =>
        obtain ⟨j, p, heq, ⟨hj, hn, b, hb⟩ | ⟨hj, hn⟩⟩ := h.at?_joined hn <;>
          obtain ⟨rfl, rfl⟩ := List.cons.inj heq
        · have hparent := h.parent [] i n hn
          rw [h.top, List.nil_append, hb] at hparent
          rw [List.nil_append, joined_cons_of_lt hj, hb, joined]
          exact hparent.zero
        · have hparent := h'.parent [] (i - roots.length) n hn
          rw [h'.top] at hparent
          rw [List.nil_append, joined_cons_of_not_lt hj, joined]
          exact hparent.next
    | j :: o =>
        rw [List.cons_append] at hn ⊢
        obtain ⟨j, p, heq, ⟨hj, hn, b, hb⟩ | ⟨hj, hn⟩⟩ := h.at?_joined hn <;>
          obtain ⟨rfl, rfl⟩ := List.cons.inj heq
        · have hparent := h.parent (j :: o) i n hn
          rw [List.cons_append, hb] at hparent
          rw [joined_cons_of_lt hj, joined_cons_of_lt hj, hb]
          exact hparent.zero
        · have hparent := h'.parent ((j - roots.length) :: o) i n hn
          rw [joined_cons_of_not_lt hj, joined_cons_of_not_lt hj]
          exact hparent.next
  leaf o n hn hspec := by
    obtain ⟨i, p, rfl, ⟨hi, hn, -⟩ | ⟨hi, hn⟩⟩ := h.at?_joined hn
    · exact h.leaf _ n hn hspec
    · exact h'.leaf _ n hn hspec

end Lifts

open Declaration

mutual

theorem exists_lifts (content : String) : ∀ d : Declaration,
    ∃ origin, Lifts content [d] (outline content d) origin
  | .node d nodes => by
      obtain ⟨f, hf⟩ := exists_lifts_all content nodes
      rw [outline]
      match hkind : d.kind? with
      | some .container => exact ⟨_, hf.container hkind⟩
      | some .spec => exact ⟨_, Lifts.spec hkind⟩
      | none => exact ⟨_, hf.setup hkind⟩

theorem exists_lifts_all (content : String) : ∀ ds : List Declaration,
    ∃ origin, Lifts content ds (outlineAll content ds) origin
  | [] => ⟨id, .nil⟩
  | d :: ds => by
      obtain ⟨f, hf⟩ := exists_lifts content d
      obtain ⟨g, hg⟩ := exists_lifts_all content ds
      exact ⟨_, hf.cons hg⟩

end

end SpecExplorer
