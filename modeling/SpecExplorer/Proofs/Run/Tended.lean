/-
# Trees that are tended to

Every node under way should end some day: below it, or at it, a leaf is under way that a session
will close, and when that leaf gets its result the nodes above are settled, whichever session they
belong to. Records and exits keep a tree tended to in this sense, since they settle whatever they
finish. A session that is given up makes its nodes idle and settles nothing, so it may take from
the nodes above its scope what they were waiting for; the keys of those are exempt here.
-/
import SpecExplorer.Proofs.Run.Act

namespace SpecExplorer

open TestTree RunSession

namespace TestTree

variable {K K' : NodeKey → Prop} {t : TestTree} {f : NodeChange}

/-! ### Trees that are tended to -/

/-- Something in the tree is under way by itself: a leaf, or a node whose key is exempt. -/
def Open (K : NodeKey → Prop) (t : TestTree) : Prop :=
  ∃ y ∈ t.subtrees, y.info.isUnfinished ∧ (y.info.isLeaf y.children ∨ K y.key)

/-- Wherever something is under way, something below is so by itself. -/
def Tended (K : NodeKey → Prop) (t : TestTree) : Prop :=
  ∀ x ∈ t.subtrees, x.info.isUnfinished → x.Open K

theorem open_node {info : TestNode} {children : List TestTree} :
    (node info children).Open K ↔
      info.isUnfinished ∧ (info.isLeaf children ∨ K info.key) ∨ ∃ c ∈ children, c.Open K := by
  simp only [Open, mem_subtrees_node, or_and_right, exists_or, exists_eq_left, info_node,
    children_node, key_node]
  refine or_congr_right ⟨?_, ?_⟩
  · rintro ⟨y, ⟨c, hc, hy⟩, hopen⟩
    exact ⟨c, hc, y, hy, hopen⟩
  · rintro ⟨c, hc, y, hy, hopen⟩
    exact ⟨y, ⟨c, hc, hy⟩, hopen⟩

theorem tended_node {info : TestNode} {children : List TestTree} :
    (node info children).Tended K ↔
      (info.isUnfinished → (node info children).Open K) ∧ ∀ c ∈ children, c.Tended K :=
  forall_subtrees_node

theorem Tended.mono (hK : ∀ key, K key → K' key) (h : t.Tended K) : t.Tended K' := by
  intro x hx hopen
  obtain ⟨y, hy, hyopen, hself⟩ := h x hx hopen
  exact ⟨y, hy, hyopen, hself.imp_right (hK _)⟩

/-- In a quiet tree there is nothing to tend to. -/
theorem Quiet.tended (h : t.Quiet) : t.Tended K :=
  fun x hx hopen => absurd hopen (quiet_iff.mp h x hx)

theorem exists_leaf (t : TestTree) : ∃ y ∈ t.subtrees, y.info.isLeaf y.children := by
  induction t with
  | node info children ih =>
      cases children with
      | nil => exact ⟨_, self_mem_subtrees _, by simp [TestNode.isLeaf]⟩
      | cons c rest =>
          obtain ⟨y, hy, hleaf⟩ := ih c List.mem_cons_self
          exact ⟨y, mem_subtrees_node.mpr (.inr ⟨c, List.mem_cons_self, hy⟩), hleaf⟩

/-- What is open by itself and still under way after a change is open by itself still. -/
theorem open_rebuild (hf : ∀ info children, (f info children).bare = info.bare) {y : TestTree}
    (hy : y ∈ t.subtrees) (hopen : (y.rebuild f).info.isUnfinished)
    (hself : y.info.isLeaf y.children ∨ K y.key) : (t.rebuild f).Open K := by
  refine ⟨y.rebuild f, mem_subtrees_rebuild hy, hopen, ?_⟩
  rw [isLeaf_rebuild hf, key_rebuild hf]
  exact hself

/-! ### Changes that settle what they finish -/

/-- A change keeps the results of nodes, and where it changes anything in a subtree it finishes the
root if the children have something to show. -/
structure Settles (f : NodeChange) (x : TestTree) : Prop where
  result : x.info.result.isSome → (x.rebuild f).info.result.isSome
  settled : x.rebuild f = x ∨
    ∀ a, combined (x.rebuild f).children = some a → (x.rebuild f).info.isFinished

theorem isFinished_of_result_isSome {n : TestNode} (hresult : n.result.isSome)
    (hopen : ¬ n.isUnfinished) : n.isFinished := by
  obtain ⟨r, hr⟩ := Option.isSome_iff_exists.mp hresult
  rw [TestNode.isUnfinished_of_result hr] at hopen
  rw [TestNode.isFinished_of_result hr]
  simpa using hopen

/-- Where a child is finished, the children have something to show together or one of them is
open. -/
theorem combined_isSome_or_open {children : List TestTree}
    (htended : ∀ c ∈ children, c.Tended K) {c : TestTree} (hc : c ∈ children)
    (hfinished : c.info.isFinished) :
    (∃ a, combined children = some a) ∨ ∃ d ∈ children, d.Open K := by
  cases hcombined : combined children with
  | some a => exact .inl ⟨a, rfl⟩
  | none =>
      rcases combined_eq_none_iff.mp hcombined with hidle | ⟨d, hd, hopen⟩
      · rw [TestNode.isFinished, TestNode.status, hidle c hc] at hfinished
        cases hfinished
      · exact .inr ⟨d, hd, htended d hd d (self_mem_subtrees d) hopen⟩

/-- What is open stays so unless its root is finished, if the children are tended to and stay open
unless they are finished. -/
theorem Settles.finished_or_open {info : TestNode} {children : List TestTree}
    (h : Settles f (node info children)) (hcalm : Calm f)
    (htended : ∀ c ∈ children.map (rebuild f), c.Tended K)
    (hchildren : ∀ c ∈ children, c.Open K → (c.rebuild f).info.isFinished ∨ (c.rebuild f).Open K)
    (hopen : (node info children).Open K) :
    ((node info children).rebuild f).info.isFinished ∨
      ((node info children).rebuild f).Open K := by
  have hbelow : (∃ c ∈ children.map (rebuild f), c.Open K) →
      ((node info children).rebuild f).Open K := by
    rw [rebuild_node]
    exact fun hbelow => open_node.mpr (.inr hbelow)
  rcases h.settled with heq | hsettled
  · exact .inr (heq.symm ▸ hopen)
  rcases open_node.mp hopen with ⟨hown, hself⟩ | ⟨c, hc, hchild⟩
  · -- The root is open by itself.
    by_cases hown' : ((node info children).rebuild f).info.isUnfinished
    · exact .inr (open_rebuild hcalm.bare (self_mem_subtrees _) hown' hself)
    · refine .inl (isFinished_of_result_isSome (h.result ?_) hown')
      obtain ⟨r, hr, -⟩ := TestNode.exists_result_of_isUnfinished hown
      rw [info_node, hr]
      rfl
  · -- A child is open. Once it is finished, all children are, or another one is under way.
    rcases hchildren c hc hchild with hfinished | hstill
    · rcases combined_isSome_or_open htended (List.mem_map_of_mem hc) hfinished with
        ⟨a, ha⟩ | hother
      · exact .inl (hsettled a (by rw [children_rebuild]; exact ha))
      · exact .inr (hbelow hother)
    · exact .inr (hbelow ⟨_, List.mem_map_of_mem hc, hstill⟩)

/-- A calm change that settles what it finishes keeps a tree tended to, and what was open in it is
open still, unless the root is finished. -/
theorem tended_rebuild (hcalm : Calm f) (hsettles : ∀ x ∈ t.subtrees, Settles f x)
    (h : t.Tended K) : (t.rebuild f).Tended K ∧
      (t.Open K → (t.rebuild f).info.isFinished ∨ (t.rebuild f).Open K) := by
  induction t with
  | node info children ih =>
      obtain ⟨hroot, hbelow⟩ := tended_node.mp h
      obtain ⟨hsettle, hsettles⟩ := forall_subtrees_node.mp hsettles
      have ih' : ∀ c ∈ children, (c.rebuild f).Tended K ∧
          (c.Open K → (c.rebuild f).info.isFinished ∨ (c.rebuild f).Open K) :=
        fun c hc => ih c hc (hsettles c hc) (hbelow c hc)
      have htended : ∀ c ∈ children.map (rebuild f), c.Tended K :=
        List.forall_mem_map.mpr fun c hc => (ih' c hc).1
      have hopen := hsettle.finished_or_open hcalm htended fun c hc => (ih' c hc).2
      have hself : ((node info children).rebuild f).info.isUnfinished →
          ((node info children).rebuild f).Open K := by
        intro hunfinished
        have hbefore : info.isUnfinished := by
          rw [info_rebuild] at hunfinished
          exact hcalm.unfinished _ _ hunfinished
        exact (hopen (hroot hbefore)).resolve_left fun hfinished =>
          TestNode.not_isUnfinished_of_isFinished hfinished hunfinished
      refine ⟨?_, hopen⟩
      rw [rebuild_node] at hself ⊢
      exact tended_node.mpr ⟨hself, htended⟩

/-- A change that leaves the same nodes under way keeps a tree tended to. -/
theorem tended_of_isUnfinished_eq (hf : ∀ info children, (f info children).bare = info.bare)
    (hsame : ∀ x ∈ t.subtrees, (x.rebuild f).info.isUnfinished = x.info.isUnfinished)
    (h : t.Tended K) : (t.rebuild f).Tended K := by
  refine forall_subtrees_rebuild.mpr fun x hx hopen => ?_
  rw [hsame x hx] at hopen
  obtain ⟨y, hy, hyopen, hself⟩ := h x hx hopen
  rw [← hsame y (mem_subtrees_trans hy hx)] at hyopen
  exact open_rebuild hf hy hyopen hself

/-- What is settled has a result if it had one. -/
theorem result_settled_isSome {info : TestNode} (h : info.result.isSome)
    (children : List TestTree) : (settled info children).result.isSome := by
  rcases settled_cases info children with ⟨-, heq⟩ | ⟨a, -, heq⟩
  · rwa [heq]
  · rw [heq]
    rfl

/-- Recording a final result settles the nodes above it. -/
theorem settles_recording (hkeyed : t.Keyed) (key : NodeKey) {r : RunResult}
    (hr : r.status.isTerminal) : Settles (recording key r) t := by
  rcases rebuild_recording_cases hkeyed key r with heq | ⟨-, hinfo⟩ | ⟨-, hinfo⟩
  · exact ⟨fun h => heq.symm ▸ h, .inl heq⟩
  · have hresult : (t.rebuild (recording key r)).info.result = some r := by rw [hinfo]
    refine ⟨fun _ => by rw [hresult]; rfl, .inr fun a _ => ?_⟩
    rwa [TestNode.isFinished_of_result hresult]
  · refine ⟨fun h => ?_, .inr fun a ha => ?_⟩ <;> rw [hinfo]
    · exact result_settled_isSome h _
    · exact isFinished_settled_of_combined ha

end TestTree

namespace RunSession

variable {K K' : NodeKey → Prop} {s : RunSession} {t : TestTree} {m : Move} {f : NodeChange}

/-- Closing a session settles its scope and what is above it. -/
theorem settles_closure (hkeyed : t.Keyed) : Settles s.closure t := by
  rcases s.rebuild_closure_cases hkeyed with heq | ⟨n, hn, hinfo⟩
  · exact ⟨fun h => heq.symm ▸ h, .inl heq⟩
  · refine ⟨fun h => ?_, .inr fun a ha => ?_⟩ <;> rw [hinfo]
    · rw [Option.isSome_iff_ne_none, ne_eq, result_logged_eq_none_iff, ← ne_eq,
        ← Option.isSome_iff_ne_none]
      refine result_settled_isSome ?_ _
      rcases hn with rfl | rfl
      · exact h
      · rwa [Option.isSome_iff_ne_none, ne_eq, TestNode.result_close_eq_none_iff, ← ne_eq,
          ← Option.isSome_iff_ne_none]
    · rw [isFinished_logged]
      exact isFinished_settled_of_combined ha

/-- Every act but that of an abort keeps a tree tended to. -/
theorem Act.tended (h : Act s t m f) (hkeyed : t.Keyed) (habort : m ≠ .abort)
    (htended : t.Tended K) : (t.rebuild f).Tended K := by
  cases h with
  | stay _ _ => rwa [rebuild_eq_self fun _ _ => rfl]
  | started =>
      exact tended_of_isUnfinished_eq ((calm_starting s.run).around calm_kept s.scope).bare
        (fun x _ => isUnfinished_starting s.scope s.run x) htended
  | recorded hstatus hx hspec hscope hclaimed =>
      have hterminal := isTerminal_of_status? hstatus
      exact (tended_rebuild (calm_recording _ hterminal) (fun y hy =>
        settles_recording (hkeyed.of_mem_subtrees hy) _ hterminal) htended).1
  | closed _ _ _ =>
      exact (tended_rebuild s.calm_closure (fun y hy =>
        settles_closure (hkeyed.of_mem_subtrees hy)) htended).1
  | withdrawn => exact absurd rfl habort

/-- Once a session has ended, no leaf of it in its scope is under way. -/
theorem Act.not_isUnfinished_leaf (h : Act s t m f) (hkeyed : t.Keyed) (hroot : t.key = .root)
    (hends : m.ends) (hopen : s.finished = false) {x : TestTree} (hx : x ∈ t.subtrees)
    (hcovers : s.scope.covers x.key) (hclaimed : x.info.isClaimedBy s.run)
    (hleaf : x.info.isLeaf x.children) : ¬ (x.rebuild f).info.isUnfinished := by
  rw [info_rebuild]
  cases h with
  | stay habort hcloses =>
      have hcloses' : m.closes := by
        cases m with
        | abort => exact absurd rfl habort
        | event e => exact hends
        | finish => rfl
      rcases hcloses hcloses' with hfinished | hscope
      · rw [hopen] at hfinished
        cases hfinished
      · exact absurd (hkeyed.contains_above hroot hx hcovers) hscope
  | started => cases hends
  | recorded => cases hends
  | closed _ _ _ =>
      rw [closure, isUnfinished_logged, around_below hcovers, closing, isUnfinished_settled_iff,
        TestNode.isUnfinished_close_iff]
      refine fun hstill => hstill.2.2 ⟨hclaimed, ?_⟩
      rwa [TestNode.isLeaf, List.isEmpty_map]
  | withdrawn =>
      rw [around_below hcovers, touching, TestNode.isUnfinished_revert_iff]
      exact fun hstill => hstill.2 hclaimed

/-- A session that begins tends to all that it prepares. -/
theorem tended_preparing {scope : NodeKey} {run : RunId}
    (hkeyed : t.Keyed) (hK : ∀ key, K key → ¬ scope.covers key → K' key) (h : t.Tended K) :
    (t.rebuild (preparing scope run)).Tended K' := by
  have hbare := bare_preparing scope run
  -- Below a node of the scope a leaf is prepared.
  have hscope : ∀ x ∈ t.subtrees, scope.covers x.key →
      (x.rebuild (preparing scope run)).Open K' := by
    intro x hx hcovers
    obtain ⟨y, hy, hleaf⟩ := exists_leaf x
    have hycovers := NodeKey.covers_trans hcovers
      ((hkeyed.of_mem_subtrees hx).covers_of_mem_subtrees hy)
    exact open_rebuild hbare hy (isUnfinished_preparing.mpr (.inl hycovers)) (.inl hleaf)
  refine forall_subtrees_rebuild.mpr fun x hx hopen => ?_
  rcases isUnfinished_preparing.mp hopen with hcovers | hxopen
  · exact hscope x hx hcovers
  obtain ⟨y, hy, hyopen, hself⟩ := h x hx hxopen
  by_cases hycovers : scope.covers y.key
  · obtain ⟨z, hz, hzopen⟩ := hscope y (mem_subtrees_trans hy hx) hycovers
    exact ⟨z, mem_subtrees_trans hz (mem_subtrees_rebuild hy), hzopen⟩
  · exact open_rebuild hbare hy (isUnfinished_preparing.mpr (.inr hyopen))
      (hself.imp_right fun hyK => hK _ hyK hycovers)

/-- A session that is given up leaves nothing untended within its scope. -/
theorem tended_reverting
    (hclaims : ∀ x ∈ t.subtrees, s.scope.covers x.key → ∀ y ∈ x.subtrees,
      y.info.isClaimedBy s.run → x.info.isClaimedBy s.run)
    (hK : ∀ key, K key → K' key)
    (habove : ∀ x ∈ t.subtrees, ∀ y ∈ x.subtrees, ¬ s.scope.covers x.key →
      s.scope.covers y.key → y.info.isClaimedBy s.run → y.info.isUnfinished → K' x.key)
    (h : t.Tended K) :
    (t.rebuild (around s.scope (touching (·.revert? s.run)) kept)).Tended K' := by
  have hcalm := (calm_reverting s.run).around calm_kept s.scope
  have hstill : ∀ x : TestTree,
      (x.rebuild (around s.scope (touching (·.revert? s.run)) kept)).info.isUnfinished ↔
        x.info.isUnfinished ∧ ¬ (s.scope.covers x.key ∧ x.info.isClaimedBy s.run) := by
    intro x
    rw [info_rebuild, around_kept]
    split
    next hcovers =>
        rw [touching, TestNode.isUnfinished_revert_iff]
        exact and_congr_right fun _ => not_congr ⟨fun hc => ⟨hcovers, hc⟩, And.right⟩
    next hcovers => exact ⟨fun hopen => ⟨hopen, fun hc => hcovers hc.1⟩, And.left⟩
  refine forall_subtrees_rebuild.mpr fun x hx hopen => ?_
  obtain ⟨hxopen, hxclaim⟩ := (hstill x).mp hopen
  obtain ⟨y, hy, hyopen, hself⟩ := h x hx hxopen
  by_cases hyclaim : s.scope.covers y.key ∧ y.info.isClaimedBy s.run
  · -- What was open below is taken back, so the node lies above the scope.
    have hxscope : ¬ s.scope.covers x.key := fun hcovers =>
      hxclaim ⟨hcovers, hclaims x hx hcovers y hy hyclaim.2⟩
    refine ⟨_, self_mem_subtrees _, hopen, .inr ?_⟩
    rw [key_rebuild hcalm.bare]
    exact habove x hx y hy hxscope hyclaim.1 hyclaim.2 hyopen
  · exact open_rebuild hcalm.bare hy ((hstill y).mpr ⟨hyopen, hyclaim⟩) (hself.imp_right (hK _))

end RunSession

end SpecExplorer
