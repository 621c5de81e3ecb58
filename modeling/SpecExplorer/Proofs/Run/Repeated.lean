/-
# The same outline again

A merge makes every node anew from the outline, and what it takes over from the tree before it finds
by key. Runs and clicks change nothing of a tree but what a merge takes over, and they leave every
node where it was. So merging the outline of a tree into it a second time gives the very tree, with
all that has happened to it since, and there is nothing to tell.
-/
import SpecExplorer.Proofs.Run.Reconciled
import SpecExplorer.Proofs.View.Topmost

namespace SpecExplorer

open TestTree

/-! ### What happens to a tree between two merges -/

/-- What a run or a click may do to a tree. A session that begins prepares its scope. -/
inductive TreeOperation where
  | prepare (key : NodeKey) (run : RunId)
  | markRunning (key : NodeKey) (run : RunId)
  | record (key : NodeKey) (r : RunResult)
  | revert (key : NodeKey) (run : RunId)
  | finish (key : NodeKey) (run : RunId)
  | move (s : RunSession) (m : RunSession.Move)
  | toggle (key : NodeKey)

namespace TreeOperation

def perform (t : TestTree) : TreeOperation → TestTree
  | .prepare key run => (t.prepareToRun key run).1
  | .markRunning key run => (t.markRunning key run).1
  | .record key r => (t.applyResult key r).1
  | .revert key run => (t.revertPending key run).1
  | .finish key run => (t.finishRun key run).1
  | .move s m => (s.move t m).2.1
  | .toggle key => (t.toggle key).1

/-- The tree after some operations, one after the other. -/
def performAll (t : TestTree) (ops : List TreeOperation) : TestTree := ops.foldl perform t

theorem perform_frame (t : TestTree) (op : TreeOperation) : (op.perform t).frame = t.frame := by
  cases op with
  | prepare key run => exact prepareToRun_frame t key run
  | markRunning key run => exact markRunning_frame t key run
  | record key r => exact applyResult_frame t key r
  | revert key run => exact revertPending_frame t key run
  | finish key run => exact finishRun_frame t key run
  | move s m => exact s.move_frame t m
  | toggle key => exact toggle_frame t key

theorem performAll_frame (t : TestTree) (ops : List TreeOperation) :
    (performAll t ops).frame = t.frame := by
  induction ops generalizing t with
  | nil => rfl
  | cons op rest ih => exact (ih (op.perform t)).trans (perform_frame t op)

end TreeOperation

/-! ### Made anew -/

/-- A node that takes over everything from one of its frame is that node. -/
theorem TestNode.carry_eq_of_bare_eq {n m : TestNode} (h : m.bare = n.bare) :
    n.carry (some m) = m := by
  cases n
  cases m
  simp_all [bare, carry]

namespace TestTree

variable {old? other? : NodeKey → Option TestNode}

/-- Siblings that are made anew are the siblings that there were, if that holds of each. -/
theorem ofOutlineNodes_eq {ns : List OutlineNode}
    (h : ∀ n ∈ ns, ∀ key t, t.frame = (ofOutlineNode other? key n).frame →
      (∀ s ∈ t.subtrees, old? s.key = some s.info) → ofOutlineNode old? key n = t)
    {parent : NodeKey} {before : List String} {ts : List TestTree}
    (hframe : ts.map frame = (ofOutlineNodes other? parent before ns).map frame)
    (hold : ∀ t ∈ ts, ∀ s ∈ t.subtrees, old? s.key = some s.info) :
    ofOutlineNodes old? parent before ns = ts := by
  induction ns generalizing before ts with
  | nil => exact (List.map_eq_nil_iff.mp hframe).symm
  | cons n rest ih =>
      rw [ofOutlineNodes, List.map_cons] at hframe
      obtain ⟨t, later, rfl, hhead, htail⟩ := List.map_eq_cons_iff.mp hframe
      rw [ofOutlineNodes, h n List.mem_cons_self _ t hhead (hold t List.mem_cons_self),
        ih (fun m hm => h m (List.mem_cons_of_mem _ hm)) htail
          fun u hu => hold u (List.mem_cons_of_mem _ hu)]

/-- A tree is made anew from its outline node if every node takes over what it had. -/
theorem ofOutlineNode_eq (n : OutlineNode) (key : NodeKey) (t : TestTree)
    (hframe : t.frame = (ofOutlineNode other? key n).frame)
    (hold : ∀ s ∈ t.subtrees, old? s.key = some s.info) : ofOutlineNode old? key n = t := by
  induction n generalizing key t with
  | node info children ih =>
      obtain ⟨m, cs⟩ := t
      obtain ⟨hroot, hchildren⟩ := forall_subtrees_node.mp hold
      rw [ofOutlineNode, frame_node, frame_node, TestNode.bare_carry, node.injEq] at hframe
      obtain ⟨hbare, hframes⟩ := hframe
      have hkey : m.key = key := TestNode.key_eq_of_bare_eq hbare
      have hfound : old? key = some m := hkey ▸ hroot
      rw [ofOutlineNode, hfound, TestNode.carry_eq_of_bare_eq hbare,
        ofOutlineNodes_eq (fun c hc k s => ih c hc k s) hframes hchildren]

/-- The tree of a file is made anew from its outline. -/
theorem ofOutline_eq {previous : Option TestTree} {o : Outline} {name : String} {t : TestTree}
    (hframe : t.frame = (ofOutline previous o name).frame) : ofOutline (some t) o name = t := by
  have hkeyed : t.Keyed := (ofOutline_keyed previous o name).of_frame_eq hframe
  have hold : ∀ s ∈ t.subtrees, TestTree.old? (some t) s.key = some s.info := fun s hs =>
    congrArg (Option.map info) (hkeyed.find?_key hs)
  obtain ⟨m, cs⟩ := t
  obtain ⟨-, hchildren⟩ := forall_subtrees_node.mp hold
  rw [ofOutline, frame_node, frame_node, TestNode.bare_carry, node.injEq] at hframe
  obtain ⟨hbare, hframes⟩ := hframe
  have hroot : (TestNode.file name).carry (some m) = m := TestNode.carry_eq_of_bare_eq hbare
  rw [ofOutline, Option.map_some, info_node, hroot,
    ofOutlineNodes_eq (fun n _ => ofOutlineNode_eq n) hframes hchildren]

end TestTree

/-! ### Nothing to tell -/

namespace TreeDelta

theorem changedIn_eq_nil {previous t : TestTree}
    (h : ∀ s ∈ t.subtrees, isUnchanged previous s) : changedIn previous t = [] := by
  induction t with
  | node info children ih =>
      obtain ⟨hroot, hchildren⟩ := forall_subtrees_node.mp h
      rw [changedIn_node, if_pos hroot, List.flatMap_eq_nil_iff]
      exact fun c hc => ih c hc (hchildren c hc)

theorem removedFrom_eq_nil {previous merged : TestTree}
    (h : ∀ key ∈ previous.keys, merged.contains key) : removedFrom previous merged = [] := by
  have hgone : (previous.keys.filter fun key => !merged.contains key) = [] := by
    simpa [List.filter_eq_nil_iff] using h
  rw [removedFrom, hgone]
  rfl

/-- A tree does not differ from itself. -/
theorem between_self {t : TestTree} (hkeyed : t.Keyed) : between (some t) t = ⟨[], []⟩ := by
  have hsame : ∀ s ∈ t.subtrees, isUnchanged t s := fun s hs => by
    rw [isUnchanged_iff hkeyed]
    exact fun hdiffers => hdiffers s hs rfl ⟨rfl, rfl, rfl, rfl, rfl, rfl, rfl⟩
  have hkept : ∀ key ∈ t.keys, t.contains key := by
    rintro key hkey
    obtain ⟨n, hn, rfl⟩ := List.mem_map.mp hkey
    exact contains_of_mem_nodes hn
  rw [between, changedIn_eq_nil hsame, removedFrom_eq_nil hkept]

end TreeDelta

/-- Whatever runs and clicks have done to a tree since its outline was merged, merging the outline
again gives the tree as it is and tells nothing. -/
theorem merging_again_changes_nothing (previous : Option TestTree) (o : Outline) (name : String)
    (ops : List TreeOperation) :
    merge (some (TreeOperation.performAll (merge previous o name).1 ops)) o name =
      (TreeOperation.performAll (merge previous o name).1 ops, ⟨[], []⟩) := by
  have hframe := TreeOperation.performAll_frame (merge previous o name).1 ops
  have hkeyed := (ofOutline_keyed previous o name).of_frame_eq hframe
  rw [merge, ofOutline_eq hframe, TreeDelta.between_self hkeyed]

end SpecExplorer
