/-
# Trees from outlines

A fresh outline of a file gives a fresh tree. Siblings of one name get ordinals in source order,
and a node takes over the result, the run and the expansion of the node that had its key before.
The difference to the tree before is told by the topmost nodes that changed, and by the topmost
keys that are gone.
-/
import SpecExplorer.Tree.Basic

namespace SpecExplorer

namespace TestNode

/-- The node of an outline node under a key, with nothing known of it before. -/
def ofOutline (key : NodeKey) (o : OutlineInfo) : TestNode where
  key := key
  kind := .ofOutline o.kind
  name := o.name
  range := o.range
  focused := o.focused
  pending := o.pending
  labels := o.labels
  result := none
  run := none
  expanded := false

/-- Takes over what happened to the node of the same key. -/
def carry (n : TestNode) : Option TestNode → TestNode
  | none => n
  | some old => { n with result := old.result, run := old.run, expanded := old.expanded }

end TestNode

namespace TestTree

mutual

/-- The tree of an outline node under a key. `old?` finds the node that had a key before. -/
def ofOutlineNode (old? : NodeKey → Option TestNode) (key : NodeKey) : OutlineNode → TestTree
  | .node o children =>
    .node ((TestNode.ofOutline key o).carry (old? key)) (ofOutlineNodes old? key [] children)

/-- The trees of siblings. `before` holds the names of the siblings that come before. -/
def ofOutlineNodes (old? : NodeKey → Option TestNode) (parent : NodeKey) (before : List String) :
    List OutlineNode → List TestTree
  | [] => []
  | o :: rest =>
    let name := o.info.name
    ofOutlineNode old? (parent.child name (before.count name)) o ::
      ofOutlineNodes old? parent (name :: before) rest

end

/-- The node that a tree, if there is one, holds under a key. -/
def old? (previous : Option TestTree) (key : NodeKey) : Option TestNode :=
  previous.bind (·.node? key)

/-- The tree of an outline, with what `previous` knew about its keys. -/
def ofOutline (previous : Option TestTree) (o : Outline) (name : String) : TestTree :=
  .node ((TestNode.file name).carry (previous.map info))
    (ofOutlineNodes (old? previous) .root [] o.roots)

end TestTree

/-- How a tree differs from the one before. -/
structure TreeDelta where
  /-- The topmost nodes of the new tree that changed. -/
  changed : List NodeKey
  /-- The topmost keys that are gone. -/
  removed : List NodeKey
  deriving DecidableEq, Repr

namespace TreeDelta

def isEmpty (d : TreeDelta) : Bool := d.changed.isEmpty && d.removed.isEmpty

/-- Whether a node says the same about itself and its children as the one before. -/
def isUnchanged (previous : TestTree) (t : TestTree) : Bool :=
  match previous.find? t.key with
  | none => false
  | some old => old.info.sameShape t.info && old.childKeys == t.childKeys

mutual

/-- The topmost nodes that changed, in pre-order. -/
def changedIn (previous : TestTree) : TestTree → List NodeKey
  | .node info children =>
    if isUnchanged previous (.node info children) then changedAmong previous children
    else [info.key]

def changedAmong (previous : TestTree) : List TestTree → List NodeKey
  | [] => []
  | t :: rest => changedIn previous t ++ changedAmong previous rest

end

/-- The topmost keys of `previous` that are gone, in pre-order. -/
def removedFrom (previous merged : TestTree) : List NodeKey :=
  let gone := previous.keys.filter fun key => !merged.contains key
  gone.filter fun key => !key.parent?.any gone.contains

/-- The difference between two trees; a first tree is new as a whole. -/
def between (previous : Option TestTree) (merged : TestTree) : TreeDelta :=
  match previous with
  | none => ⟨[.root], []⟩
  | some previous => ⟨changedIn previous merged, removedFrom previous merged⟩

end TreeDelta

namespace TestTree

/-- The tree of a fresh outline and how it differs from the one before. -/
def merge (previous : Option TestTree) (o : Outline) (name : String) : TestTree × TreeDelta :=
  let merged := ofOutline previous o name
  (merged, .between previous merged)

end TestTree

end SpecExplorer
