/-
# Outlines

The outline of a test file is a forest of containers and specs in source order. Each node carries
the name it is shown by, the function that declared it, where it stands, and its decorations.
-/
import SpecExplorer.Position

namespace SpecExplorer

/-- Whether a node groups others or is run itself. -/
inductive OutlineKind where
  | container
  | spec
  deriving DecidableEq, Repr

/-- What an outline says about one node, its children aside. -/
structure OutlineInfo where
  kind : OutlineKind
  name : String
  function : String
  range : Range
  focused : Bool
  pending : Bool
  labels : List String
  deriving DecidableEq, Repr

inductive OutlineNode where
  | node (info : OutlineInfo) (children : List OutlineNode)
  deriving Repr

namespace OutlineNode

def info : OutlineNode → OutlineInfo
  | .node info _ => info

def children : OutlineNode → List OutlineNode
  | .node _ children => children

mutual

/-- The nodes of a subtree. -/
def count : OutlineNode → Nat
  | .node _ children => 1 + countAll children

/-- The nodes of a forest. -/
def countAll : List OutlineNode → Nat
  | [] => 0
  | n :: rest => n.count + countAll rest

end

end OutlineNode

structure Outline where
  roots : List OutlineNode
  deriving Repr, Inhabited

namespace Outline

/-- How many containers and specs there are. -/
def size (o : Outline) : Nat := OutlineNode.countAll o.roots

def isEmpty (o : Outline) : Bool := o.roots.isEmpty

end Outline

end SpecExplorer
