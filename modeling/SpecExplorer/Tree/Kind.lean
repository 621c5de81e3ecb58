/-
# Kinds of nodes

The tree of a file has one root, which stands for the file, and below it containers and specs.
-/
import SpecExplorer.Outline.Basic

namespace SpecExplorer

/-- What a node of the tree stands for. -/
inductive NodeKind where
  | root
  | container
  | spec
  deriving DecidableEq, Repr

namespace NodeKind

def name : NodeKind → String
  | .root => "root"
  | .container => "container"
  | .spec => "spec"

def ofName? : String → Option NodeKind
  | "root" => some .root
  | "container" => some .container
  | "spec" => some .spec
  | _ => none

def ofOutline : OutlineKind → NodeKind
  | .container => .container
  | .spec => .spec

end NodeKind

end SpecExplorer
