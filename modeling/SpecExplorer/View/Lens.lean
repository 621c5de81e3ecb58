/-
# Lenses

Above every container and spec the client may show a command that runs it, with the status of the
last run.
-/
import SpecExplorer.View.Change

namespace SpecExplorer

/-- A place to run a node from. -/
structure Lens where
  range : Range
  key : NodeKey
  label : String
  deriving DecidableEq, Repr

namespace Lens

/-- The command behind every lens. -/
def command : String := "ginkgo.runNodeFromLens"

/-- What a lens says about a kind of node; the file has none. -/
def base? : NodeKind → Option String
  | .root => none
  | .container => some "run container"
  | .spec => some "run spec"

/-- The lens of a node. -/
def ofNode? (n : TestNode) : Option Lens :=
  (base? n.kind).map fun base =>
    { range := n.range.collapse
      key := n.key
      label := match n.status with
        | none => base
        | some status => base ++ " (" ++ status.name ++ ")" }

/-- The lenses of a tree in source order, none while they are switched off. -/
def ofTree (t : TestTree) (enabled : Bool) : List Lens :=
  if enabled then t.nodes.filterMap ofNode? else []

def json (uri : Uri) (l : Lens) : Json := .object [
  ("range", l.range.json),
  ("command", .object [("title", .string l.label), ("command", .string command),
    ("arguments", .array [uri.json, l.key.json])])]

end Lens

end SpecExplorer
