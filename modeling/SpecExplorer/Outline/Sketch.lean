/-
# Sketches of outlines

An outline can be written down as JSON: a node is an object with its kind, its name, its range as
four numbers, its decorations and its children. All but the name can be left out, and whatever is
not called a spec is a container. A spec may be given children here, as no tool would do.
-/
import SpecExplorer.Json.Member
import SpecExplorer.Outline.Basic

namespace SpecExplorer

/-- A range from its two lines and columns. -/
def Range.ofSketch : Json → Range
  | .array [startLine, startColumn, stopLine, stopColumn] =>
    let number (j : Json) : UInt32 := (j.word?.getD 0).toUInt32
    ⟨⟨number startLine, number startColumn⟩, ⟨number stopLine, number stopColumn⟩⟩
  | _ => .zero

namespace OutlineInfo

/-- What a sketch says about one node. -/
def ofSketch (j : Json) : OutlineInfo :=
  let spec := j.textAt "kind" == "spec"
  { kind := if spec then .spec else .container
    name := j.textAt "name"
    function := if spec then "It" else "Describe"
    range := .ofSketch (j.memberAt "range")
    focused := j.flagAt "focused"
    pending := j.flagAt "pending"
    labels := j.textsAt "labels" }

end OutlineInfo

namespace OutlineNode

mutual

/-- The node that a sketch stands for. -/
def ofSketch : Json → OutlineNode
  | .object members => .node (.ofSketch (.object members)) (childrenOfSketch members)
  | j => .node (.ofSketch j) []

/-- The children are those of the last member that is named so. -/
def childrenOfSketch : List (String × Json) → List OutlineNode
  | [] => []
  | (name, j) :: rest =>
    if name == "children" && !rest.any (·.1 == "children") then ofItem j
    else childrenOfSketch rest

/-- The nodes of a list, none for another value. -/
def ofItem : Json → List OutlineNode
  | .array items => ofSketches items
  | _ => []

def ofSketches : List Json → List OutlineNode
  | [] => []
  | j :: rest => ofSketch j :: ofSketches rest

end

end OutlineNode

namespace Outline

/-- The outline whose roots are sketched. -/
def ofSketches (items : List Json) : Outline := ⟨OutlineNode.ofSketches items⟩

end Outline

end SpecExplorer
