/-
# Outlines as the test tool writes them

The tool lists every node of a file by byte offsets: containers, specs, and setup nodes of all
kinds. `Declaration` is such a node. An outline keeps the containers and the specs. A setup node
is left out and its content moves up to where it stood, and a spec keeps no content at all. A node
is recognised by the function that declared it, with one letter for focused or pending nodes in
front, and any other node counts as a spec if the tool says so.
-/
import SpecExplorer.Json.Reader
import SpecExplorer.Outline.Basic
import SpecExplorer.Text.Blank

namespace SpecExplorer

/-- A node as the tool reports it, with byte offsets for its place. -/
structure DeclarationInfo where
  function : String
  text : String
  start : Nat
  stop : Nat
  spec : Bool
  focused : Bool
  pending : Bool
  labels : List String
  deriving DecidableEq, Repr

inductive Declaration where
  | node (info : DeclarationInfo) (nodes : List Declaration)
  deriving Repr

namespace DeclarationInfo

/-- The functions that declare a container or a spec. -/
def knownKind? : String → Option OutlineKind
  | "Describe" | "Context" | "When" | "DescribeTable" | "DescribeTableSubtree" => some .container
  | "It" | "Specify" | "Entry" => some .spec
  | _ => none

/-- The function without the letter for a focused or pending variant. -/
def plainFunction (function : String) : String :=
  match function.toList with
  | c :: rest =>
    if c = 'F' || c = 'P' || c = 'X' then String.ofList rest else function
  | [] => function

/-- What the node counts as, `none` for setup. -/
def kind? (d : DeclarationInfo) : Option OutlineKind :=
  match knownKind? (plainFunction d.function) with
  | some kind => some kind
  | none => if d.spec then some .spec else none

/-- The name shown: the description, or the function where there is none. -/
def name (d : DeclarationInfo) : String := if d.text.isEmpty then d.function else d.text

def toOutline (content : String) (kind : OutlineKind) (d : DeclarationInfo) : OutlineInfo where
  kind := kind
  name := d.name
  function := d.function
  range := ⟨.ofOffset content d.start, .ofOffset content d.stop⟩
  focused := d.focused
  pending := d.pending
  labels := d.labels

end DeclarationInfo

namespace Declaration

mutual

/-- The outline nodes that a declaration gives at its place. -/
def outline (content : String) : Declaration → List OutlineNode
  | .node d nodes =>
    match d.kind? with
    | some .container => [.node (d.toOutline content .container) (outlineAll content nodes)]
    | some .spec => [.node (d.toOutline content .spec) []]
    | none => outlineAll content nodes

def outlineAll (content : String) : List Declaration → List OutlineNode
  | [] => []
  | d :: rest => outline content d ++ outlineAll content rest

end

/-! ### Reading -/

def fieldNames : List String :=
  ["name", "text", "start", "end", "spec", "focused", "pending", "labels", "nodes"]

def readInfo (fields : Json.Fields) : Option DeclarationInfo := do
  some {
    function := ← fields.required "name" Json.Reader.text
    text := ← fields.withDefault "text" "" Json.Reader.text
    start := ← fields.required "start" Json.Reader.word
    stop := ← fields.required "end" Json.Reader.word
    spec := ← fields.withDefault "spec" false Json.Reader.flag
    focused := ← fields.withDefault "focused" false Json.Reader.flag
    pending := ← fields.withDefault "pending" false Json.Reader.flag
    labels := (← fields.optional "labels" (Json.Reader.listOf Json.Reader.text)).getD [] }

/-- Reads one declaration. Each level of nested declarations spends two levels of JSON nesting,
so `fuel` up to the allowed depth is enough. -/
def readWithin : Nat → Json.Reader Declaration
  | 0, _, _ => none
  | fuel + 1, depth, r => do
    let fields ← Json.Fields.read fieldNames depth r
    let info ← readInfo fields
    let nodes ← fields.withDefault "nodes" [] (Json.Reader.listOf (readWithin fuel))
    some (.node info nodes)

def reader : Json.Reader Declaration := fun depth r => readWithin depth depth r

/-- The declarations of a whole text. No text at all and `null` stand for none. -/
def readAll? (text : String) : Option (List Declaration) :=
  let text := Text.trim text
  if text.isEmpty || text == "null" then some []
  else do Json.Reader.listOf reader Json.maxDepth (← Json.Raw.read? text)

end Declaration

namespace Outline

/-- The outline that declarations give for the text they were made from. -/
def ofDeclarations (content : String) (ds : List Declaration) : Outline :=
  ⟨Declaration.outlineAll content ds⟩

/-- Reads the tool's answer for a text. -/
def decode? (text content : String) : Option Outline :=
  (Declaration.readAll? text).map (ofDeclarations content)

end Outline

end SpecExplorer
