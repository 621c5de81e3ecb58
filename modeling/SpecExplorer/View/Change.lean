/-
# Changes of a tree as the client is told of them

A change names a document and lists items that replace whole subtrees, keys that are gone, and
statuses of single nodes. Its JSON form leaves out empty lists and absent descriptions, but an
absent status is written as `null`.
-/
import SpecExplorer.Json.Reader
import SpecExplorer.Key.Text
import SpecExplorer.Tree.Merge
import SpecExplorer.Uri.Parse
import SpecExplorer.View.Item

namespace SpecExplorer

structure TreeChange where
  uri : Uri
  items : List TreeItem
  removed : List NodeKey
  statuses : List NodeStatus
  deriving Repr

namespace TreeChange

def isEmpty (c : TreeChange) : Bool :=
  c.items.isEmpty && c.removed.isEmpty && c.statuses.isEmpty

/-- The change from one outline to the next. -/
def ofDelta (uri : Uri) (t : TestTree) (d : TreeDelta) : TreeChange where
  uri := uri
  items := (d.changed.filterMap t.find?).map .ofTree
  removed := d.removed
  statuses := []

/-- The change of some nodes by a run; a node listed again counts once. -/
def ofStatuses (uri : Uri) (t : TestTree) (changed : List NodeKey) : TreeChange where
  uri := uri
  items := []
  removed := []
  statuses := (changed.eraseDups.filterMap t.node?).map .ofNode

end TreeChange

/-! ### JSON forms -/

namespace Position

def json (p : Position) : Json :=
  .object [("line", .nat p.line.toNat), ("character", .nat p.character.toNat)]

def fieldNames : List String := ["line", "character"]

/-- A 32-bit word. -/
def wordReader : Json.Reader UInt32 := fun depth r =>
  (Json.Reader.natUpTo (Width.largest 32) depth r).map (·.toUInt32)

def reader : Json.Reader Position := fun depth r => do
  let fields ← Json.Fields.read fieldNames depth r
  some ⟨← fields.required "line" wordReader, ← fields.required "character" wordReader⟩

end Position

namespace Range

def json (r : Range) : Json := .object [("start", r.start.json), ("end", r.stop.json)]

def fieldNames : List String := ["start", "end"]

def reader : Json.Reader Range := fun depth r => do
  let fields ← Json.Fields.read fieldNames depth r
  some ⟨← fields.required "start" Position.reader, ← fields.required "end" Position.reader⟩

end Range

/-- A member that is left out where there is nothing to say. -/
def Json.optionalMember {α : Type} (name : String) (encode : α → Json) (value : Option α) :
    List (String × Json) :=
  (value.map fun a => (name, encode a)).toList

/-- A list that is left out where it is empty. -/
def Json.listMember {α : Type} (name : String) (encode : List α → Json) (items : List α) :
    List (String × Json) :=
  if items.isEmpty then [] else [(name, encode items)]

namespace NodeKey

def json (key : NodeKey) : Json := .string key.text

def reader : Json.Reader NodeKey := fun depth r => (Json.Reader.text depth r).map parse

end NodeKey

namespace Uri

def json (u : Uri) : Json := .string u.text

def reader : Json.Reader Uri := fun depth r => (Json.Reader.text depth r).bind parse?

end Uri

namespace NodeKind

def json (kind : NodeKind) : Json := .string kind.name

def reader : Json.Reader NodeKind := fun depth r => (Json.Reader.caseName depth r).bind ofName?

end NodeKind

namespace RunStatus

def json (status : RunStatus) : Json := .string status.name

def reader : Json.Reader RunStatus := fun depth r => (Json.Reader.caseName depth r).bind ofName?

end RunStatus

namespace ItemInfo

def fieldNames : List String :=
  ["key", "label", "description", "kind", "status", "range", "expanded", "children"]

def read (fields : Json.Fields) : Option ItemInfo := do
  some {
    key := ← fields.required "key" NodeKey.reader
    label := ← fields.required "label" Json.Reader.text
    description := ← fields.nullable "description" Json.Reader.text
    kind := ← fields.required "kind" NodeKind.reader
    status := ← fields.nullable "status" RunStatus.reader
    range := ← fields.required "range" Range.reader
    expanded := ← fields.required "expanded" Json.Reader.flag }

end ItemInfo

namespace TreeItem

mutual

def json : TreeItem → Json
  | .node i children => .object (
    [("key", i.key.json), ("label", .string i.label)] ++
    Json.optionalMember "description" .string i.description ++
    [("kind", i.kind.json), ("status", Json.ofOption RunStatus.json i.status),
      ("range", i.range.json), ("expanded", .bool i.expanded),
      ("children", .array (jsonAll children))])

def jsonAll : List TreeItem → List Json
  | [] => []
  | item :: rest => json item :: jsonAll rest

end

/-- Reads an item. Each level of items spends two levels of JSON nesting, so `fuel` up to the
allowed depth is enough. -/
def readWithin : Nat → Json.Reader TreeItem
  | 0, _, _ => none
  | fuel + 1, depth, r => do
    let fields ← Json.Fields.read ItemInfo.fieldNames depth r
    let info ← ItemInfo.read fields
    let children ← fields.required "children" (Json.Reader.listOf (readWithin fuel))
    some (.node info children)

def reader : Json.Reader TreeItem := fun depth r => readWithin depth depth r

end TreeItem

namespace NodeStatus

def json (s : NodeStatus) : Json := .object (
  [("key", s.key.json), ("status", Json.ofOption RunStatus.json s.status)] ++
  Json.optionalMember "description" .string s.description)

def fieldNames : List String := ["key", "status", "description"]

def reader : Json.Reader NodeStatus := fun depth r => do
  let fields ← Json.Fields.read fieldNames depth r
  some {
    key := ← fields.required "key" NodeKey.reader
    status := ← fields.nullable "status" RunStatus.reader
    description := ← fields.nullable "description" Json.Reader.text }

end NodeStatus

namespace TreeChange

def json (c : TreeChange) : Json := .object (
  [("uri", c.uri.json)] ++
  Json.listMember "items" (fun items => .array (TreeItem.jsonAll items)) c.items ++
  Json.listMember "removed" (fun keys => .array (keys.map NodeKey.json)) c.removed ++
  Json.listMember "statuses" (fun statuses => .array (statuses.map NodeStatus.json)) c.statuses)

def fieldNames : List String := ["uri", "items", "removed", "statuses"]

def reader : Json.Reader TreeChange := fun depth r => do
  let fields ← Json.Fields.read fieldNames depth r
  some {
    uri := ← fields.required "uri" Uri.reader
    items := ← fields.withDefault "items" [] (Json.Reader.listOf TreeItem.reader)
    removed := ← fields.withDefault "removed" [] (Json.Reader.listOf NodeKey.reader)
    statuses := ← fields.withDefault "statuses" [] (Json.Reader.listOf NodeStatus.reader) }

end TreeChange

/-- A request that names a document and nothing else. -/
structure DocumentRequest where
  uri : Uri
  deriving Repr

namespace DocumentRequest

def json (d : DocumentRequest) : Json := .object [("uri", d.uri.json)]

def reader : Json.Reader DocumentRequest := fun depth r => do
  let fields ← Json.Fields.read ["uri"] depth r
  some ⟨← fields.required "uri" Uri.reader⟩

end DocumentRequest

end SpecExplorer
