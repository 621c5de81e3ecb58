/-
# Symbols

The containers and specs of a document as a hierarchy of symbols. The file itself is none.
-/
import SpecExplorer.View.Change

namespace SpecExplorer

/-- What a symbol says about its node, its children aside. -/
structure SymbolInfo where
  name : String
  detail : Option String
  kind : NodeKind
  range : Range
  deriving DecidableEq, Repr

inductive DocumentSymbol where
  | node (info : SymbolInfo) (children : List DocumentSymbol)
  deriving Repr

namespace SymbolInfo

def ofNode (n : TestNode) : SymbolInfo where
  name := if n.name.isEmpty then "<unnamed>" else n.name
  detail := n.status.map (·.name)
  kind := n.kind
  range := n.range

/-- The number of a symbol's kind: a spec is a method, all else a namespace. -/
def kindCode (s : SymbolInfo) : Nat := if s.kind = .spec then 6 else 3

end SymbolInfo

namespace DocumentSymbol

mutual

def ofTree : TestTree → DocumentSymbol
  | .node info children => .node (.ofNode info) (ofForest children)

def ofForest : List TestTree → List DocumentSymbol
  | [] => []
  | t :: rest => ofTree t :: ofForest rest

end

/-- The symbols of a document. -/
def ofDocument (t : TestTree) : List DocumentSymbol := ofForest t.children

mutual

def json : DocumentSymbol → Json
  | .node s children => .object (
    [("name", .string s.name)] ++ Json.optionalMember "detail" .string s.detail ++
    [("kind", .nat s.kindCode), ("range", s.range.json), ("selectionRange", s.range.json)] ++
    Json.listMember "children" Json.array (jsonAll children))

def jsonAll : List DocumentSymbol → List Json
  | [] => []
  | s :: rest => json s :: jsonAll rest

end

end DocumentSymbol

end SpecExplorer
