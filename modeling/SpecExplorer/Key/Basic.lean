/-
# Node keys

A node of a test file is known by the names from the file down to it. Siblings of one name are
told apart by an ordinal in source order, counted from zero. The file itself has the empty key, so
the keys of a file form a tree under the prefix order: a node lies below another exactly when its
key extends the other's.
-/

namespace SpecExplorer

/-- One step of a key: a name and its position among the siblings of that name. -/
structure Segment where
  name : String
  ordinal : Nat
  deriving DecidableEq, Hashable, Repr

/-- The identity of a node, from the outermost container down. -/
structure NodeKey where
  segments : List Segment
  deriving DecidableEq, Hashable, Repr

namespace NodeKey

/-- The key of the file. -/
def root : NodeKey := ⟨[]⟩

def isRoot (key : NodeKey) : Bool := key.segments.isEmpty

/-- The key of a child. -/
def child (key : NodeKey) (name : String) (ordinal : Nat) : NodeKey :=
  ⟨key.segments ++ [⟨name, ordinal⟩]⟩

/-- The key of names that are all first of their name. -/
def ofNames (names : List String) : NodeKey := ⟨names.map fun name => ⟨name, 0⟩⟩

def depth (key : NodeKey) : Nat := key.segments.length

def names (key : NodeKey) : List String := key.segments.map (·.name)

/-- The key of the parent; the file has none. -/
def parent? (key : NodeKey) : Option NodeKey :=
  if key.isRoot then none else some ⟨key.segments.dropLast⟩

/-- The names joined by single spaces, which is the text that a focus expression is held
against. -/
def fullText (key : NodeKey) : String := String.intercalate " " key.names

/-- Whether `key` is `other` or one of its ancestors. -/
def covers (key other : NodeKey) : Bool := key.segments.isPrefixOf other.segments

/-- Segments are ordered by name, then by ordinal. Code points order names, which is also the
order of their UTF-8 bytes. -/
def compareSegments (a b : Segment) : Ordering :=
  (compare a.name b.name).then (compare a.ordinal b.ordinal)

/-- Segment by segment, a prefix first. -/
def compareLists : List Segment → List Segment → Ordering
  | [], [] => .eq
  | [], _ :: _ => .lt
  | _ :: _, [] => .gt
  | a :: as, b :: bs => (compareSegments a b).then (compareLists as bs)

instance : Ord NodeKey := ⟨fun a b => compareLists a.segments b.segments⟩

/-- The distinct keys of a list in order. -/
def sort (keys : List NodeKey) : List NodeKey :=
  keys.eraseDups.mergeSort fun a b => (compare a b).isLE

end NodeKey

end SpecExplorer
