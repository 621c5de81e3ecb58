/-
# Readers of typed members

A record is written as an object of its fields, or as an array of them in their declared order.
In an object unknown members are skipped and a known one may come once; an array may leave out
trailing fields that have a default and holds no further items. A reader takes the nesting that is
still allowed, since skipped members do not count towards it.
-/
import SpecExplorer.Json.Raw

namespace SpecExplorer

namespace Json

/-- What a value is read as, within some depth of nesting. -/
abbrev Reader (α : Type) := Nat → Raw → Option α

namespace Reader

def text : Reader String
  | _, .string s => s
  | _, _ => none

def flag : Reader Bool
  | _, .bool b => some b
  | _, _ => none

/-- A natural number up to `high`. -/
def natUpTo (high : Nat) : Reader Nat
  | _, .number n => n.toNat? high
  | _, _ => none

/-- A natural number that fits a 64-bit word. -/
def word : Reader Nat := natUpTo (Width.largest 64)

/-- An integer that fits a signed 64-bit word. -/
def signedWord : Reader Int
  | _, .number n => n.toInt? (-(Width.count 63 : Nat)) (Width.largest 63)
  | _, _ => none

/-- An array with every item read alike. -/
def listOf {α : Type} (item : Reader α) : Reader (List α)
  | depth, .array items => do
    let depth ← Raw.inner? depth
    items.mapM (item depth)
  | _, _ => none

/-- `null` for none. -/
def orNull {α : Type} (some? : Reader α) : Reader (Option α)
  | _, .null => some none
  | depth, r => (some? depth r).map some

/-- The name of a case without content: a string, or an object that maps the name to `null`. -/
def caseName : Reader String
  | _, .string s => s
  | depth, .object [(name, .null)] => do
    let _ ← Raw.inner? depth
    name
  | _, _ => none

end Reader

/-- The members of a record that were present, and how the record was written. -/
structure Fields where
  positional : Bool
  values : List (String × Raw)
  /-- The nesting allowed inside a member. -/
  depth : Nat

namespace Fields

/-- The known members of an object, each once. Every name must have a text. -/
def known (names : List String) :
    List (Option String × Raw) → Option (List (String × Raw))
  | [] => some []
  | (name, r) :: rest => do
    let name ← name
    let later ← known names rest
    if names.contains name then
      if later.any (·.1 == name) then none else some ((name, r) :: later)
    else some later

/-- Reads a value as a record with these field names, in declared order. -/
def read (names : List String) (depth : Nat) : Raw → Option Fields
  | .object members => do
    let depth ← Raw.inner? depth
    some ⟨false, ← known names members, depth⟩
  | .array items => do
    let depth ← Raw.inner? depth
    if items.length ≤ names.length then some ⟨true, names.zip items, depth⟩ else none
  | _ => none

def value? (fields : Fields) (name : String) : Option Raw :=
  (fields.values.find? (·.1 == name)).map (·.2)

/-- A member that has to be there. -/
def required {α : Type} (fields : Fields) (name : String) (reader : Reader α) : Option α := do
  reader fields.depth (← fields.value? name)

/-- A member with a default. A `null` is not the default: it is read as a value. -/
def withDefault {α : Type} (fields : Fields) (name : String) (default : α)
    (reader : Reader α) : Option α :=
  match fields.value? name with
  | none => some default
  | some r => reader fields.depth r

/-- A member that may be `null` or missing in any way of writing. -/
def optional {α : Type} (fields : Fields) (name : String) (reader : Reader α) :
    Option (Option α) :=
  fields.withDefault name none reader.orNull

/-- A member that may be `null`, or missing from an object but not from an array. -/
def nullable {α : Type} (fields : Fields) (name : String) (reader : Reader α) :
    Option (Option α) :=
  if fields.positional then fields.required name reader.orNull else fields.optional name reader

end Fields

end Json

end SpecExplorer
