/-
# JSON values

A value as a program holds it: strings are texts, and an object is the list of its members in
written order, repeated names included. Looking a name up takes its last member, which is what
"the last of repeated members wins" means. The printer is the compact form, with a member's name
and a string escaped no further than the grammar asks.
-/
import SpecExplorer.Json.Number

namespace SpecExplorer

inductive Json where
  | null
  | bool (value : Bool)
  | number (value : Json.Number)
  | string (value : String)
  | array (items : List Json)
  | object (members : List (String × Json))
  deriving Repr

namespace Json

instance : Inhabited Json := ⟨.null⟩

/-- A natural number as a JSON number. -/
def nat (n : Nat) : Json := .number (.integer n)

/-- An integer as a JSON number. -/
def int (n : Int) : Json := .number (.integer n)

/-- A value that may be absent, with `null` for none. -/
def ofOption {α : Type} (encode : α → Json) : Option α → Json
  | none => .null
  | some a => encode a

/-- A list of texts. -/
def strings (texts : List String) : Json := .array (texts.map .string)

/-- The last member with this name. -/
def lookup (name : String) (members : List (String × Json)) : Option Json :=
  (members.reverse.find? fun m => m.1 == name).map (·.2)

/-- The member of an object; other values have none. -/
def member? (name : String) : Json → Option Json
  | .object members => lookup name members
  | _ => none

def string? : Json → Option String
  | .string s => some s
  | _ => none

def bool? : Json → Option Bool
  | .bool b => some b
  | _ => none

def array? : Json → Option (List Json)
  | .array items => some items
  | _ => none

/-- A plain natural number that fits a 64-bit word. -/
def word? : Json → Option Nat
  | .number n => n.toNat? (Width.largest 64)
  | _ => none

/-! ### Printing -/

/-- A digit of base sixteen, in lower case. -/
def hexDigit (n : Nat) : Char :=
  if n < 10 then Char.ofNat ('0'.toNat + n) else Char.ofNat ('a'.toNat + (n - 10))

/-- `n` in base sixteen with exactly `width` digits, the highest ones dropped. -/
def hexDigits : Nat → Nat → List Char
  | 0, _ => []
  | width + 1, n => hexDigits width (n / 16) ++ [hexDigit (n % 16)]

/-- One character inside quotes. -/
def escapeChar (c : Char) : List Char :=
  if c = '"' then ['\\', '"']
  else if c = '\\' then ['\\', '\\']
  else if c = '\n' then ['\\', 'n']
  else if c = '\r' then ['\\', 'r']
  else if c = '\t' then ['\\', 't']
  else if c.toNat < 0x20 then '\\' :: 'u' :: hexDigits 4 c.toNat
  else [c]

/-- A text between quotes. -/
def quote (s : String) : String :=
  String.ofList ('"' :: (s.toList.flatMap escapeChar ++ ['"']))

mutual

/-- The compact written form. -/
def render : Json → String
  | .null => "null"
  | .bool true => "true"
  | .bool false => "false"
  | .number n => n.text
  | .string s => quote s
  | .array items => "[" ++ String.intercalate "," (renderItems items) ++ "]"
  | .object members => "\x7b" ++ String.intercalate "," (renderMembers members) ++ "\x7d"

def renderItems : List Json → List String
  | [] => []
  | v :: rest => render v :: renderItems rest

def renderMembers : List (String × Json) → List String
  | [] => []
  | (name, v) :: rest => (quote name ++ ":" ++ render v) :: renderMembers rest

end

end Json

end SpecExplorer
