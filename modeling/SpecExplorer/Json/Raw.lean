/-
# JSON texts read for their grammar

Reading happens in two stages. `Raw.read?` follows the grammar alone: blanks are space, tab, line
feed and carriage return, a number has no leading zero or plus sign, a string holds no control
character, and nothing may follow the value. What the grammar admits but a value cannot hold stays
visible: a string whose escapes name half of a surrogate pair has no text, a number keeps its
written magnitude, and nesting is not bounded. `Raw.toJson?` then builds the value and refuses all
three. A reader that skips a member therefore never looks at those faults inside it.
-/
import SpecExplorer.Json.Basic

namespace SpecExplorer

namespace Json

/-- A JSON text by its grammar. A string with half a surrogate pair among its escapes is `none`. -/
inductive Raw where
  | null
  | bool (value : Bool)
  | number (value : Number)
  | string (text : Option String)
  | array (items : List Raw)
  | object (members : List (Option String × Raw))
  deriving Repr

namespace Raw

def isBlank (c : Char) : Bool := c = ' ' || c = '\t' || c = '\n' || c = '\r'

def skipBlanks (cs : List Char) : List Char := cs.dropWhile isBlank

/-! ### Strings -/

/-- The value of a hexadecimal digit. -/
def hexValue? (c : Char) : Option Nat :=
  if '0' ≤ c ∧ c ≤ '9' then some (c.toNat - '0'.toNat)
  else if 'a' ≤ c ∧ c ≤ 'f' then some (c.toNat - 'a'.toNat + 10)
  else if 'A' ≤ c ∧ c ≤ 'F' then some (c.toNat - 'A'.toNat + 10)
  else none

/-- The character that a one-letter escape stands for. -/
def shortEscape? (c : Char) : Option Char :=
  if c = '"' ∨ c = '\\' ∨ c = '/' then some c
  else if c = 'b' then some (Char.ofNat 8)
  else if c = 'f' then some (Char.ofNat 12)
  else if c = 'n' then some '\n'
  else if c = 'r' then some '\r'
  else if c = 't' then some '\t'
  else none

/-- The code units of a string up to its closing quote, and what follows the quote. A character
above the basic plane counts as one unit here; only escapes can name surrogates. -/
def readUnits : List Char → Option (List Nat × List Char)
  | [] => none
  | '"' :: rest => some ([], rest)
  | '\\' :: 'u' :: a :: b :: c :: d :: rest => do
    let unit := ((← hexValue? a) * 16 + (← hexValue? b)) * 256
      + ((← hexValue? c) * 16 + (← hexValue? d))
    let (units, rest) ← readUnits rest
    some (unit :: units, rest)
  | '\\' :: c :: rest => do
    let c ← shortEscape? c
    let (units, rest) ← readUnits rest
    some (c.toNat :: units, rest)
  | c :: rest =>
    if c.toNat < 0x20 ∨ c = '\\' then none
    else do
      let (units, rest) ← readUnits rest
      some (c.toNat :: units, rest)

def isHighSurrogate (n : Nat) : Bool := 0xD800 ≤ n && n < 0xDC00

def isLowSurrogate (n : Nat) : Bool := 0xDC00 ≤ n && n < 0xE000

/-- Joins surrogate pairs; a half without its other half has no text. -/
def joinUnits : List Nat → Option (List Char)
  | [] => some []
  | high :: low :: rest =>
    if isHighSurrogate high then
      if isLowSurrogate low then
        (joinUnits rest).map
          (Char.ofNat (0x10000 + (high - 0xD800) * 0x400 + (low - 0xDC00)) :: ·)
      else none
    else if isLowSurrogate high then none
    else (joinUnits (low :: rest)).map (Char.ofNat high :: ·)
  | [unit] =>
    if isHighSurrogate unit || isLowSurrogate unit then none else some [Char.ofNat unit]

/-- A string after its opening quote. -/
def readString (cs : List Char) : Option (Option String × List Char) := do
  let (units, rest) ← readUnits cs
  some ((joinUnits units).map String.ofList, rest)

/-! ### Numbers -/

/-- The number that a run of decimal digits stands for, continuing from `n`. -/
def digitsValue (n : Nat) (digits : List Char) : Nat :=
  digits.foldl (fun n d => n * 10 + (d.toNat - '0'.toNat)) n

/-- A run of at least one digit. -/
def readDigits (cs : List Char) : Option (List Char × List Char) :=
  match cs.span Char.isDigit with
  | ([], _) => none
  | (digits, rest) => some (digits, rest)

/-- The whole part of a number: one zero, or digits that do not start with zero. -/
def readWhole (cs : List Char) : Option (List Char × List Char) := do
  let (digits, rest) ← readDigits cs
  match digits with
  | '0' :: _ :: _ => none
  | _ => some (digits, rest)

/-- The exponent part, when there is one. -/
def readExponent : List Char → Option (Option Int × List Char)
  | e :: rest =>
    if e = 'e' ∨ e = 'E' then
      match rest with
      | '-' :: rest => do
        let (digits, rest) ← readDigits rest
        some (some (-(digitsValue 0 digits : Int)), rest)
      | '+' :: rest => do
        let (digits, rest) ← readDigits rest
        some (some (digitsValue 0 digits : Int), rest)
      | rest => do
        let (digits, rest) ← readDigits rest
        some (some (digitsValue 0 digits : Int), rest)
    else some (none, e :: rest)
  | [] => some (none, [])

/-- The digits after a point, when there is one. -/
def readFraction : List Char → Option (Option (List Char) × List Char)
  | '.' :: rest => do
    let (digits, rest) ← readDigits rest
    some (some digits, rest)
  | rest => some (none, rest)

/-- A number. Minus zero is a real, since no integer is it. -/
def readNumber (cs : List Char) : Option (Number × List Char) := do
  let (negative, cs) := match cs with
    | '-' :: rest => (true, rest)
    | _ => (false, cs)
  let (whole, rest) ← readWhole cs
  let (fraction, rest) ← readFraction rest
  let (exponent, rest) ← readExponent rest
  let value := digitsValue 0 whole
  match fraction, exponent with
  | none, none =>
    if negative then
      if value = 0 then some (.real true 0 0, rest) else some (.integer (-(value : Int)), rest)
    else some (.integer value, rest)
  | _, _ =>
    let digits := fraction.getD []
    some (.real negative (digitsValue value digits) (exponent.getD 0 - digits.length), rest)

/-! ### Values -/

mutual

/-- A value at the front of the text. Every call spends one unit of `fuel`. -/
def readValue : Nat → List Char → Option (Raw × List Char)
  | 0, _ => none
  | fuel + 1, cs =>
    match skipBlanks cs with
    | 'n' :: 'u' :: 'l' :: 'l' :: rest => some (.null, rest)
    | 't' :: 'r' :: 'u' :: 'e' :: rest => some (.bool true, rest)
    | 'f' :: 'a' :: 'l' :: 's' :: 'e' :: rest => some (.bool false, rest)
    | '"' :: rest => do
      let (text, rest) ← readString rest
      some (.string text, rest)
    | '[' :: rest =>
      match skipBlanks rest with
      | ']' :: rest => some (.array [], rest)
      | rest => do
        let (items, rest) ← readItems fuel rest
        some (.array items, rest)
    | '\x7b' :: rest =>
      match skipBlanks rest with
      | '\x7d' :: rest => some (.object [], rest)
      | rest => do
        let (members, rest) ← readMembers fuel rest
        some (.object members, rest)
    | rest => do
      let (n, rest) ← readNumber rest
      some (.number n, rest)

/-- The items of an array that has one at least, up to the closing bracket. -/
def readItems : Nat → List Char → Option (List Raw × List Char)
  | 0, _ => none
  | fuel + 1, cs => do
    let (item, rest) ← readValue fuel cs
    match skipBlanks rest with
    | ']' :: rest => some ([item], rest)
    | ',' :: rest => do
      let (items, rest) ← readItems fuel rest
      some (item :: items, rest)
    | _ => none

/-- The members of an object that has one at least, up to the closing brace. -/
def readMembers : Nat → List Char → Option (List (Option String × Raw) × List Char)
  | 0, _ => none
  | fuel + 1, cs =>
    match skipBlanks cs with
    | '"' :: rest => do
      let (name, rest) ← readString rest
      match skipBlanks rest with
      | ':' :: rest => do
        let (value, rest) ← readValue fuel rest
        match skipBlanks rest with
        | '\x7d' :: rest => some ([(name, value)], rest)
        | ',' :: rest => do
          let (members, rest) ← readMembers fuel rest
          some ((name, value) :: members, rest)
        | _ => none
      | _ => none
    | _ => none

end

/-- Reads a whole text. An array or object spends two units of fuel for its first bracket and one
for every further comma, so twice the length is enough. -/
def read? (text : String) : Option Raw := do
  let cs := text.toList
  let (value, rest) ← readValue (2 * cs.length + 2) cs
  match skipBlanks rest with
  | [] => some value
  | _ => none

end Raw

/-- The nesting that a reader of a whole text allows: arrays and objects may not be nested this
deep. -/
def maxDepth : Nat := 128

namespace Raw

/-- The depth left inside an array or object, `none` where nesting ends. -/
def inner? (depth : Nat) : Option Nat :=
  if depth ≤ 1 then none else some (depth - 1)

mutual

/-- The value of a text within `depth` levels of nesting. -/
def toJson? (depth : Nat) : Raw → Option Json
  | .null => some .null
  | .bool b => some (.bool b)
  | .number n => if n.isFinite then some (.number n) else none
  | .string text => text.map .string
  | .array items => do
    let depth ← inner? depth
    (itemsToJson? depth items).map .array
  | .object members => do
    let depth ← inner? depth
    (membersToJson? depth members).map .object

def itemsToJson? (depth : Nat) : List Raw → Option (List Json)
  | [] => some []
  | r :: rest => do
    let v ← toJson? depth r
    (itemsToJson? depth rest).map (v :: ·)

def membersToJson? (depth : Nat) : List (Option String × Raw) → Option (List (String × Json))
  | [] => some []
  | (name, r) :: rest => do
    let name ← name
    let v ← toJson? depth r
    (membersToJson? depth rest).map ((name, v) :: ·)

end

end Raw

mutual

/-- A value as a text that spells it out. -/
def raw : Json → Raw
  | .null => .null
  | .bool b => .bool b
  | .number n => .number n
  | .string s => .string (some s)
  | .array items => .array (rawItems items)
  | .object members => .object (rawMembers members)

def rawItems : List Json → List Raw
  | [] => []
  | v :: rest => raw v :: rawItems rest

def rawMembers : List (String × Json) → List (Option String × Raw)
  | [] => []
  | (name, v) :: rest => (some name, raw v) :: rawMembers rest

end

/-- The value of a whole text. -/
def read? (text : String) : Option Json := do (← Raw.read? text).toJson? maxDepth

end Json

end SpecExplorer
