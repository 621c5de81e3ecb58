/-
# Hosts

The host of an address is a name, an IPv4 address or an IPv6 address. In addresses of the web and
of files a host is normalised: its percent signs are decoded, its labels are written in ASCII, and
a host whose last label is a number has to be an IPv4 address in any of its notations. In other
addresses a host is kept as it is written.
-/
import SpecExplorer.Uri.Label
import SpecExplorer.Uri.Percent

namespace SpecExplorer

inductive Host where
  | name (text : String)
  | ipv4 (address : Nat)
  /-- Eight pieces of sixteen bits. -/
  | ipv6 (pieces : List Nat)
  deriving DecidableEq, Repr

namespace Host

/-! ### Splitting -/

/-- The parts between occurrences of a character. -/
def splitAt (c : Char) : List Char → List (List Char)
  | [] => [[]]
  | d :: rest =>
    match splitAt c rest with
    | part :: later => if d = c then [] :: part :: later else (d :: part) :: later
    | [] => [[d]]

/-! ### IPv4 -/

/-- The value of a digit in a base up to sixteen. -/
def digitIn? (base : Nat) (c : Char) : Option Nat :=
  (Json.Raw.hexValue? c).bind fun v => if v < base then some v else none

/-- A number in a base; no digits at all are zero. -/
def numberIn? (base : Nat) (cs : List Char) : Option Nat :=
  cs.foldlM (fun n c => (digitIn? base c).map (n * base + ·)) 0

/-- A part of an IPv4 address: hexadecimal after `0x`, octal after another `0`, else decimal. -/
def ipv4Number? : List Char → Option Nat
  | [] => none
  | '0' :: 'x' :: rest => numberIn? 16 rest
  | '0' :: 'X' :: rest => numberIn? 16 rest
  | '0' :: c :: rest => numberIn? 8 (c :: rest)
  | cs => numberIn? 10 cs

/-- The labels of a name without the empty one after a final dot. -/
def labels (cs : List Char) : List (List Char) :=
  let parts := splitAt '.' cs
  if 1 < parts.length && parts.getLast?.any (·.isEmpty) then parts.dropLast else parts

/-- Whether a name has to be read as an IPv4 address. -/
def endsInNumber (cs : List Char) : Bool :=
  match (labels cs).getLast? with
  | none => false
  | some last => (!last.isEmpty && last.all Char.isDigit) || (ipv4Number? last).isSome

/-- What a byte counts for with some bytes after it. -/
def byteUnit (after : Nat) : Nat := Width.count (8 * after)

/-- The address of one to four numbers, the last of which fills the remaining bytes. -/
def ipv4Of? (numbers : List Nat) : Option Nat :=
  match numbers.reverse with
  | [] => none
  | last :: before =>
    if 3 < before.length || before.any (255 < ·) then none
    else if byteUnit (4 - before.length) ≤ last then none
    else some (before.reverse.zipIdx.foldl (fun sum (n, i) => sum + n * byteUnit (3 - i)) last)

def ipv4? (cs : List Char) : Option Nat := do ipv4Of? (← (labels cs).mapM ipv4Number?)

/-- Four decimal numbers up to 255 without leading zeros, as two pieces of an IPv6 address. -/
def dottedPieces? (cs : List Char) : Option (List Nat) := do
  let parts := splitAt '.' cs
  let numbers ← parts.mapM fun part =>
    if part.isEmpty || 3 < part.length || (1 < part.length && part.head? = some '0') then none
    else numberIn? 10 part
  match numbers with
  | [a, b, c, d] =>
    if numbers.any (255 < ·) then none else some [a * 256 + b, c * 256 + d]
  | _ => none

/-! ### IPv6 -/

/-- The pieces of a run of groups between colons; the last group may be a dotted address. -/
def pieces? (dotted : Bool) (cs : List Char) : Option (List Nat) :=
  if cs.isEmpty then some []
  else go (splitAt ':' cs)
where
  go : List (List Char) → Option (List Nat)
    | [] => some []
    | [last] => if dotted && last.contains '.' then dottedPieces? last else (group? last).map ([·])
    | part :: rest => do some ((← group? part) :: (← go rest))
  group? (part : List Char) : Option Nat :=
    if part.isEmpty || 4 < part.length then none else numberIn? 16 part

/-- What stands before and after the first double colon. -/
def splitGap : List Char → Option (List Char × List Char)
  | [] => none
  | ':' :: ':' :: rest => some ([], rest)
  | c :: rest => (splitGap rest).map fun (before, after) => (c :: before, after)

def ipv6? (cs : List Char) : Option (List Nat) :=
  match splitGap cs with
  | none => do
    let pieces ← pieces? true cs
    if pieces.length = 8 then some pieces else none
  | some (before, after) => do
    let front ← pieces? false before
    let back ← pieces? true after
    if front.length + back.length ≤ 7 then
      some (front ++ List.replicate (8 - front.length - back.length) 0 ++ back)
    else none

/-! ### Written form -/

def ipv4Text (address : Nat) : String :=
  String.intercalate "."
    ([3, 2, 1, 0].map fun i => toString (address / byteUnit i % 256))

def pieceText (n : Nat) : String := String.ofList (Nat.toDigits 16 n)

/-- The length of the run of zeros that starts a list. -/
def zeroRun (pieces : List Nat) : Nat := (pieces.takeWhile (· = 0)).length

/-- Where the first longest run of at least two zeros starts, and its length. -/
def longestZeros (pieces : List Nat) : Option (Nat × Nat) :=
  ((List.range 8).map fun i => (i, zeroRun (pieces.drop i))).foldl (fun best (i, n) =>
    if n < 2 then best
    else match best with
      | some (_, m) => if m < n then some (i, n) else best
      | none => some (i, n)) none

def ipv6Text (pieces : List Nat) : String :=
  let join (ps : List Nat) := String.intercalate ":" (ps.map pieceText)
  match longestZeros pieces with
  | none => join pieces
  | some (start, n) => join (pieces.take start) ++ "::" ++ join (pieces.drop (start + n))

def text : Host → String
  | .name text => text
  | .ipv4 address => ipv4Text address
  | .ipv6 pieces => "[" ++ ipv6Text pieces ++ "]"

/-! ### Reading -/

/-- Characters that no host holds. -/
def forbidden : List Char :=
  ['\x00', '\t', '\n', '\r', ' ', '#', '/', ':', '<', '>', '?', '@', '[', '\\', ']', '^', '|']

/-- Characters that no normalised name holds. -/
def isForbiddenInName (c : Char) : Bool :=
  forbidden.contains c || c.toNat ≤ 0x1F || c = '%' || c.toNat = 0x7F

/-- An address in square brackets. -/
def bracketed? (cs : List Char) : Option Host :=
  if cs.getLast? = some ']' then (ipv6? ((cs.drop 1).dropLast)).map .ipv6 else none

/-- A host as it is written in an address outside the web. -/
def verbatim? (cs : List Char) : Option Host :=
  if cs.head? = some '[' then bracketed? cs
  else if cs.any forbidden.contains then none
  else some (.name (Percent.encode Percent.controls cs))

/-- A name with every label in its written form. -/
def nameText (cs : List Char) : List Char :=
  ['.'].intercalate ((splitAt '.' (cs.flatMap Label.fold)).map Label.encode)

/-- A host of the web or of files, normalised. -/
def normal? (cs : List Char) : Option Host :=
  if cs.head? = some '[' then bracketed? cs
  else do
    let name ← Text.fromUtf8? (Percent.decode (Text.toUtf8 (String.ofList cs)))
    let cs := nameText name.toList
    if cs.isEmpty || cs.any isForbiddenInName || name.toList.any Label.isRefused then none
    else if endsInNumber cs then (ipv4? cs).map .ipv4
    else some (.name (String.ofList cs))

end Host

end SpecExplorer
