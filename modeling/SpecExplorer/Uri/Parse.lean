/-
# Reading document addresses

An address is read as browsers read it. Blanks and controls around it are dropped, tabs and line
ends inside it too. Addresses of files and of the web, the special schemes, take a backslash for a
slash, drop steps that are a single dot, and follow steps that are two dots; so do other addresses
with a slash after the scheme, except for the backslash. What is left is text.
-/
import SpecExplorer.Uri.Basic

namespace SpecExplorer

namespace Uri

/-- How the rest of an address is read, by its scheme. -/
inductive Family where
  | file
  | web (defaultPort : Nat)
  | other
  deriving DecidableEq, Repr

namespace Family

def ofScheme : String → Family
  | "file" => .file
  | "http" | "ws" => .web 80
  | "https" | "wss" => .web 443
  | "ftp" => .web 21
  | _ => .other

def isSpecial : Family → Bool
  | .other => false
  | _ => true

def isSlash (family : Family) (c : Char) : Bool := c = '/' || (c = '\\' && family.isSpecial)

/-- Whether a character ends the authority. -/
def endsAuthority (family : Family) (c : Char) : Bool :=
  family.isSlash c || c = '?' || c = '#'

end Family

/-! ### Cleaning and scheme -/

def isOuterBlank (c : Char) : Bool := c.toNat ≤ 0x20

def clean (s : String) : List Char :=
  let trimmed := ((s.toList.dropWhile isOuterBlank).reverse.dropWhile isOuterBlank).reverse
  trimmed.filter fun c => !(c = '\t' || c = '\n' || c = '\r')

def isSchemeChar (c : Char) : Bool := c.isAlphanum || c = '+' || c = '-' || c = '.'

/-- The scheme in lower case and what follows its colon. -/
def scheme? (cs : List Char) : Option (String × List Char) :=
  if cs.head?.any Char.isAlpha then
    match cs.dropWhile isSchemeChar with
    | ':' :: rest => some ((String.ofList (cs.takeWhile isSchemeChar)).toLower, rest)
    | _ => none
  else none

/-! ### Paths -/

/-- Two characters that name a drive. -/
def isDrive : List Char → Bool
  | [letter, mark] => letter.isAlpha && (mark = ':' || mark = '|')
  | _ => false

/-- A step that says nothing, also with an encoded dot. -/
def isSingleDot (s : String) : Bool := s.toLower == "." || s.toLower == "%2e"

/-- A step up, also with encoded dots. -/
def isDoubleDot (s : String) : Bool :=
  ["..", ".%2e", "%2e.", "%2e%2e"].contains s.toLower

/-- The steps so far, last one first, without the last one; a drive at the start of a file's path
stays. -/
def dropStep (family : Family) : List String → List String
  | [] => []
  | last :: before =>
    if family == .file && before.all (·.isEmpty) && isDrive last.toList &&
      last.toList.getLast? = some ':' then last :: before
    else before

/-- A step as it is kept; a drive at the start of a file's path gets its colon. -/
def keepStep (family : Family) (before : List String) (s : String) : String :=
  if family == .file && before.all (·.isEmpty) && isDrive s.toList then
    String.ofList (s.toList.take 1 ++ [':'])
  else s

/-- Follows the steps of a path. `done` holds those that stay, last one first. Where the path ends
in dots, the last step that stays is empty. -/
def follow (family : Family) (done : List String) : List String → List String
  | [] => done.reverse
  | s :: rest =>
    if isDoubleDot s then
      let done := dropStep family done
      follow family (if rest.isEmpty then "" :: done else done) rest
    else if isSingleDot s then follow family (if rest.isEmpty then "" :: done else done) rest
    else follow family (keepStep family done s :: done) rest

/-- A file's path starts with one slash only. -/
def dropLeadingEmpty : List String → List String
  | "" :: next :: rest => dropLeadingEmpty (next :: rest)
  | parts => parts

/-- The parts of a path between slashes. -/
def splitSlashes (family : Family) : List Char → List (List Char)
  | [] => [[]]
  | c :: rest =>
    match splitSlashes family rest with
    | part :: later => if family.isSlash c then [] :: part :: later else (c :: part) :: later
    | [] => [[c]]

/-- The path after its first slash. -/
def segments (family : Family) (cs : List Char) : UriPath :=
  let parts := (splitSlashes family cs).map (Percent.encode Percent.path)
  let parts := follow family [] parts
  .segments (if family == .file then dropLeadingEmpty parts else parts)

/-! ### Query and fragment -/

def isPathEnd (c : Char) : Bool := c = '?' || c = '#'

/-- The path's characters, the query and the fragment. -/
def splitTail (family : Family) (cs : List Char) :
    List Char × Option String × Option String :=
  let path := cs.takeWhile (!isPathEnd ·)
  let set := if family.isSpecial then Percent.specialQuery else Percent.query
  match cs.dropWhile (!isPathEnd ·) with
  | '?' :: rest =>
    let query := Percent.encode set (rest.takeWhile (· ≠ '#'))
    match rest.dropWhile (· ≠ '#') with
    | '#' :: rest => (path, some query, some (Percent.encode Percent.fragment rest))
    | _ => (path, some query, none)
  | '#' :: rest => (path, none, some (Percent.encode Percent.fragment rest))
  | _ => (path, none, none)

/-! ### Authority -/

/-- The user and the password, and whether either was written. -/
def userinfoText (cs : List Char) : String :=
  let name := Percent.encode Percent.userinfo (cs.takeWhile (· ≠ ':'))
  let password := Percent.encode Percent.userinfo ((cs.dropWhile (· ≠ ':')).drop 1)
  if password.isEmpty then name else name ++ ":" ++ password

/-- The part of an authority before its last `@`, and the part after it. -/
def splitUser (cs : List Char) : Option (List Char × List Char) :=
  let back := cs.reverse
  match back.dropWhile (· ≠ '@') with
  | [] => none
  | _ :: before => some (before.reverse, (back.takeWhile (· ≠ '@')).reverse)

/-- A host up to its port, which a colon outside brackets starts. -/
def splitPort (inBrackets : Bool) : List Char → List Char × Option (List Char)
  | [] => ([], none)
  | c :: rest =>
    if c = ':' && !inBrackets then ([], some rest)
    else
      let inside := if c = '[' then true else if c = ']' then false else inBrackets
      let (host, port) := splitPort inside rest
      (c :: host, port)

/-- A port; no digits and the default of the scheme count as none. -/
def port? (family : Family) (cs : List Char) : Option (Option Nat) :=
  if cs.any (!·.isDigit) then none
  else
    let n := cs.foldl (fun n d => n * 10 + (d.toNat - '0'.toNat)) 0
    if 65535 < n then none
    else if cs.isEmpty || family == .web n then some none
    else some (some n)

/-- The authority between the slashes and the path. -/
def authority? (family : Family) (cs : List Char) : Option Authority := do
  let (user, rest) := (splitUser cs).getD ([], cs)
  let (host, port) := splitPort false rest
  let info := userinfoText user
  let bare := (splitUser cs).isSome && user.isEmpty && rest.isEmpty
  if host.isEmpty && (family.isSpecial || port.isSome || !info.isEmpty || bare) then none
  else
    let host ← if family.isSpecial then Host.normal? host else Host.verbatim? host
    let port ← port? family (port.getD [])
    some ⟨info, host, port⟩

/-! ### Whole addresses -/

/-- An address with an authority, after the two slashes. -/
def withAuthority? (scheme : String) (family : Family) (cs : List Char) : Option Uri := do
  let a ← authority? family (cs.takeWhile (!family.endsAuthority ·))
  let (path, query, fragment) := splitTail family (cs.dropWhile (!family.endsAuthority ·))
  let path := match path with
    | [] => if family.isSpecial then .segments [""] else .segments []
    | c :: rest => segments family (if family.isSlash c then rest else path)
  some ⟨scheme, some a, path, query, fragment⟩

/-- The host of a file's address, where a name that means this machine is dropped. -/
def fileHost? (cs : List Char) : Option (Option Host) :=
  if cs.isEmpty then some none
  else match Host.normal? cs with
    | none => none
    | some (.name "localhost") => some none
    | some host => some (some host)

/-- Whether a path starts with a drive. -/
def startsWithDrive : UriPath → Bool
  | .segments (first :: _) => isDrive first.toList
  | _ => false

def noHost : Authority := ⟨"", .name "", none⟩

/-- A file's address after its scheme. -/
def file? (cs : List Char) : Option Uri :=
  let build (host : Option Host) (cs : List Char) : Uri :=
    let (path, query, fragment) := splitTail .file cs
    let path := segments .file path
    let authority := match host with
      | some host => if startsWithDrive path then noHost else ⟨"", host, none⟩
      | none => noHost
    ⟨"file", some authority, path, query, fragment⟩
  match cs with
  | a :: b :: rest =>
    if Family.isSlash .file a && Family.isSlash .file b then
      let host := rest.takeWhile (!Family.endsAuthority .file ·)
      if isDrive host then some (build none rest)
      else (fileHost? host).map fun h => build h (rest.dropWhile (!Family.endsAuthority .file ·))
    else some (build none cs)
  | _ => some (build none cs)

/-- An address of any other scheme after its scheme. -/
def other? (scheme : String) : List Char → Option Uri
  | '/' :: '/' :: rest => withAuthority? scheme .other rest
  | '/' :: rest =>
    let (path, query, fragment) := splitTail .other rest
    some ⟨scheme, none, segments .other path, query, fragment⟩
  | cs =>
    let (path, query, fragment) := splitTail .other cs
    some ⟨scheme, none, .plain (Percent.encode Percent.controls path), query, fragment⟩

/-- Reads an address. -/
def parse? (s : String) : Option Uri := do
  let (scheme, rest) ← scheme? (clean s)
  match Family.ofScheme scheme with
  | .file => file? rest
  | .web port => withAuthority? scheme (.web port) (rest.dropWhile fun c => c = '/' || c = '\\')
  | .other => other? scheme rest

end Uri

end SpecExplorer
