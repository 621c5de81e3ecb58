/-
# Document addresses

An address has a scheme, perhaps an authority, a path, and perhaps a query and a fragment. The path
is a list of segments, or plain text for schemes that do not use slashes. Two addresses are the
same when they are written the same after normalisation.
-/
import SpecExplorer.FilePath
import SpecExplorer.Uri.Host

namespace SpecExplorer

/-- Who holds the document: a user, a host and a port. -/
structure Authority where
  /-- The user and password as written, empty for none. -/
  userinfo : String
  host : Host
  port : Option Nat
  deriving DecidableEq, Repr

/-- The written form of an authority. -/
def Authority.text (a : Authority) : String :=
  (if a.userinfo.isEmpty then "" else a.userinfo ++ "@") ++ a.host.text ++
    match a.port with
    | none => ""
    | some port => ":" ++ toString port

inductive UriPath where
  /-- The segments after slashes; an empty list is an empty path. -/
  | segments (parts : List String)
  /-- A path that is no list of segments. -/
  | plain (text : String)
  deriving DecidableEq, Repr

namespace UriPath

def text : UriPath → String
  | .segments parts => String.join (parts.map ("/" ++ ·))
  | .plain text => text

end UriPath

structure Uri where
  scheme : String
  authority : Option Authority
  path : UriPath
  query : Option String
  fragment : Option String
  deriving DecidableEq, Repr

namespace Uri

/-- The authority with its slashes. Without one, a path that starts with two slashes is kept
apart by a dot. -/
def authorityText (u : Uri) : String :=
  match u.authority, u.path with
  | some a, _ => "//" ++ a.text
  | none, .segments ("" :: _ :: _) => "/."
  | none, _ => ""

def optionText (mark : String) : Option String → String
  | none => ""
  | some s => mark ++ s

/-- The written form. -/
def text (u : Uri) : String :=
  u.scheme ++ ":" ++ u.authorityText ++ u.path.text ++ optionText "?" u.query ++
    optionText "#" u.fragment

instance : ToString Uri := ⟨text⟩

/-- Whether the document is on this machine as far as the address says. -/
def isLocal (u : Uri) : Bool :=
  match u.authority with
  | none => true
  | some a => a.host == .name "" || a.host == .name "localhost"

/-- A path that ends in a drive letter gets a slash. -/
def closeDrive (bytes : List UInt8) : List UInt8 :=
  match bytes.reverse with
  | last :: letter :: _ :: _ =>
    if (last = 0x3A || last = 0x7C) && (Char.ofNat letter.toNat).isAlpha then bytes ++ [0x2F]
    else bytes
  | _ => bytes

/-- The path of the file that the address names. An address that names no file here gives its own
path, as it is written. -/
def filePath (u : Uri) : FilePath :=
  match u.path with
  | .plain text => .ofString text
  | .segments parts =>
    if !u.isLocal || parts.isEmpty then .ofString u.path.text
    else ⟨closeDrive (parts.flatMap fun part => 0x2F :: Percent.decode (Text.toUtf8 part))⟩

/-- The name of the document's tree: its file name, or the address where there is none. -/
def rootName (u : Uri) : String :=
  match u.filePath.fileName? with
  | some name => name.display
  | none => u.text

end Uri

end SpecExplorer
