/-
# Replies and messages

What the server sends: the reply to a request, with its JSON form, and messages of its own with
their methods.
-/
import SpecExplorer.Explorer.Basic
import SpecExplorer.Json.Double
import SpecExplorer.Server.Command
import SpecExplorer.View.Symbol

namespace SpecExplorer

/-! ### Replies -/

/-- What a request is answered with. -/
inductive Reply where
  | nothing
  /-- What the server can do. -/
  | welcome
  | flag (value : Bool)
  | output (text : Option String)
  | item (item : Option TreeItem)
  | lenses (uri : Uri) (lenses : Option (List Lens))
  | symbols (symbols : Option (List DocumentSymbol))
  | coverage (report : Option CoverageReport)
  deriving Repr

namespace FileCoverage

def json (f : FileCoverage) : Json := .object [
  ("file", .string f.file), ("statements", .nat f.statements.toNat),
  ("covered", .nat f.covered.toNat)]

end FileCoverage

namespace CoverageReport

def json (r : CoverageReport) : Json := .object [
  ("mode", .string r.mode), ("files", .array (r.files.map FileCoverage.json))]

end CoverageReport

namespace Reply

/-- What the server can do: texts are sent whole, and the commands are those of `Command`. -/
def capabilities : Json := .object [
  ("textDocumentSync", .object [
    ("openClose", .bool true), ("change", .nat 1),
    ("save", .object [("includeText", .bool false)])]),
  ("documentSymbolProvider", .bool true),
  ("codeLensProvider", .object [("resolveProvider", .bool false)]),
  ("executeCommandProvider", .object [("commands", .strings Command.names)])]

def welcomeJson : Json := .object [
  ("capabilities", capabilities),
  ("serverInfo", .object [
    ("name", .string ServerName.name), ("version", .string ServerName.version)])]

/-- A report with its percentage, which is written by `percent`. -/
def coverageJson (percent : Float → Json) (r : CoverageReport) : Except CoverageFault Json :=
  return .object [
    ("report", r.json), ("percent", percent (← r.percent)), ("text", .string (← r.render))]

/-- The JSON form of a reply, where doubles are written by `double`. -/
def jsonWith (double : Float → Json) : Reply → Json
  | .nothing => .null
  | .welcome => welcomeJson
  | .flag value => .bool value
  | .output text => Json.ofOption .string text
  | .item found => Json.ofOption TreeItem.json found
  | .lenses uri found => Json.ofOption (fun ls => .array (ls.map (Lens.json uri))) found
  | .symbols found => Json.ofOption (fun ss => .array (DocumentSymbol.jsonAll ss)) found
  | .coverage report => Json.ofOption id (report.bind fun r => (coverageJson double r).toOption)

def json (r : Reply) : Json := r.jsonWith Json.double

end Reply

/-! ### Messages -/

namespace ClientMessage

def method : ClientMessage → String
  | .treeChanged _ => ServerName.treeChangedMethod
  | .log _ _ => "window/logMessage"
  | .showMessage _ _ => "window/showMessage"
  | .refreshLenses => "workspace/codeLens/refresh"

/-- A message asks for an answer if it is a request to the client. -/
def isRequest : ClientMessage → Bool
  | .refreshLenses => true
  | _ => false

def textParams (level : MessageLevel) (text : String) : Json :=
  .object [("type", .nat level.code), ("message", .string text)]

def params? : ClientMessage → Option Json
  | .treeChanged change => some change.json
  | .log level text => some (textParams level text)
  | .showMessage level text => some (textParams level text)
  | .refreshLenses => none

end ClientMessage

end SpecExplorer
