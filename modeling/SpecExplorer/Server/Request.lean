/-
# Requests and notices of the client

What a client may say, decoded from a method and its parameters. A request that no part of the
server answers is still known by its method, since it has to be well-formed before it is refused.
Parameters of a notice that cannot be read make it void.
-/
import SpecExplorer.Server.Command
import SpecExplorer.Settings

namespace SpecExplorer

/-- Why a request is refused. -/
inductive RequestFault where
  | notInitialized
  /-- It comes at the wrong time. -/
  | invalidRequest
  | unknownMethod
  | invalidParams
  /-- A command misses arguments. -/
  | missingArguments (expected : String)
  deriving DecidableEq, Repr

namespace RequestFault

def code : RequestFault → Int
  | .notInitialized => -32002
  | .invalidRequest => -32600
  | .unknownMethod => -32601
  | .invalidParams => -32602
  | .missingArguments _ => -32602

def message : RequestFault → String
  | .notInitialized => "Server not initialized"
  | .invalidRequest => "Invalid request"
  | .unknownMethod => "Method not found"
  | .invalidParams => "Invalid params"
  | .missingArguments expected => "expected " ++ expected

def ofCommand : CommandFault → RequestFault
  | .unknown => .unknownMethod
  | .needsDocument => .missingArguments "[uri]"
  | .needsNode => .missingArguments "[uri, key]"

end RequestFault

/-- What the client says about itself when it connects. -/
structure ClientProfile where
  /-- It can be asked to refresh its lenses. -/
  lensRefresh : Bool
  settings : Option Settings
  deriving DecidableEq, Repr

/-- A request other than those that open and close the session. -/
inductive ClientRequest where
  | tree (uri : Uri)
  | lenses (uri : Uri)
  | symbols (uri : Uri)
  | command (name : String) (arguments : List Json)
  /-- A request that the server knows but does not serve. -/
  | unserved
  deriving Repr

inductive ClientNotice where
  | opened (uri : Uri) (text : String) (version : Int)
  /-- The last change holds the whole text; there may be none. -/
  | changed (uri : Uri) (text : Option String) (version : Int)
  | saved (uri : Uri) (text : Option String)
  | closed (uri : Uri)
  /-- New settings, where there is a section for them. -/
  | configured (settings : Option Settings)
  /-- A notice that changes nothing. -/
  | other
  deriving Repr

/-! ### Readers -/

namespace Json.Reader

/-- Any value as it is. -/
def value : Reader Json := fun _ r => r.toJson? 1000000

/-- A value that has some shape and is not looked into. -/
def anyValue : Reader Unit := fun _ _ => some ()

def signed32 : Reader Int
  | _, .number n => n.toInt? (-(Width.count 31 : Nat)) (Width.largest 31)
  | _, _ => none

/-- A text or a number, by which progress is reported. -/
def progressToken : Reader Unit
  | _, .string (some _) => some ()
  | depth, r => (signed32 depth r).map fun _ => ()

end Json.Reader

open Json (Fields Reader)

/-- A record of which one optional member counts. -/
def partReader {α : Type} (names : List String) (name : String) (reader : Reader α) :
    Reader (Option α) := fun depth r => do
  let fields ← Fields.read names depth r
  fields.optional name reader

/-- An object, never an array, as the records have to be that share their members with others. -/
def openRecord (names : List String) : Nat → Json.Raw → Option Fields
  | depth, .object members => Fields.read names depth (.object members)
  | _, _ => none

/-! ### Connecting -/

namespace ClientProfile

def fieldNames : List String :=
  ["processId", "rootPath", "rootUri", "initializationOptions", "capabilities", "trace",
    "workspaceFolders", "clientInfo", "locale"]

/-- Whether lenses can be refreshed, from the capabilities of the client. -/
def lensRefreshReader : Reader Bool := fun depth r => do
  let lens := partReader ["refreshSupport"] "refreshSupport" Reader.flag
  let workspace := partReader ["codeLens"] "codeLens" lens
  let support ← partReader ["workspace"] "workspace" workspace depth r
  some ((support.bind (·.bind id)).getD false)

def folderReader : Reader Unit := fun depth r => do
  let fields ← Fields.read ["uri", "name"] depth r
  let _ ← fields.required "uri" Uri.reader
  let _ ← fields.required "name" Reader.text
  some ()

def clientInfoReader : Reader Unit := fun depth r => do
  let fields ← Fields.read ["name", "version"] depth r
  let _ ← fields.required "name" Reader.text
  let _ ← fields.nullable "version" Reader.text
  some ()

def traceReader : Reader Unit := fun depth r => do
  let name ← Reader.caseName depth r
  if name ∈ ["off", "messages", "verbose"] then some () else none

def reader : Reader ClientProfile := fun depth r => do
  let fields ← Fields.read fieldNames depth r
  let _ ← fields.nullable "processId" (Reader.natUpTo (Width.largest 32))
  let _ ← fields.optional "rootPath" Reader.text
  let _ ← fields.optional "rootUri" Uri.reader
  let options ← fields.nullable "initializationOptions" Reader.value
  let lensRefresh ← fields.required "capabilities" lensRefreshReader
  let _ ← fields.optional "trace" traceReader
  let _ ← fields.nullable "workspaceFolders" (Reader.listOf folderReader)
  let _ ← fields.nullable "clientInfo" clientInfoReader
  let _ ← fields.nullable "locale" Reader.text
  some ⟨lensRefresh, options.bind Settings.read?⟩

end ClientProfile

/-! ### Requests -/

namespace ClientRequest

/-- The address of a document in the record that names it. -/
def documentReader : Reader Uri := fun depth r => do
  let fields ← Fields.read ["uri"] depth r
  fields.required "uri" Uri.reader

/-- The members by which progress and partial results are reported. -/
def progressNames : List String := ["workDoneToken", "partialResultToken"]

/-- Parameters with a document and nothing else that counts. -/
def onDocument (request : Uri → ClientRequest) : Reader ClientRequest := fun depth r => do
  let fields ← openRecord ("textDocument" :: progressNames) depth r
  let _ ← fields.optional "workDoneToken" Reader.progressToken
  let _ ← fields.optional "partialResultToken" Reader.progressToken
  some (request (← fields.required "textDocument" documentReader))

def treeReader : Reader ClientRequest := fun depth r =>
  (DocumentRequest.reader depth r).map fun d => .tree d.uri

def commandReader : Reader ClientRequest := fun depth r => do
  let fields ← openRecord ["command", "arguments", "workDoneToken"] depth r
  let _ ← fields.optional "workDoneToken" Reader.progressToken
  let name ← fields.required "command" Reader.text
  let arguments ← fields.withDefault "arguments" [] (Reader.listOf Reader.value)
  some (.command name arguments)

/-- How a member of an unserved request is read: documents, positions and ranges by their form, and
other members only have to be there. -/
def memberReader (name : String) : Reader Unit := fun depth r =>
  match name with
  | "textDocument" => (documentReader depth r).map fun _ => ()
  | "position" => (Position.reader depth r).map fun _ => ()
  | "range" => (Range.reader depth r).map fun _ => ()
  | "query" | "newName" | "ch" | "label" | "title" | "previousResultId" =>
    (Reader.text depth r).map fun _ => ()
  | _ => some ()

/-- The members that the unserved requests have to have. -/
def unservedMembers : List (String × List String) :=
  let document := ["textDocument"]
  let position := ["textDocument", "position"]
  [("textDocument/willSaveWaitUntil", ["textDocument", "reason"]),
    ("textDocument/declaration", position),
    ("textDocument/definition", position),
    ("textDocument/typeDefinition", position),
    ("textDocument/implementation", position),
    ("textDocument/references", ["textDocument", "position", "context"]),
    ("textDocument/prepareCallHierarchy", position),
    ("callHierarchy/incomingCalls", ["item"]),
    ("callHierarchy/outgoingCalls", ["item"]),
    ("textDocument/prepareTypeHierarchy", position),
    ("typeHierarchy/supertypes", ["item"]),
    ("typeHierarchy/subtypes", ["item"]),
    ("textDocument/documentHighlight", position),
    ("textDocument/documentLink", document),
    ("documentLink/resolve", ["range"]),
    ("textDocument/hover", position),
    ("codeLens/resolve", ["range"]),
    ("textDocument/foldingRange", document),
    ("textDocument/selectionRange", ["textDocument", "positions"]),
    ("textDocument/semanticTokens/full", document),
    ("textDocument/semanticTokens/full/delta", ["textDocument", "previousResultId"]),
    ("textDocument/semanticTokens/range", ["textDocument", "range"]),
    ("textDocument/inlineValue", ["textDocument", "range", "context"]),
    ("textDocument/inlayHint", ["textDocument", "range"]),
    ("inlayHint/resolve", ["position", "label"]),
    ("textDocument/moniker", position),
    ("textDocument/completion", position),
    ("completionItem/resolve", ["label"]),
    ("textDocument/diagnostic", document),
    ("workspace/diagnostic", ["previousResultIds"]),
    ("textDocument/signatureHelp", position),
    ("textDocument/codeAction", ["textDocument", "range", "context"]),
    ("codeAction/resolve", ["title"]),
    ("textDocument/documentColor", document),
    ("textDocument/colorPresentation", ["textDocument", "color", "range"]),
    ("textDocument/formatting", ["textDocument", "options"]),
    ("textDocument/rangeFormatting", ["textDocument", "range", "options"]),
    ("textDocument/onTypeFormatting", ["textDocument", "position", "ch", "options"]),
    ("textDocument/rename", ["textDocument", "position", "newName"]),
    ("textDocument/prepareRename", position),
    ("textDocument/linkedEditingRange", position),
    ("workspace/symbol", ["query"]),
    ("workspaceSymbol/resolve", ["name", "kind", "location"]),
    ("workspace/willCreateFiles", ["files"]),
    ("workspace/willRenameFiles", ["files"]),
    ("workspace/willDeleteFiles", ["files"])]

/-- Parameters of a request that is not served. -/
def unservedReader (names : List String) : Reader ClientRequest := fun depth r => do
  let fields ← Fields.read names depth r
  let _ ← names.mapM fun name => fields.required name (memberReader name)
  some .unserved

/-- How the parameters of a method are read, `none` for a method that is not known. -/
def readerOf? (method : String) : Option (Reader ClientRequest) :=
  if method = ServerName.treeMethod then some treeReader
  else match method with
    | "textDocument/codeLens" => some (onDocument .lenses)
    | "textDocument/documentSymbol" => some (onDocument .symbols)
    | "workspace/executeCommand" => some commandReader
    | _ => (unservedMembers.find? (·.1 == method)).map fun m => unservedReader m.2

end ClientRequest

/-! ### Notices -/

namespace ClientNotice

def openedReader : Reader ClientNotice := fun depth r => do
  let fields ← Fields.read ["textDocument"] depth r
  fields.required "textDocument" fun depth r => do
    let fields ← Fields.read ["uri", "languageId", "version", "text"] depth r
    let uri ← fields.required "uri" Uri.reader
    let _ ← fields.required "languageId" Reader.text
    let version ← fields.required "version" Reader.signed32
    some (.opened uri (← fields.required "text" Reader.text) version)

def versionedReader : Reader (Uri × Int) := fun depth r => do
  let fields ← Fields.read ["uri", "version"] depth r
  some (← fields.required "uri" Uri.reader, ← fields.required "version" Reader.signed32)

/-- A change, of which the text counts. -/
def editReader : Reader String := fun depth r => do
  let fields ← Fields.read ["range", "rangeLength", "text"] depth r
  let _ ← fields.nullable "range" Range.reader
  let _ ← fields.nullable "rangeLength" (Reader.natUpTo (Width.largest 32))
  fields.required "text" Reader.text

def changedReader : Reader ClientNotice := fun depth r => do
  let fields ← Fields.read ["textDocument", "contentChanges"] depth r
  let (uri, version) ← fields.required "textDocument" versionedReader
  let edits ← fields.required "contentChanges" (Reader.listOf editReader)
  some (.changed uri edits.getLast? version)

def savedReader : Reader ClientNotice := fun depth r => do
  let fields ← Fields.read ["textDocument", "text"] depth r
  let uri ← fields.required "textDocument" ClientRequest.documentReader
  some (.saved uri (← fields.nullable "text" Reader.text))

def closedReader : Reader ClientNotice := fun depth r => do
  let fields ← Fields.read ["textDocument"] depth r
  some (.closed (← fields.required "textDocument" ClientRequest.documentReader))

def configuredReader : Reader ClientNotice := fun depth r => do
  let fields ← Fields.read ["settings"] depth r
  some (.configured (Settings.read? (← fields.required "settings" Reader.value)))

/-- The notice of a method with its parameters, void where they cannot be read. -/
def read (method : String) (params : Option Json) : ClientNotice :=
  let decode (reader : Reader ClientNotice) : ClientNotice :=
    (params.bind fun j => reader Json.maxDepth j.raw).getD .other
  match method with
  | "textDocument/didOpen" => decode openedReader
  | "textDocument/didChange" => decode changedReader
  | "textDocument/didSave" => decode savedReader
  | "textDocument/didClose" => decode closedReader
  | "workspace/didChangeConfiguration" => decode configuredReader
  | _ => .other

end ClientNotice

end SpecExplorer
