/-
# The server

A session with one client. It is opened by `initialize` and closed by `shutdown`; in between the
client sends requests and notices, and the server carries out activities of the explorer on a
machine. Requests outside of the session are refused, notices outside of it are ignored. A run, a
click or a refresh that nobody waits for goes on in the background.
-/
import SpecExplorer.Rehearsal.Basic
import SpecExplorer.Server.Reply
import SpecExplorer.Server.Request

namespace SpecExplorer

/-- Where a session stands. -/
inductive ServerPhase where
  | fresh
  | serving
  | closed
  | exited
  deriving DecidableEq, Repr

structure Server where
  phase : ServerPhase
  rehearsal : Rehearsal
  /-- The number of the next activity in the background. -/
  nextJob : Nat

namespace ServerPhase

/-- Why a request has to be refused. -/
def refusal? : ServerPhase → Option RequestFault
  | .fresh => some .notInitialized
  | .serving => none
  | .closed => some .invalidRequest
  | .exited => some .invalidRequest

end ServerPhase

namespace Server

/-- A request answered, or refused. -/
abbrev Answered := Server × Except RequestFault Reply

/-- The server on a machine before a client has connected. -/
def start (m : Machine) : Server := ⟨.fresh, .start m .initial, 0⟩

def explorer (s : Server) : Explorer := s.rehearsal.explorer

/-- All that was sent to the client besides answers. -/
def sent (s : Server) : List ClientMessage := s.rehearsal.sent

/-- Changes the state of the explorer. -/
def act (s : Server) (f : Explorer → Explorer) : Server := { s with rehearsal := s.rehearsal.act f }

/-- Begins an activity that nobody waits for. -/
def begin (s : Server) (a : Activity) : Server :=
  { s with rehearsal := s.rehearsal.spawn (toString s.nextJob) a, nextJob := s.nextJob + 1 }

def beginRefresh (s : Server) (trigger : RefreshTrigger) (uri : Uri) : Server :=
  s.begin (.refresh (.ofTrigger uri trigger))

/-- Carries out an activity and waits for its answer. -/
def carryOut (s : Server) (a : Activity) (reply : Answer → Reply) : Answered :=
  let (r, answer) := s.rehearsal.await a
  ({ s with rehearsal := r }, .ok ((answer.map reply).getD .nothing))

/-- Lets all activities in the background come to their ends. -/
def idle (s : Server) : Server := { s with rehearsal := s.rehearsal.idle }

/-! ### The session -/

/-- Takes in what the client says about itself. -/
def greet (s : Server) (profile : ClientProfile) : Server :=
  s.act fun e =>
    let e := { e with lensRefresh := profile.lensRefresh }
    match profile.settings with
    | some settings => (e.applySettings settings).1
    | none => e

/-- Opens the session. A request that cannot be read leaves it closed. -/
def connect (s : Server) (params : Option Json) : Answered :=
  if s.phase ≠ .fresh then (s, .error .invalidRequest)
  else match params.bind fun j => ClientProfile.reader Json.maxDepth j.raw with
    | none => (s, .error .invalidParams)
    | some profile => ({ s.greet profile with phase := .serving }, .ok .welcome)

/-- Closes the session, which also a malformed request does. -/
def shutdown (s : Server) (params : Option Json) : Answered :=
  match s.phase.refusal? with
  | some fault => (s, .error fault)
  | none =>
    let s := { s with phase := .closed }
    if params.isSome then (s, .error .invalidParams) else (s.act (·.shutdown), .ok .nothing)

/-! ### Requests -/

def flagReply : Answer → Reply
  | .flag value => .flag value
  | _ => .nothing

def outputReply : Answer → Reply
  | .output text => .output text
  | _ => .nothing

def coverageReply : Answer → Reply
  | .coverage result => .coverage result.toOption
  | _ => .nothing

def itemReply : Answer → Reply
  | .item found => .item found
  | _ => .nothing

/-- Carries out a command. -/
def command (s : Server) : Command → Answered
  | .runNode uri key => (s.begin (.run (.ofNode uri key)), .ok .nothing)
  | .runAll uri => (s.begin (.run (.ofNode uri NodeKey.root)), .ok .nothing)
  | .showOutput uri key => s.carryOut (.showOutput uri key) outputReply
  | .coverage uri => s.carryOut (.coverage (.ofDocument uri)) coverageReply
  | .click uri key => (s.begin (.click (.ofTarget ⟨uri, key⟩)), .ok .nothing)
  | .refresh uri => s.carryOut (.refresh (.ofTrigger uri .manual)) flagReply
  | .toggleLenses => s.carryOut .toggleLenses flagReply

/-- The lenses of an open document that has a tree. -/
def lenses? (e : Explorer) (uri : Uri) : Option (List Lens) :=
  (e.tree? uri).map fun t => Lens.ofTree t e.settings.lensesEnabled

/-- Answers a request within the session. -/
def serve (s : Server) : ClientRequest → Answered
  | .tree uri => s.carryOut (.treeRequest (.ofDocument uri)) itemReply
  | .lenses uri => (s, .ok (.lenses uri (lenses? s.explorer uri)))
  | .symbols uri => (s, .ok (.symbols ((s.explorer.tree? uri).map DocumentSymbol.ofDocument)))
  | .command name arguments =>
    match Command.read name arguments with
    | .ok command => s.command command
    | .error fault => (s, .error (.ofCommand fault))
  | .unserved => (s, .error .unknownMethod)

/-- Answers a request, or refuses it. An unknown method is refused as such at any time. -/
def request (s : Server) (method : String) (params : Option Json) : Answered :=
  match method with
  | "initialize" => s.connect params
  | "shutdown" => s.shutdown params
  | _ =>
    match ClientRequest.readerOf? method, s.phase.refusal? with
    | none, _ => (s, .error .unknownMethod)
    | some _, some fault => (s, .error fault)
    | some reader, none =>
      match params.bind fun j => reader Json.maxDepth j.raw with
      | none => (s, .error .invalidParams)
      | some request => s.serve request

/-! ### Notices -/

/-- Goes over to other settings: lenses are refreshed if they were switched, and with another
executable every open document is outlined anew. -/
def configure (s : Server) (settings : Settings) : Server :=
  let (e, change) := s.explorer.applySettings settings
  let s := s.act fun _ => e
  let effects := if change.lenses then e.relight else []
  let s := { s with rehearsal := effects.foldl Rehearsal.perform s.rehearsal }
  if change.provider then e.documents.keys.foldl (beginRefresh · .manual ·) s else s

/-- Takes notice within the session. -/
def take (s : Server) : ClientNotice → Server
  | .opened uri text version =>
    (s.act (·.openDocument uri text (some version))).beginRefresh .opened uri
  | .changed _ none _ => s
  | .changed uri (some text) version =>
    (s.act (·.updateDocument uri text (some version))).beginRefresh .change uri
  | .saved uri none => s.beginRefresh .save uri
  | .saved uri (some text) =>
    let version := (s.explorer.document? uri).bind (·.version)
    (s.act (·.updateDocument uri text version)).beginRefresh .save uri
  | .closed uri => s.act (·.closeDocument uri)
  | .configured none => s
  | .configured (some settings) => s.configure settings
  | .other => s

/-- Takes notice of what the client says. -/
def notice (s : Server) (method : String) (params : Option Json) : Server :=
  match method, s.phase with
  | "exit", _ => { s with phase := .exited }
  | "shutdown", .serving => { s with phase := .closed }
  | _, .serving => s.take (.read method params)
  | _, _ => s

end Server

end SpecExplorer
