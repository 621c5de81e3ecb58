/-
# Messages on the wire

A message is a JSON object between a client and the server. One with a method and an identity is a
request, one with a method alone a notice, and one without a method answers a request of the
server and needs no attention. Bodies travel after a header that tells their length in bytes.
-/
import SpecExplorer.Json.Member
import SpecExplorer.Server.Basic

namespace SpecExplorer

namespace Wire

/-- A message with these members. -/
def message (members : List (String × Json)) : Json :=
  .object (("jsonrpc", .string "2.0") :: members)

def faultJson (f : RequestFault) : Json :=
  .object [("code", .int f.code), ("message", .string f.message)]

/-- The answer to the request of an identity. -/
def answer (id : Json) : Except RequestFault Reply → Json
  | .ok reply => message [("result", reply.json), ("id", id)]
  | .error fault => message [("error", faultJson fault), ("id", id)]

/-- A message of the server; `id` is for one that asks for an answer. -/
def outgoing (id : Nat) (m : ClientMessage) : Json :=
  message ([("method", .string m.method)] ++
    (m.params?.map fun params => ("params", params)).toList ++
    if m.isRequest then [("id", .nat id)] else [])

/-- Numbers messages from `id` on. -/
def outgoingFrom (id : Nat) : List ClientMessage → List Json
  | [] => []
  | m :: rest => outgoing id m :: outgoingFrom (id + 1) rest

/-- A body after its header. -/
def frame (j : Json) : String :=
  let body := j.render
  s!"Content-Length: {body.utf8ByteSize}\r\n\r\n{body}"

/-- The length that a line of the header tells. -/
def lengthOf? (line : String) : Option Nat :=
  match line.splitOn ":" with
  | [name, value] =>
    if name.toLower = "content-length" then (value.trimAscii.toString).toNat? else none
  | _ => none

end Wire

namespace Server

/-- What the server sends to a message, after all that it led to has come to its end. -/
def hear (s : Server) (j : Json) : Server × List Json :=
  let told := s.sent.length
  let params := j.member? "params"
  let (s, answers) := match j.textAt? "method", j.member? "id" with
    | none, _ => (s, [])
    | some method, none => (s.notice method params, [])
    | some method, some id =>
      let (s, answered) := s.request method params
      (s, [Wire.answer id answered])
  let s := s.idle
  (s, answers ++ Wire.outgoingFrom told (s.sent.drop told))

end Server

end SpecExplorer
