/-
# The program

It prints what the command line asks for, or serves one client over its standard streams. Serving
works on a machine without files, so no test tool is found there.
-/
import SpecExplorer.CommandLine
import SpecExplorer.Server.Wire

open SpecExplorer

namespace SpecExplorer.Program

/-- A machine on which nothing is found. -/
def bareMachine : Machine := ⟨⟨[], [], .ofString "/"⟩, 0, fun _ _ _ => .error .unreadable⟩

/-- Reads a header and gives the length of the body, `none` where the input ends. -/
partial def readHeader (input : IO.FS.Stream) (length : Option Nat) : IO (Option Nat) := do
  let line ← input.getLine
  if line.isEmpty then return none
  else if line = "\r\n" || line = "\n" then return some (length.getD 0)
  else readHeader input ((Wire.lengthOf? line).or length)

/-- Reads as many bytes as a body has. -/
partial def readBody (input : IO.FS.Stream) (length : Nat) (body : ByteArray) : IO ByteArray := do
  if length ≤ body.size then return body
  let part ← input.read (length - body.size).toUSize
  if part.isEmpty then return body
  else readBody input length (body ++ part)

/-- Answers messages until the input or the session ends. -/
partial def serve (input output : IO.FS.Stream) (s : Server) : IO Unit := do
  match ← readHeader input none with
  | none => return ()
  | some length =>
    let body ← readBody input length .empty
    match (String.fromUTF8? body).bind Json.read? with
    | none => serve input output s
    | some j =>
      let (s, answers) := s.hear j
      for a in answers do
        output.putStr (Wire.frame a)
      output.flush
      if s.phase = .exited then return () else serve input output s

end SpecExplorer.Program

def main (args : List String) : IO UInt32 := do
  match CommandLine.read args with
  | .ok .serve => Program.serve (← IO.getStdin) (← IO.getStdout) (.start Program.bareMachine)
  | _ => pure ()
  let printed := CommandLine.printout args
  (← IO.getStdout).putStr printed.stdout
  (← IO.getStderr).putStr printed.stderr
  return printed.code.toUInt32
