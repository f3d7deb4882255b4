import Resilient.CommandLine

/-!
# The program

Reads the input that the command line asks for and writes the answer.
-/

namespace Resilient

namespace CommandLine

/-- Why reading failed. -/
def Obstacle.ofError : IO.Error → Obstacle
  | .noFileOrDirectory .. => notFound
  | .inappropriateType .. => directory
  | .permissionDenied .. => forbidden
  | e => other (toString e)

/-- The text of a file, or of standard input. -/
def readInput (path : Option String) : IO (Except Obstacle String) := do
  try
    let bytes ← match path with
      | some path => IO.FS.readBinFile path
      | none => (← IO.getStdin).readBinToEnd
    match String.fromUTF8? bytes with
    | some text => return .ok text
    | none => return .error .notText
  catch e => return .error (.ofError e)

/-- Reads what a request asks for and writes the answer to it. -/
def Request.serve (request : Request) : IO UInt32 := do
  let input ← match request with
    | read settings => readInput settings.path
    | _ => pure (.ok "")
  let response := request.respond input
  (← IO.getStdout).putStr response.output
  (← IO.getStderr).putStr response.errors
  return UInt32.ofNat response.code

end CommandLine

end Resilient

/-- Serves the request that the arguments make. -/
def main (arguments : List String) : IO UInt32 :=
  (Resilient.CommandLine.Request.ofArguments arguments).serve
