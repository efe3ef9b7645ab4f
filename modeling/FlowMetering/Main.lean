import FlowMetering.CommandLine.Run

/-!
The program: reads its arguments, files and environment, and prints what a run leaves behind.
-/

namespace FlowMetering.CommandLine

/-- What a path leads to on this machine. -/
def storedAt (path : String) : IO Stored := do
  try
    return .file (← IO.FS.readBinFile path)
  catch
    | .noFileOrDirectory .. => return .absent
    | .inappropriateType _ 21 _ => return .directory
    | .inappropriateType _ code details | .permissionDenied _ code details =>
      return .unreachable (details ++ " (os error " ++ toString code ++ ")")
    | error => return .unreachable (toString error)

/-- Answers a request. -/
def Request.answer : Request → IO UInt32
  | .help => do
    IO.print usage
    return 0
  | .version => do
    IO.println programVersion
    return 0
  | .perform invocation => do
    let overrides ← Configuration.Overrides.ofEnvironment fun name => (IO.getEnv name : IO (Option String))
    let outcome ← invocation.run storedAt overrides
    IO.print outcome.output
    if let some complaint := outcome.complaint then IO.eprintln complaint
    return outcome.status.toUInt32

end FlowMetering.CommandLine

def main (arguments : List String) : IO UInt32 :=
  match FlowMetering.CommandLine.Request.ofArguments arguments with
  | some request => request.answer
  | none => do
    IO.eprint FlowMetering.CommandLine.usage
    return 2
