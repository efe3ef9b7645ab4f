import FlowMetering.CompileError
import FlowMetering.Configuration
import FlowMetering.Specification
import FlowMetering.Stored

/-!
Everything that can go wrong, and how specifications and configurations are read from files.
-/

namespace FlowMetering

inductive Error where
  | configuration (error : Configuration.Error)
  | specification (error : Specification.Error)
  | compilation (error : CompileError)
  | io (cause : Unreadable)

def Error.message : Error → String
  | .configuration error => "config error: " ++ error.message
  | .specification error => "spec error: " ++ error.message
  | .compilation error => "compile error: " ++ error.message
  | .io cause => "io error: " ++ cause.message

namespace Specification

/-- How many bytes a specification may have. -/
def maxBytes : Nat := 4194304

/-- Reads the specification that a path leads to. Its size is judged before its text. -/
def ofStored (path : String) (stored : Stored) : Except Error Specification :=
  match stored with
  | .file bytes =>
    if maxBytes < bytes.size then .error (.invalid (.tooLarge bytes.size maxBytes)) else readText
  | _ => readText
where
  readText : Except Error Specification :=
    match stored.text? with
    | .ok (some text) => parse text
    | .ok none => .error (.fileNotFound path)
    | .error cause => .error (.unreadable path cause)

end Specification

namespace Configuration

/-- Reads the configuration that a path leads to. -/
def ofStored (path : String) (stored : Stored) : Except FlowMetering.Error Configuration :=
  match stored.text? with
  | .ok (some text) => ((parse text).bind validated).mapError .configuration
  | .ok none => .error (.configuration (.fileNotFound path))
  | .error cause => .error (.io cause)

/-- Reads a configuration and lets the environment replace its settings. What the file says has to be usable
even where it is replaced. -/
def load (o : Overrides) (path : String) (stored : Stored) : Except FlowMetering.Error Configuration := do
  let c ← ofStored path stored
  (c.override o).validated.mapError .configuration

end Configuration

end FlowMetering
