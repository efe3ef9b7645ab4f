import FlowMetering.CommandLine.Report
import FlowMetering.Compilation
import FlowMetering.Error
import FlowMetering.Library.Catalog

/-!
Runs of the command line program. A run sees what paths lead to and what the environment sets; it leaves a
status and two texts behind.
-/

namespace FlowMetering.CommandLine

/-- Why a run fails. -/
inductive Failure where
  | general (error : Error)
  | badOption (error : Error)
  | badConfiguration
  | unknownFeature (name : String)
  | unknownPart (name : String)

namespace Failure

def message : Failure → String
  | .general error => error.message
  | .badOption error => "configuration error: " ++ error.message
  | .badConfiguration => "configuration error: configuration is invalid"
  | .unknownFeature name => "unknown feature: " ++ name
  | .unknownPart name => "unknown section: " ++ name ++ " (expected: general, compiler, spec)"

/-- The status of a failed run. -/
def status : Failure → Nat
  | .general (.configuration _) | .badOption _ | .badConfiguration => 2
  | .general (.specification _) | .general (.compilation _) => 3
  | .general (.io _) => 10
  | .unknownFeature _ | .unknownPart _ => 1

end Failure

/-- What a run leaves behind: what it prints, and why it fails if it does. -/
structure Outcome where
  output : String
  failure : Option Failure

namespace Outcome

def done (output : String) : Outcome :=
  ⟨output, none⟩

def failed (failure : Failure) : Outcome :=
  ⟨"", some failure⟩

def ofExcept : Except Failure String → Outcome
  | .ok output => .done output
  | .error failure => .failed failure

def status (o : Outcome) : Nat :=
  match o.failure with
  | none => 0
  | some failure => failure.status

/-- What is said about a failure. -/
def complaint (o : Outcome) : Option String :=
  o.failure.map fun failure => "error: " ++ failure.message

end Outcome

/-- The name and version of the program. -/
def programVersion : String :=
  "flowprobe 0.1.0"

def usage : String :=
  "Usage: flowprobe [-c|--config <CONFIG>] [--log-level <LOG_LEVEL>] [--output <text|json>] <COMMAND>\n\n" ++
  "Commands:\n" ++
  "  compile [SPEC]             Compile a feature specification and show the resulting program\n" ++
  "  features [--name <NAME>]   List the built-in feature catalog\n" ++
  "  config validate            Validate the configuration file and report errors\n" ++
  "  config show [--section <SECTION>]\n" ++
  "                             Show the effective configuration\n" ++
  "  help [COMMAND]             Print this message\n\n" ++
  "Options:\n" ++
  "  -c, --config <CONFIG>      Path to the configuration file (default: flowprobe.toml)\n" ++
  "      --log-level <LOG_LEVEL>\n" ++
  "                             Override the log level (trace, debug, info, warn, error)\n" ++
  "      --output <text|json>   Output format (default: text)\n" ++
  "  -h, --help                 Print help\n" ++
  "  -V, --version              Print version\n"

/-- The configuration that a run uses. Where there is no file the defaults hold. -/
def effective (o : Configuration.Overrides) (path : String) (stored : Stored) : Except Error Configuration :=
  if stored.isPresent then Configuration.load o path stored
  else (Configuration.override o {}).validated.mapError .configuration

/-- Puts the log level of the command line into a configuration. -/
def withLogLevel (level : Option String) (c : Configuration) : Except Failure Configuration :=
  match level with
  | none => .ok c
  | some level =>
    (Configuration.validated { c with logLevel := level }).mapError fun error => .badOption (.configuration error)

/-- The configuration of an invocation. The commands that report on the configuration do not need one. -/
def configured (i : Invocation) (o : Configuration.Overrides) (stored : Stored) : Except Failure Configuration :=
  match i.command, effective o i.configuration stored with
  | _, .ok c => withLogLevel i.logLevel c
  | .validateConfiguration, .error _ | .showConfiguration _, .error _ => withLogLevel i.logLevel {}
  | _, .error error => .error (.general error)

/-- Compiles the specification at a path. -/
def compile (form : Form) (limit : Nat) (path : String) (stored : Stored) : Except Failure String := do
  let specification ← (Specification.ofStored path stored).mapError fun error => .general (.specification error)
  let program ← (specification.compile Library.catalog limit).mapError fun error => .general (.compilation error)
  return (Report.ofProgram path program).render form

/-- Lists the catalog, or its items of one name. -/
def features (form : Form) (name : Option String) : Except Failure String :=
  match Report.ofCatalog? Library.catalog name with
  | some report => .ok (report.render form)
  | none => .error (.unknownFeature (name.getD ""))

def validateConfiguration (form : Form) (path : String) : Except Error Configuration → Outcome
  | .ok _ => .done ((Report.ofValidation path none).render form)
  | .error error => ⟨(Report.ofValidation path (some error.message)).render form, some .badConfiguration⟩

def showConfiguration (form : Form) (path : String) (part : Option String) (loaded : Except Error Configuration) :
    Except Failure String := do
  let c ← loaded.mapError .general
  match Report.ofConfiguration? path c part with
  | some report => return report.render form
  | none => .error (.unknownPart (part.getD ""))

/-- Runs a command. `lookup` tells what a path leads to. -/
def Invocation.run {m : Type → Type} [Monad m] (lookup : String → m Stored) (o : Configuration.Overrides)
    (i : Invocation) : m Outcome := do
  let stored ← lookup i.configuration
  match configured i o stored with
  | .error failure => return .failed failure
  | .ok c =>
    match i.command with
    | .compile specification =>
      let path := specification.getD c.specificationPath
      let stored ← lookup path
      return .ofExcept (compile i.form c.maxCombinations path stored)
    | .features name => return .ofExcept (features i.form name)
    | .validateConfiguration =>
      return validateConfiguration i.form i.configuration (Configuration.load o i.configuration stored)
    | .showConfiguration part =>
      return .ofExcept (showConfiguration i.form i.configuration part (Configuration.load o i.configuration stored))

end FlowMetering.CommandLine
