import FlowMetering.Text.Blank
import FlowMetering.Toml.Document
import FlowMetering.Word

/-!
The configuration: what is logged, how many choices of types the compiler tries, and where the specification
lies. It is read from TOML, and the environment may replace single settings.
-/

namespace FlowMetering

structure Configuration where
  logLevel : String := "info"
  logFormat : String := "json"
  maxCombinations : Nat := 4096
  specificationPath : String := "features.json"
  deriving DecidableEq, Repr

/-- The first setting that cannot be used. -/
inductive Configuration.Defect where
  | logLevel
  | logFormat
  | noCombinations
  | blankPath
  deriving DecidableEq, Repr

/-- Why a configuration cannot be had. -/
inductive Configuration.Error where
  | fileNotFound (path : String)
  | malformed
  | invalid (defect : Configuration.Defect)
  deriving DecidableEq, Repr

/-- The settings that the environment gives, as texts. -/
structure Configuration.Overrides where
  logLevel : Option String
  logFormat : Option String
  maxCombinations : Option String
  specificationPath : Option String

namespace Configuration

def levels : List String :=
  ["trace", "debug", "info", "warn", "error"]

def formats : List String :=
  ["json", "pretty"]

/-- The key of the setting, its section in front. -/
def Defect.field : Defect → String
  | .logLevel => "general.log_level"
  | .logFormat => "general.log_format"
  | .noCombinations => "compiler.max_variant_combinations"
  | .blankPath => "spec.path"

def Defect.reason : Defect → String
  | .logLevel => "must be one of: " ++ ", ".intercalate levels
  | .logFormat => "must be one of: " ++ ", ".intercalate formats
  | .noCombinations => "must be greater than 0"
  | .blankPath => "path must not be empty"

def Error.message : Error → String
  | .fileNotFound path => "config file not found: " ++ path
  | .malformed => "failed to parse config: the text is not a configuration in TOML"
  | .invalid defect => "invalid config value for '" ++ defect.field ++ "': " ++ defect.reason

def validate (c : Configuration) : Except Defect Unit :=
  if !levels.contains c.logLevel then .error .logLevel
  else if !formats.contains c.logFormat then .error .logFormat
  else if c.maxCombinations = 0 then .error .noCombinations
  else if Text.allBlank c.specificationPath then .error .blankPath
  else .ok ()

/-- A configuration that can be used, or its first defect. -/
def validated (c : Configuration) : Except Error Configuration :=
  match c.validate with
  | .ok () => .ok c
  | .error defect => .error (.invalid defect)

/-- The settings of a section in the order of their names; a setting that is not given is none. A section is a
table, or an array that leaves the names out. A date is a section without settings. -/
def settings? (names : List String) : Option Toml → Option (List (Option Toml))
  | none | some (.moment _) => some (names.map fun _ => none)
  | some (.table members) => some (names.map fun name => (Toml.table members).member? name)
  | some (.array items) => some (names.mapIdx fun i _ => items[i]?)
  | some _ => none

/-- A text that replaces another where it is given. -/
def textOr (default : String) : Option Toml → Option String
  | none => some default
  | some (.string s) => some s
  | some _ => none

/-- A number of 64 bits that replaces another where it is given. -/
def countOr (default : Nat) : Option Toml → Option Nat
  | none => some default
  | some (.integer n) => (Word.unsigned? n).map (·.toNat)
  | some _ => none

/-- Reads a configuration from a TOML document. Keys of no meaning are passed over. -/
def ofToml (document : Toml) : Option Configuration := do
  let default : Configuration := {}
  let general ← settings? ["log_level", "log_format"] (document.member? "general")
  let compiler ← settings? ["max_variant_combinations"] (document.member? "compiler")
  let spec ← settings? ["path"] (document.member? "spec")
  let logLevel ← textOr default.logLevel (general[0]?.join)
  let logFormat ← textOr default.logFormat (general[1]?.join)
  let maxCombinations ← countOr default.maxCombinations (compiler[0]?.join)
  let specificationPath ← textOr default.specificationPath (spec[0]?.join)
  return { logLevel, logFormat, maxCombinations, specificationPath }

/-- Reads a configuration from a text without judging its settings. -/
def parse (text : String) : Except Error Configuration :=
  match (Toml.parse? text).bind ofToml with
  | some c => .ok c
  | none => .error .malformed

/-- A number of 64 bits: decimal digits, behind a plus sign at most. -/
def count? (text : String) : Option Nat :=
  let digits := match text.toList with
    | '+' :: rest => rest
    | text => text
  if digits.isEmpty then none
  else do
    let word ← Word.unsigned? (Text.ofDigits 10 (← digits.mapM Text.digit?))
    return word.toNat

/-- Replaces the settings that the environment gives. A number that cannot be read replaces nothing. -/
def override (o : Overrides) (c : Configuration) : Configuration where
  logLevel := o.logLevel.getD c.logLevel
  logFormat := o.logFormat.getD c.logFormat
  maxCombinations := (o.maxCombinations.bind count?).getD c.maxCombinations
  specificationPath := o.specificationPath.getD c.specificationPath

/-- Collects the settings that the environment gives. -/
def Overrides.ofEnvironment {m : Type → Type} [Monad m] (lookup : String → m (Option String)) : m Overrides := do
  let logLevel ← lookup "FLOWPROBE_GENERAL_LOG_LEVEL"
  let logFormat ← lookup "FLOWPROBE_GENERAL_LOG_FORMAT"
  let maxCombinations ← lookup "FLOWPROBE_COMPILER_MAX_VARIANT_COMBINATIONS"
  let specificationPath ← lookup "FLOWPROBE_SPEC_PATH"
  return { logLevel, logFormat, maxCombinations, specificationPath }

/-- The sections with their settings as they are written. -/
def sections (c : Configuration) : List (String × List (String × String)) :=
  [("general", [("log_level", Toml.quote c.logLevel), ("log_format", Toml.quote c.logFormat)]),
   ("compiler", [("max_variant_combinations", toString c.maxCombinations)]),
   ("spec", [("path", Toml.quote c.specificationPath)])]

/-- Settings on lines of their own. -/
def settingsText (settings : List (String × String)) : String :=
  String.join (settings.map fun (name, value) => name ++ " = " ++ value ++ "\n")

/-- The settings of one section. -/
def sectionText? (c : Configuration) (name : String) : Option String :=
  (c.sections.find? (·.1 == name)).map fun (_, settings) => settingsText settings

/-- The whole configuration, an empty line between sections. -/
def text (c : Configuration) : String :=
  "\n".intercalate (c.sections.map fun (name, settings) => "[" ++ name ++ "]\n" ++ settingsText settings)

end Configuration

end FlowMetering
