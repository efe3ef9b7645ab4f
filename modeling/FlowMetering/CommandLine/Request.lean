/-!
Command lines: what the words after the program's name ask for.
-/

namespace FlowMetering.CommandLine

/-- The form in which reports are written. -/
inductive Form where
  | text
  | json
  deriving DecidableEq, Repr

inductive Command where
  | compile (specification : Option String)
  | features (name : Option String)
  | validateConfiguration
  | showConfiguration (part : Option String)
  deriving DecidableEq, Repr

/-- A command together with the options that all commands have. -/
structure Invocation where
  configuration : String
  logLevel : Option String
  form : Form
  command : Command
  deriving DecidableEq, Repr

inductive Request where
  | help
  | version
  | perform (invocation : Invocation)
  deriving DecidableEq, Repr

/-- How far a command has been named. -/
inductive Level where
  | program
  | compile
  | features
  | configuration
  | validate
  | showing
  deriving DecidableEq, Repr

namespace Level

/-- The level that a word opens below another one. -/
def below : Level → String → Option Level
  | .program, word =>
    if word = "compile" then some .compile
    else if word = "features" then some .features
    else if word = "config" then some .configuration
    else none
  | .configuration, word =>
    if word = "validate" then some .validate
    else if word = "show" then some .showing
    else none
  | _, _ => none

/-- Whether further words have to name a command. -/
def isOpen : Level → Bool
  | .program | .configuration => true
  | _ => false

/-- The options that take a value. -/
def options : Level → List String
  | .program => ["config", "log-level", "output"]
  | .features => ["name", "log-level", "output"]
  | .showing => ["section", "log-level", "output"]
  | .compile | .configuration | .validate => ["log-level", "output"]

end Level

/-- A word as it is read: an option by its long name, with the value behind an equals sign, options by letters,
or anything else. -/
inductive Word where
  | long (name : String) (value : Option String)
  | letters (first : Char) (rest : List Char)
  | plain

def Word.ofString (word : String) : Word :=
  match word.toList with
  | '-' :: '-' :: text =>
    match text.span (· != '=') with
    | (name, _ :: value) => .long (String.ofList name) (some (String.ofList value))
    | (name, []) => .long (String.ofList name) none
  | '-' :: c :: rest => .letters c rest
  | _ => .plain

/-- Whether a word cannot be the value of the option in front of it. -/
def Word.isOption : Word → Bool
  | .plain => false
  | _ => true

/-- Whether an option may have a value. -/
def isAcceptable (option value : String) : Bool :=
  if option = "config" then value != ""
  else if option = "output" then value = "text" || value = "json"
  else true

/-- The options and the specification named so far; the options named last come first. -/
structure Found where
  options : List (Level × String × String)
  specification : Option String

namespace Found

/-- Takes up an option, which comes at most once at each level. -/
def give (found : Found) (level : Level) (option value : String) : Option Found :=
  if isAcceptable option value && !found.options.any fun (other, name, _) => other = level && name = option then
    some { found with options := (level, option, value) :: found.options }
  else none

/-- Takes up a word that is neither an option nor a command: the one specification to compile. -/
def name (found : Found) (level : Level) (word : String) : Option Found :=
  if level = .compile && found.specification.isNone && word != "" then
    some { found with specification := some word }
  else none

/-- The value of an option at the innermost level that gives one. -/
def value? (found : Found) (option : String) : Option String :=
  (found.options.find? fun (_, name, _) => name = option).map fun (_, _, value) => value

/-- The request of a complete command line. -/
def request? (found : Found) (level : Level) : Option Request := do
  let command ← match level with
    | .program | .configuration => none
    | .compile => some (Command.compile found.specification)
    | .features => some (.features (found.value? "name"))
    | .validate => some .validateConfiguration
    | .showing => some (.showConfiguration (found.value? "section"))
  return .perform {
    configuration := (found.value? "config").getD "flowprobe.toml"
    logLevel := found.value? "log-level"
    form := if found.value? "output" = some "json" then .json else .text
    command }

end Found

/-- Help on a command, each word naming the next level. Help itself is a topic where commands are. -/
def helpOn (level : Level) : List String → Option Request
  | [] => some .help
  | word :: words =>
    match level.below word with
    | some level => helpOn level words
    | none => if level.isOpen && word = "help" && words.isEmpty then some .help else none

/-- Takes up the words behind a double hyphen, none of which is an option or a command. -/
def finish (level : Level) (found : Found) : List String → Option Request
  | [] => found.request? level
  | word :: words => do finish level (← found.name level word) words

/-- Reads the words from left to right. There is no request where one of them is out of place. -/
def read (level : Level) (found : Found) : List String → Option Request
  | [] => found.request? level
  | "--" :: words => finish level found words
  | word :: words =>
    let take (option : String) (attached : Option String) : Option Request :=
      match attached, words with
      | some value, words => (found.give level option value).bind fun found => read level found words
      | none, value :: words =>
        if (Word.ofString value).isOption then none
        else (found.give level option value).bind fun found => read level found words
      | none, [] => none
    match Word.ofString word with
    | .long name value =>
      if name = "help" then if value.isNone then some .help else none
      else if name = "version" && level = .program then if value.isNone then some .version else none
      else if level.options.contains name then take name value
      else none
    | .letters 'h' _ => some .help
    | .letters 'V' _ => if level = .program then some .version else none
    | .letters 'c' rest =>
      if level = .program then
        match rest with
        | [] => take "config" none
        | '=' :: value => take "config" (some (String.ofList value))
        | value => take "config" (some (String.ofList value))
      else none
    | .letters _ _ => none
    | .plain =>
      if level.isOpen && word = "help" then helpOn level words
      else match level.below word with
        | some level => read level found words
        | none => (found.name level word).bind fun found => read level found words

/-- The request of a command line, if it is one. -/
def Request.ofArguments (arguments : List String) : Option Request :=
  read .program ⟨[], none⟩ arguments

end FlowMetering.CommandLine
