import FlowMetering.Json.Document
import FlowMetering.Stored
import FlowMetering.Text.Blank
import FlowMetering.Text.Inspect

/-!
Specifications: which features a meter exports, which controls cut its flows, and which filters its packets
have to pass. A specification is a JSON object, or an array that lists only the features. The expressions in
it are left as JSON here; the compiler reads them.
-/

namespace FlowMetering

structure Specification where
  features : List Json
  control : List Json
  filter : List String

/-- Why a well-formed JSON value is no specification. -/
inductive Specification.Defect where
  | notACollection (found : Json)
  | unknownMember (key : String)
  | notASequence (found : Json)
  | notAText (found : Json)
  | missingFeatures
  | noFeatures
  | blankFilter (number : Nat)
  | tooLarge (bytes limit : Nat)

/-- Why a specification cannot be had. -/
inductive Specification.Error where
  | fileNotFound (path : String)
  | unreadable (path : String) (cause : Unreadable)
  | notJson
  | invalid (defect : Specification.Defect)

/-- The sort of a JSON value, with its article. -/
def Json.sort : Json → String
  | .null => "null"
  | .boolean _ => "a boolean"
  | .number _ => "a number"
  | .string _ => "a string"
  | .array _ => "an array"
  | .object _ => "an object"

/-- A JSON value as messages show it: scalars in full, collections by their sort. -/
def Json.shown : Json → String
  | .null => "null"
  | .boolean b => "boolean `" ++ (if b then "true" else "false") ++ "`"
  | .number (.double x) => "floating point `" ++ Text.doubleStyle.text x ++ "`"
  | .number n => "integer `" ++ n.text ++ "`"
  | .string s => "string " ++ Text.inspect s
  | .array _ => "sequence"
  | .object _ => "map"

namespace Specification

def Defect.message : Defect → String
  | .notACollection found => "expected an object or an array, got " ++ found.sort
  | .unknownMember key =>
    "unknown field `" ++ key ++ "`, expected one of `features`, `control`, `filter`"
  | .notASequence found => "invalid type: " ++ found.shown ++ ", expected a sequence"
  | .notAText found => "invalid type: " ++ found.shown ++ ", expected a string"
  | .missingFeatures => "missing field `features`"
  | .noFeatures => "features must not be empty"
  | .blankFilter number => "filter #" ++ toString number ++ " has an empty name"
  | .tooLarge bytes limit =>
    "file too large: " ++ toString bytes ++ " bytes (max: " ++ toString limit ++ ")"

def Error.message : Error → String
  | .fileNotFound path => "spec file not found: " ++ path
  | .unreadable path cause => "failed to parse spec: " ++ path ++ ": " ++ cause.message
  | .notJson => "failed to parse spec: the text is not JSON"
  | .invalid defect => "invalid spec: " ++ defect.message

/-- A specification that only lists features. -/
def ofFeatures (features : List Json) : Specification :=
  ⟨features, [], []⟩

def withControl (s : Specification) (control : Json) : Specification :=
  { s with control := s.control ++ [control] }

def withFilter (s : Specification) (filter : String) : Specification :=
  { s with filter := s.filter ++ [filter] }

/-- The first filter without a name is a defect, and so is a specification without features. -/
def validate (s : Specification) : Except Defect Unit :=
  if s.features.isEmpty then .error .noFeatures
  else match s.filter.findIdx? Text.allBlank with
    | some i => .error (.blankFilter (i + 1))
    | none => .ok ()

def sequence (found : Json) : Except Defect (List Json) :=
  match found with
  | .array items => .ok items
  | found => .error (.notASequence found)

def text (found : Json) : Except Defect String :=
  match found with
  | .string s => .ok s
  | found => .error (.notAText found)

/-- The members found so far in an object. -/
structure Members where
  features : Option (List Json)
  control : Option (List Json)
  filter : Option (List String)

/-- Takes up one member of an object. -/
def Members.add (found : Members) (key : String) (value : Json) : Except Defect Members :=
  if key = "features" then do
    return { found with features := some (← sequence value) }
  else if key = "control" then do
    return { found with control := some (← sequence value) }
  else if key = "filter" then do
    return { found with filter := some (← (← sequence value).mapM text) }
  else .error (.unknownMember key)

/-- Reads the members of an object in their order; the first defect is reported. -/
def ofMembers (members : List (String × Json)) : Except Defect Specification := do
  let found ← members.foldlM (fun (found : Members) (key, value) => found.add key value) ⟨none, none, none⟩
  match found.features with
  | some features => return ⟨features, found.control.getD [], found.filter.getD []⟩
  | none => .error .missingFeatures

/-- Reads a specification from a JSON value. -/
def ofJson (value : Json) : Except Defect Specification := do
  let specification ← match value with
    | .array features => .ok (ofFeatures features)
    | .object members => ofMembers members
    | other => .error (.notACollection other)
  specification.validate
  return specification

/-- Reads a specification from a text. -/
def parse (text : String) : Except Error Specification :=
  match Json.parse? text with
  | none => .error .notJson
  | some value =>
    match ofJson value with
    | .ok specification => .ok specification
    | .error defect => .error (.invalid defect)

/-- The JSON form; controls and filters are left out where there are none. -/
def toJson (s : Specification) : Json :=
  let control := if s.control.isEmpty then [] else [("control", Json.array s.control)]
  let filter := if s.filter.isEmpty then [] else [("filter", Json.array (s.filter.map .string))]
  .object (("features", .array s.features) :: control ++ filter)

end Specification

end FlowMetering
