import FlowMetering.Decimal.Style

/-!
JSON values and their text. Objects keep the order of their members; reading sorts them, so that a document
has one value.
-/

namespace FlowMetering

/-- A JSON number: a whole number of 64 bits where one was written, otherwise a double. -/
inductive Json.Number where
  | natural (n : UInt64)
  | negative (n : Int64)
  | double (x : Float)

/-- A signed whole number. -/
def Json.Number.ofInt64 (n : Int64) : Json.Number :=
  if n.toInt < 0 then .negative n else .natural n.toInt.toNat.toUInt64

inductive Json where
  | null
  | boolean (b : Bool)
  | number (n : Json.Number)
  | string (s : String)
  | array (items : List Json)
  | object (members : List (String × Json))

namespace Json

/-- Doubles keep a fraction digit and stand in positional form from `0.00001` up to sixteen digits before the
point. -/
def doubleStyle : Decimal.Style where
  positional leading := -5 ≤ leading && leading ≤ 15
  pointZero := true
  tie := .toEven
  notANumber := "null"
  infinity := "null"

/-- The text of a number. A double that is not finite has no JSON form and is written `null`. -/
def Number.text : Number → String
  | .natural n => toString n.toNat
  | .negative n => toString n.toInt
  | .double x => if x.isFinite then doubleStyle.text x else "null"

/-- The two lower-case hexadecimal digits of a control character. -/
def hexPair (n : Nat) : List Char :=
  [Nat.digitChar (n / 16 % 16), Nat.digitChar (n % 16)]

/-- One character inside quotes: the quote, the backslash and control characters are escaped. -/
def escape (c : Char) : List Char :=
  if c = '"' then ['\\', '"']
  else if c = '\\' then ['\\', '\\']
  else if c = '\n' then ['\\', 'n']
  else if c = '\r' then ['\\', 'r']
  else if c = '\t' then ['\\', 't']
  else if c.toNat = 0x08 then ['\\', 'b']
  else if c.toNat = 0x0c then ['\\', 'f']
  else if c.toNat < 0x20 then '\\' :: 'u' :: '0' :: '0' :: hexPair c.toNat
  else [c]

/-- A text between quotes. -/
def quote (s : String) : String :=
  String.ofList ('"' :: s.toList.flatMap escape ++ ['"'])

mutual
/-- The text of a value without blanks. -/
def compact : Json → String
  | .null => "null"
  | .boolean b => if b then "true" else "false"
  | .number n => n.text
  | .string s => quote s
  | .array items => "[" ++ ",".intercalate (compactItems items) ++ "]"
  | .object members => "\x7b" ++ ",".intercalate (compactMembers members) ++ "\x7d"
termination_by structural value => value

def compactItems : List Json → List String
  | [] => []
  | item :: items => compact item :: compactItems items
termination_by structural items => items

def compactMembers : List (String × Json) → List String
  | [] => []
  | (key, value) :: members => (quote key ++ ":" ++ compact value) :: compactMembers members
termination_by structural members => members
end

/-- Lines inside brackets, one level further in than the brackets. -/
def block (opening closing : String) (level : Nat) : List String → String
  | [] => opening ++ closing
  | lines =>
    let margin := String.ofList (List.replicate (2 * level) ' ')
    opening ++ "\n" ++ ",\n".intercalate (lines.map fun line => margin ++ "  " ++ line)
      ++ "\n" ++ margin ++ closing

mutual
/-- The text of a value with one item on each line, two blanks further in at each level. -/
def indented (level : Nat) : Json → String
  | .array items => block "[" "]" level (indentedItems level items)
  | .object members => block "\x7b" "\x7d" level (indentedMembers level members)
  | .null => "null"
  | .boolean b => if b then "true" else "false"
  | .number n => n.text
  | .string s => quote s
termination_by structural value => value

def indentedItems (level : Nat) : List Json → List String
  | [] => []
  | item :: items => indented (level + 1) item :: indentedItems level items
termination_by structural items => items

def indentedMembers (level : Nat) : List (String × Json) → List String
  | [] => []
  | (key, value) :: members =>
    (quote key ++ ": " ++ indented (level + 1) value) :: indentedMembers level members
termination_by structural members => members
end

/-- The indented text of a whole document. -/
def pretty (value : Json) : String :=
  indented 0 value

/-- The member of an object with a given key. -/
def member? (key : String) : Json → Option Json
  | .object members => (members.find? (·.1 == key)).map (·.2)
  | _ => none

end Json

end FlowMetering
