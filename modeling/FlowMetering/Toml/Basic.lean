/-!
TOML values, and the form in which strings are written.
-/

namespace FlowMetering

/-- A TOML value. Dates and times are kept as they were written. -/
inductive Toml where
  | string (s : String)
  | integer (n : Int)
  | float (x : Float)
  | boolean (b : Bool)
  | moment (text : String)
  | array (items : List Toml)
  | table (members : List (String × Toml))

namespace Toml

/-- The member of a table with a given key. -/
def member? (key : String) : Toml → Option Toml
  | .table members => (members.find? (·.1 == key)).map (·.2)
  | _ => none

/-- The length of the longest row of `c` in a text; `row` of them stand in front of it. -/
def longestRow (c : Char) (row : Nat) : List Char → Nat
  | [] => row
  | d :: text => if d = c then longestRow c (row + 1) text else max row (longestRow c 0 text)

/-- Whether a character can only be written as an escape. -/
def needsEscape (c : Char) : Bool :=
  (c.toNat < 0x20 || c.toNat = 0x7f) && c != '\t' && c != '\n'

/-- One character between double quotes. -/
def escape (c : Char) : List Char :=
  if c = '"' then ['\\', '"']
  else if c = '\\' then ['\\', '\\']
  else if c = '\n' then ['\\', 'n']
  else if c = '\r' then ['\\', 'r']
  else if c = '\t' then ['\\', 't']
  else if c.toNat = 0x08 then ['\\', 'b']
  else if c.toNat = 0x0c then ['\\', 'f']
  else if needsEscape c then
    ['\\', 'u', '0', '0', Nat.digitChar (c.toNat / 16), (Nat.digitChar (c.toNat % 16)).toUpper]
  else [c]

/-- The readable characters of a text over several lines. Its line breaks and quotes stand for themselves. -/
def escapeBlock (c : Char) : List Char :=
  if c = '\n' || c = '"' then [c] else escape c

/-- The delimiters of a text over several lines. A line break behind the first one is not part of the text. -/
def inBlock (delimiter : String) (lines : Bool) (body : String) : String :=
  delimiter ++ (if lines then "\n" else "") ++ body ++ delimiter

/-- The written form of a string: the first form that shows it without escapes, of double quotes, single
quotes, three double and three single quotes. Where there is none, it is escaped. -/
def quote (s : String) : String :=
  let text := s.toList
  let lines := text.contains '\n'
  let escapes := text.any needsEscape
  let backslash := text.contains '\\'
  let doubles := longestRow '"' 0 text
  let singles := longestRow '\'' 0 text
  if !escapes && !backslash && doubles = 0 && !lines then
    "\"" ++ String.ofList (text.flatMap escape) ++ "\""
  else if !escapes && singles = 0 && !lines then "'" ++ s ++ "'"
  else if !escapes && !backslash && doubles ≤ 2 then
    inBlock "\"\"\"" lines (String.ofList (text.flatMap escapeBlock))
  else if !escapes && singles ≤ 2 then inBlock "'''" lines s
  else if lines then
    inBlock "\"\"\"" lines (String.ofList (text.flatMap fun c => if c = '\n' then [c] else escape c))
  else "\"" ++ String.ofList (text.flatMap escape) ++ "\""

end Toml

end FlowMetering
