import FlowMetering.Toml.Scalar

/-!
The lines of a TOML document, before their keys are gathered into tables.
-/

namespace FlowMetering.Toml
open Text

/-- The keys that lead to a member, from the outside in. -/
abbrev Path := List String

/-- A value as written. The members of a table in braces have paths of their own. -/
inductive Written where
  | scalar (value : Toml)
  | array (items : List Written)
  | braces (members : List (Path × Written))

/-- A header opens a table, or a further row of an array of tables. Entries belong to the last header. -/
inductive Line where
  | table (path : Path)
  | row (path : Path)
  | entry (path : Path) (value : Written)

def isMargin (c : Char) : Bool :=
  c = ' ' || c = '\t'

def skipMargin (text : List Char) : List Char :=
  text.dropWhile isMargin

/-- Whether a character may stand in a comment or a quoted text. -/
def isPlain (c : Char) : Bool :=
  c = '\t' || (0x20 ≤ c.toNat && c.toNat != 0x7f)

/-- The text behind a line break. -/
def newline? : List Char → Option (List Char)
  | '\n' :: rest => some rest
  | '\r' :: '\n' :: rest => some rest
  | _ => none

/-- Passes over blanks, line breaks and comments; `remark` says that a comment has begun. -/
def skipGaps (remark : Bool) : List Char → List Char
  | [] => []
  | '\n' :: rest => skipGaps false rest
  | '\r' :: '\n' :: rest => skipGaps false rest
  | c :: rest =>
    if remark then if isPlain c then skipGaps true rest else c :: rest
    else if c = '#' then skipGaps true rest
    else if isMargin c then skipGaps false rest
    else c :: rest

/-- Passes over the end of a line, with the comment that may stand there. -/
def endLine (text : List Char) : Option (List Char) :=
  let rest := match skipMargin text with
    | '#' :: rest => rest.dropWhile isPlain
    | rest => rest
  if rest.isEmpty then some [] else newline? rest

/-- The raw text up to the closing double quote, and the rest. A backslash takes the next character along. -/
def spanQuoted : List Char → Option (List Char × List Char)
  | [] => none
  | '"' :: rest => some ([], rest)
  | '\\' :: c :: rest =>
    if isPlain c then (spanQuoted rest).map fun (body, rest) => ('\\' :: c :: body, rest) else none
  | c :: rest => if isPlain c then (spanQuoted rest).map fun (body, rest) => (c :: body, rest) else none

/-- The text up to the closing single quote, and the rest. -/
def spanLiteral (text : List Char) : Option (List Char × List Char) :=
  match text.span fun c => isPlain c && c != '\'' with
  | (body, '\'' :: rest) => some (body, rest)
  | _ => none

/-- The raw text up to three closing quotes, and the rest. Up to two more quotes in front of these belong to
the text. -/
def spanBlock (mark : Char) (escapes : Bool) : List Char → Option (List Char × List Char)
  | [] => none
  | '\\' :: c :: rest =>
    if escapes then
      if isPlain c || c = '\n' || c = '\r' then
        (spanBlock mark escapes rest).map fun (body, rest) => ('\\' :: c :: body, rest)
      else none
    else (spanBlock mark escapes (c :: rest)).map fun (body, rest) => ('\\' :: body, rest)
  | c :: rest =>
    let row := ((c :: rest).takeWhile (· == mark)).length
    if 5 < row then none
    else if row = 3 then some ([], rest.drop 2)
    else if isPlain c || c = '\n' || (c = '\r' && rest.head? == some '\n') then
      (spanBlock mark escapes rest).map fun (body, rest) => (c :: body, rest)
    else none

/-- The character whose number is given in hexadecimal. -/
def coded? (digits : List Char) : Option Char := do
  let digits ← digits.mapM hexDigit?
  let n := ofDigits 16 digits
  if n.isValidChar then some (Char.ofNat n) else none

/-- The character that a one-letter escape stands for. -/
def shortEscape? (c : Char) : Option Char :=
  if c = '"' || c = '\\' then some c
  else if c = 'n' then some '\n'
  else if c = 't' then some '\t'
  else if c = 'r' then some '\r'
  else if c = 'b' then some (Char.ofNat 0x08)
  else if c = 'f' then some (Char.ofNat 0x0c)
  else if c = 'e' then some (Char.ofNat 0x1b)
  else none

/-- The text that a raw text denotes. A backslash at the end of a line swallows all blanks and line breaks that
follow; `folding` says that it has been passed. -/
def unescape (folding : Bool) : List Char → Option (List Char)
  | [] => some []
  | '\\' :: 'x' :: a :: b :: rest => do
    return (← coded? [a, b]) :: (← unescape false rest)
  | '\\' :: 'u' :: a :: b :: c :: d :: rest => do
    return (← coded? [a, b, c, d]) :: (← unescape false rest)
  | '\\' :: 'U' :: a :: b :: c :: d :: e :: f :: g :: h :: rest => do
    return (← coded? [a, b, c, d, e, f, g, h]) :: (← unescape false rest)
  | '\\' :: c :: rest =>
    if (newline? (skipMargin (c :: rest))).isSome then unescape true rest
    else do return (← shortEscape? c) :: (← unescape false rest)
  | c :: rest =>
    if folding && (isMargin c || c = '\n' || c = '\r') then unescape true rest
    else (unescape false rest).map (c :: ·)

/-- Drops the line break behind the opening quotes of a text over several lines. -/
def dropFirstBreak (text : List Char) : List Char :=
  (newline? text).getD text

/-- Reads a string on one line. -/
def readString (text : List Char) : Option (String × List Char) :=
  match text with
  | '"' :: rest => do
    let (raw, rest) ← spanQuoted rest
    return (String.ofList (← unescape false raw), rest)
  | '\'' :: rest => (spanLiteral rest).map fun (body, rest) => (String.ofList body, rest)
  | _ => none

/-- Reads a string, which may extend over several lines. -/
def readAnyString (text : List Char) : Option (String × List Char) :=
  match text with
  | '"' :: '"' :: '"' :: rest => do
    let (raw, rest) ← spanBlock '"' true (dropFirstBreak rest)
    return (String.ofList (← unescape false raw), rest)
  | '\'' :: '\'' :: '\'' :: rest =>
    (spanBlock '\'' false (dropFirstBreak rest)).map fun (body, rest) => (String.ofList body, rest)
  | text => readString text

/-- Whether a character may stand in a key without quotes. -/
def isBare (c : Char) : Bool :=
  ('a' ≤ c && c ≤ 'z') || ('A' ≤ c && c ≤ 'Z') || ('0' ≤ c && c ≤ '9') || c = '_' || c = '-'

def readKey (text : List Char) : Option (String × List Char) :=
  match text.span isBare with
  | ([], text) => readString text
  | (key, rest) => some (String.ofList key, rest)

/-- Reads keys with points between them; the fuel bounds their number. -/
def readPath : Nat → List Char → Option (Path × List Char)
  | 0, _ => none
  | fuel + 1, text => do
    let (key, rest) ← readKey (skipMargin text)
    match skipMargin rest with
    | '.' :: rest =>
      let (path, rest) ← readPath fuel rest
      return (key :: path, rest)
    | rest => return ([key], rest)

/-- Whether a character may stand in a value without quotes. -/
def isScalarChar (c : Char) : Bool :=
  isBare c || c = '+' || c = '.' || c = ':'

/-- Reads a value without quotes. A blank may stand between a date and the time of day. -/
def readScalar (text : List Char) : Option (Toml × List Char) :=
  let (word, rest) := text.span isScalarChar
  let (word, rest) := match rest with
    | ' ' :: more =>
      let (time, rest') := more.span isScalarChar
      if skipDate word == some [] && (skipTime time).isSome then (word ++ ' ' :: time, rest') else (word, rest)
    | _ => (word, rest)
  (scalar? word).map fun value => (value, rest)

mutual
/-- Reads one value; the fuel bounds the number of values and separators. -/
def readValue : Nat → List Char → Option (Written × List Char)
  | 0, _ => none
  | fuel + 1, text =>
    match text with
    | '[' :: rest => readItems fuel [] (skipGaps false rest)
    | '\x7b' :: rest => readMembers fuel [] (skipGaps false rest)
    | '"' :: _ | '\'' :: _ => (readAnyString text).map fun (s, rest) => (.scalar (.string s), rest)
    | text => (readScalar text).map fun (value, rest) => (.scalar value, rest)

/-- Reads the items of an array up to its closing bracket, the last first. A comma may end the list. -/
def readItems : Nat → List Written → List Char → Option (Written × List Char)
  | 0, _, _ => none
  | _ + 1, items, ']' :: rest => some (.array items.reverse, rest)
  | fuel + 1, items, text =>
    match readValue fuel text with
    | none => none
    | some (item, rest) =>
      match skipGaps false rest with
      | ',' :: rest => readItems fuel (item :: items) (skipGaps false rest)
      | ']' :: rest => some (.array (item :: items).reverse, rest)
      | _ => none

/-- Reads the members of a table up to its closing brace, the last first. A comma may end the list. -/
def readMembers : Nat → List (Path × Written) → List Char → Option (Written × List Char)
  | 0, _, _ => none
  | _ + 1, members, '\x7d' :: rest => some (.braces members.reverse, rest)
  | fuel + 1, members, text =>
    match readPath fuel text with
    | some (path, '=' :: rest) =>
      match readValue fuel (skipMargin rest) with
      | none => none
      | some (value, rest) =>
        match skipGaps false rest with
        | ',' :: rest => readMembers fuel ((path, value) :: members) (skipGaps false rest)
        | '\x7d' :: rest => some (.braces ((path, value) :: members).reverse, rest)
        | _ => none
    | _ => none
end

/-- Reads one line that is neither empty nor a comment. -/
def readLine (text : List Char) : Option (Line × List Char) :=
  let fuel := 2 * text.length + 2
  match text with
  | '[' :: '[' :: rest =>
    match readPath fuel rest with
    | some (path, ']' :: ']' :: rest) => (endLine rest).map fun rest => (.row path, rest)
    | _ => none
  | '[' :: rest =>
    match readPath fuel rest with
    | some (path, ']' :: rest) => (endLine rest).map fun rest => (.table path, rest)
    | _ => none
  | text =>
    match readPath fuel text with
    | some (path, '=' :: rest) => do
      let (value, rest) ← readValue fuel (skipMargin rest)
      let rest ← endLine rest
      return (.entry path value, rest)
    | _ => none

/-- Reads the lines of a text; the fuel bounds their number. -/
def readLines : Nat → List Char → Option (List Line)
  | 0, _ => none
  | fuel + 1, text =>
    match skipGaps false text with
    | [] => some []
    | text => do
      let (line, rest) ← readLine text
      let lines ← readLines fuel rest
      return line :: lines

/-- The lines of a document. A byte order mark may stand in front. -/
def lines? (text : String) : Option (List Line) :=
  let text := match text.toList with
    | '\ufeff' :: rest => rest
    | text => text
  readLines (text.length + 1) text

end FlowMetering.Toml
