import FlowMetering.Json.Numeral

/-!
JSON documents: the tree that a text spells out, before its numbers and escapes are given a meaning. A member
that nobody asks for need not have one: `1e999` is a well-formed number that denotes nothing.
-/

namespace FlowMetering.Json
open Text

/-- A JSON text as a tree. A string whose escapes leave a surrogate without its partner denotes nothing. -/
inductive Document where
  | null
  | boolean (b : Bool)
  | number (n : Numeral)
  | string (s : Option String)
  | array (items : List Document)
  | object (members : List (Option String × Document))

/-- The four characters that may stand between tokens. -/
def isSpace (c : Char) : Bool :=
  c = ' ' || c = '\t' || c = '\n' || c = '\r'

def skipSpace (text : List Char) : List Char :=
  text.dropWhile isSpace

/-- The part of a number behind its point or exponent mark: at least one digit. -/
def someDigits (text : List Char) : Option (List Nat × List Char) :=
  match spanDigits text with
  | ([], _) => none
  | found => some found

/-- Reads a number without its sign. No zero stands in front of another digit. -/
def readNumeral (negative : Bool) (text : List Char) : Option (Numeral × List Char) := do
  let (whole, rest) ← match text with
    | '0' :: rest => some ([0], rest)
    | _ => someDigits text
  let (fraction, rest) ← match rest with
    | '.' :: rest => (someDigits rest).map fun (digits, rest) => (some digits, rest)
    | _ => some (none, rest)
  let signed (below : Bool) (rest : List Char) :=
    (someDigits rest).map fun (digits, rest) => (some (below, digits), rest)
  let (exponent, rest) ← match rest with
    | mark :: rest' =>
      if mark = 'e' || mark = 'E' then
        match rest' with
        | '+' :: rest' => signed false rest'
        | '-' :: rest' => signed true rest'
        | _ => signed false rest'
      else some (none, rest)
    | [] => some (none, rest)
  return (⟨negative, whole, fraction, exponent⟩, rest)

/-- What stands in a string: a character, or an escaped code unit of sixteen bits. -/
inductive Piece where
  | char (c : Char)
  | unit (n : Nat)

def isHighSurrogate (n : Nat) : Bool := 0xd800 ≤ n && n ≤ 0xdbff

def isLowSurrogate (n : Nat) : Bool := 0xdc00 ≤ n && n ≤ 0xdfff

/-- Joins escaped surrogate pairs. The pieces come last first, and so does nothing else: the result is in
reading order. -/
def joinPieces : List Piece → List Char → Option (List Char)
  | [], done => some done
  | .char c :: earlier, done => joinPieces earlier (c :: done)
  | .unit low :: .unit high :: earlier, done =>
    if isLowSurrogate low then
      if isHighSurrogate high then
        joinPieces earlier (Char.ofNat (0x10000 + (high - 0xd800) * 0x400 + (low - 0xdc00)) :: done)
      else none
    else if isHighSurrogate low then none
    else joinPieces (.unit high :: earlier) (Char.ofNat low :: done)
  | .unit n :: earlier, done =>
    if isLowSurrogate n || isHighSurrogate n then none else joinPieces earlier (Char.ofNat n :: done)

/-- The character that a one-letter escape stands for. -/
def shortEscape? (c : Char) : Option Char :=
  if c = '"' || c = '\\' || c = '/' then some c
  else if c = 'n' then some '\n'
  else if c = 't' then some '\t'
  else if c = 'r' then some '\r'
  else if c = 'b' then some (Char.ofNat 0x08)
  else if c = 'f' then some (Char.ofNat 0x0c)
  else none

/-- Reads a string behind its opening quote. The pieces read so far come last first. -/
def readString (pieces : List Piece) : List Char → Option (Option String × List Char)
  | [] => none
  | '"' :: rest => some ((joinPieces pieces []).map String.ofList, rest)
  | '\\' :: 'u' :: a :: b :: c :: d :: rest =>
    match hexDigit? a, hexDigit? b, hexDigit? c, hexDigit? d with
    | some a, some b, some c, some d => readString (.unit (((16 * a + b) * 16 + c) * 16 + d) :: pieces) rest
    | _, _, _, _ => none
  | '\\' :: c :: rest =>
    match shortEscape? c with
    | some c => readString (.char c :: pieces) rest
    | none => none
  | c :: rest =>
    if c = '\\' || c.toNat < 0x20 then none else readString (.char c :: pieces) rest

mutual
/-- Reads one value; the fuel bounds the number of values and separators. -/
def readValue : Nat → List Char → Option (Document × List Char)
  | 0, _ => none
  | fuel + 1, text =>
    match skipSpace text with
    | 'n' :: 'u' :: 'l' :: 'l' :: rest => some (.null, rest)
    | 't' :: 'r' :: 'u' :: 'e' :: rest => some (.boolean true, rest)
    | 'f' :: 'a' :: 'l' :: 's' :: 'e' :: rest => some (.boolean false, rest)
    | '"' :: rest => (readString [] rest).map fun (s, rest) => (.string s, rest)
    | '[' :: rest =>
      match skipSpace rest with
      | ']' :: rest => some (.array [], rest)
      | rest => readItems fuel [] rest
    | '\x7b' :: rest =>
      match skipSpace rest with
      | '\x7d' :: rest => some (.object [], rest)
      | rest => readMembers fuel [] rest
    | '-' :: rest => (readNumeral true rest).map fun (n, rest) => (.number n, rest)
    | rest => (readNumeral false rest).map fun (n, rest) => (.number n, rest)

/-- Reads the items of an array up to its closing bracket, the last first. -/
def readItems : Nat → List Document → List Char → Option (Document × List Char)
  | 0, _, _ => none
  | fuel + 1, items, text =>
    match readValue fuel text with
    | none => none
    | some (item, rest) =>
      match skipSpace rest with
      | ',' :: rest => readItems fuel (item :: items) rest
      | ']' :: rest => some (.array (item :: items).reverse, rest)
      | _ => none

/-- Reads the members of an object up to its closing bracket, the last first. -/
def readMembers : Nat → List (Option String × Document) → List Char → Option (Document × List Char)
  | 0, _, _ => none
  | fuel + 1, members, text =>
    match skipSpace text with
    | '"' :: rest =>
      match readString [] rest with
      | none => none
      | some (key, rest) =>
        match skipSpace rest with
        | ':' :: rest =>
          match readValue fuel rest with
          | none => none
          | some (value, rest) =>
            match skipSpace rest with
            | ',' :: rest => readMembers fuel ((key, value) :: members) rest
            | '\x7d' :: rest => some (.object ((key, value) :: members).reverse, rest)
            | _ => none
        | _ => none
    | _ => none
end

/-- Reads a text that holds one value and blanks around it. -/
def Document.parse? (text : String) : Option Document :=
  let text := text.toList
  match readValue (2 * text.length + 2) text with
  | some (document, rest) => if (skipSpace rest).isEmpty then some document else none
  | none => none

/-- Puts a member at its place in an object sorted by key; an earlier member of the same key is replaced. -/
def insertMember (key : String) (value : Json) : List (String × Json) → List (String × Json)
  | [] => [(key, value)]
  | (other, kept) :: members =>
    if key < other then (key, value) :: (other, kept) :: members
    else if key = other then (key, value) :: members
    else (other, kept) :: insertMember key value members

/-- An object with its members sorted by key, the last of equal keys kept. -/
def ofMembers (members : List (String × Json)) : Json :=
  .object (members.foldl (fun sorted (key, value) => insertMember key value sorted) [])

mutual
/-- The value that a document denotes, with at most `levels` arrays and objects inside each other. -/
def Document.value? (levels : Nat) : Document → Option Json
  | .null => some .null
  | .boolean b => some (.boolean b)
  | .number n => n.number?.map .number
  | .string s => s.map .string
  | .array items => if levels = 0 then none else (Document.values? (levels - 1) items).map .array
  | .object members => if levels = 0 then none else (Document.members? (levels - 1) members).map ofMembers
termination_by structural document => document

def Document.values? (levels : Nat) : List Document → Option (List Json)
  | [] => some []
  | item :: items => do
    let value ← Document.value? levels item
    let values ← Document.values? levels items
    return value :: values
termination_by structural items => items

def Document.members? (levels : Nat) : List (Option String × Document) → Option (List (String × Json))
  | [] => some []
  | (key, member) :: members => do
    let key ← key
    let value ← Document.value? levels member
    let values ← Document.members? levels members
    return (key, value) :: values
termination_by structural members => members
end

/-- How many arrays and objects may stand inside each other. -/
def maxLevels : Nat := 127

/-- The value of a JSON text. -/
def parse? (text : String) : Option Json := do
  let document ← Document.parse? text
  document.value? maxLevels

end FlowMetering.Json
