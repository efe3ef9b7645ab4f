import FlowMetering.Text.Digit

/-!
Network addresses of both families, their order and their text.
-/

namespace FlowMetering

/-- An address of one of the two families. -/
inductive Address where
  | v4 (bits : BitVec 32)
  | v6 (bits : BitVec 128)
  deriving DecidableEq, Repr

namespace Address

/-- Addresses of the older family come first; within a family the numeric order holds. -/
def compare : Address → Address → Ordering
  | .v4 a, .v4 b => Ord.compare a.toNat b.toNat
  | .v6 a, .v6 b => Ord.compare a.toNat b.toNat
  | .v4 _, .v6 _ => .lt
  | .v6 _, .v4 _ => .gt

/-- The four octets, the most significant first. -/
def octets (bits : BitVec 32) : List Nat :=
  [24, 16, 8, 0].map fun place => (bits.extractLsb' place 8).toNat

/-- The eight groups of sixteen bits, the most significant first. -/
def groups (bits : BitVec 128) : List Nat :=
  [112, 96, 80, 64, 48, 32, 16, 0].map fun place => (bits.extractLsb' place 16).toNat

/-- Four octets with points between them. -/
def quadText (octets : List Nat) : String :=
  ".".intercalate (octets.map toString)

/-- Groups in lower-case hexadecimal with colons between them. -/
def groupsText (groups : List Nat) : String :=
  ":".intercalate (groups.map fun group => String.ofList (Nat.toDigits 16 group))

/-- How many zero groups stand at the front. -/
def zeroRun (groups : List Nat) : Nat :=
  (groups.takeWhile (· == 0)).length

/-- The first of the longest runs of zero groups: where it starts and how long it is. -/
def longestZeroRun (groups : List Nat) : Nat × Nat :=
  (List.range groups.length).foldl
    (fun (start, length) i =>
      let run := zeroRun (groups.drop i)
      if length < run then (i, run) else (start, length))
    (0, 0)

/-- The text of eight groups. A mapped address of the older family ends in its dotted form; otherwise the
longest run of at least two zero groups is written as two colons. -/
def text6 (bits : BitVec 128) : String :=
  if (bits.extractLsb' 32 96).toNat = 0xffff then "::ffff:" ++ quadText (octets (bits.truncate 32))
  else
    let groups := groups bits
    let (start, length) := longestZeroRun groups
    if 1 < length then
      groupsText (groups.take start) ++ "::" ++ groupsText (groups.drop (start + length))
    else groupsText groups

def text : Address → String
  | .v4 bits => quadText (octets bits)
  | .v6 bits => text6 bits

/-- A number in front of a text: at least one digit and at most `most`. -/
def readPlace (digit? : Char → Option Nat) (radix most : Nat) (text : List Char) : Option (Nat × List Char) :=
  let (digits, rest) := text.span fun c => (digit? c).isSome
  if digits.isEmpty || most < digits.length then none
  else some (Text.ofDigits radix (digits.filterMap digit?), rest)

/-- An octet: at most 255 and without zeros in front. -/
def readOctet (text : List Char) : Option (Nat × List Char) :=
  match readPlace Text.digit? 10 3 text with
  | some (value, rest) =>
    let padded := text.head? == some '0' && text.length - rest.length != 1
    if padded || 255 < value then none else some (value, rest)
  | none => none

/-- The rest of a text behind a given character. -/
def skip (mark : Char) : List Char → Option (List Char)
  | c :: rest => if c = mark then some rest else none
  | [] => none

/-- Four octets with points between them. -/
def readQuad (text : List Char) : Option (List Nat × List Char) := do
  let (a, rest) ← readOctet text
  let (b, rest) ← readOctet (← skip '.' rest)
  let (c, rest) ← readOctet (← skip '.' rest)
  let (d, rest) ← readOctet (← skip '.' rest)
  return ([a, b, c, d], rest)

/-- A group of one to four hexadecimal digits. -/
def readGroup (text : List Char) : Option (Nat × List Char) :=
  readPlace Text.hexDigit? 16 4 text

/-- Reads at most `most` groups with colons between them; the last two may be a dotted quad. Gives the groups,
whether they end in a quad, and the rest. -/
def readGroups (first : Bool) : Nat → List Char → List Nat × Bool × List Char
  | 0, text => ([], false, text)
  | most + 1, text =>
    match if first then some text else skip ':' text with
    | none => ([], false, text)
    | some start =>
      match if most = 0 then none else readQuad start with
      | some (quad, rest) => ([Text.ofDigits 256 (quad.take 2), Text.ofDigits 256 (quad.drop 2)], true, rest)
      | none =>
        match readGroup start with
        | none => ([], false, text)
        | some (group, rest) =>
          let (groups, quad, rest) := readGroups false most rest
          (group :: groups, quad, rest)

/-- Eight groups, or fewer with two colons for at least one zero group. Nothing may follow a dotted quad. -/
def read6 (text : List Char) : Option (List Nat × List Char) := do
  let (head, quad, rest) := readGroups true 8 text
  if head.length = 8 then return (head, rest)
  if quad then none
  let rest ← skip ':' (← skip ':' rest)
  let (tail, _, rest) := readGroups true (7 - head.length) rest
  return (head ++ List.replicate (8 - head.length - tail.length) 0 ++ tail, rest)

/-- Reads an address of either family; the whole text has to be used up. -/
def parse? (text : String) : Option Address :=
  let text := text.toList
  match readQuad text with
  | some (quad, rest) => if rest.isEmpty then some (.v4 (BitVec.ofNat 32 (Text.ofDigits 256 quad))) else none
  | none =>
    match read6 text with
    | some (groups, rest) => if rest.isEmpty then some (.v6 (BitVec.ofNat 128 (Text.ofDigits 65536 groups))) else none
    | none => none

end Address

end FlowMetering
