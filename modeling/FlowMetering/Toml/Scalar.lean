import FlowMetering.Text.Digit
import FlowMetering.Toml.Basic

/-!
TOML values that are written without quotes: booleans, integers, floats, dates and times.
-/

namespace FlowMetering.Toml
open Text

/-- The digits of a number, given the digits of its radix. An underscore stands between two digits. -/
def separated? (digitOf : Char → Option Nat) : List Char → Option (List Nat)
  | [] => none
  | [c] => (digitOf c).map ([·])
  | c :: '_' :: rest => do
    let digit ← digitOf c
    let digits ← separated? digitOf rest
    return digit :: digits
  | c :: rest => do
    let digit ← digitOf c
    let digits ← separated? digitOf rest
    return digit :: digits

def octalDigit? (c : Char) : Option Nat :=
  (digit? c).filter (· < 8)

def binaryDigit? (c : Char) : Option Nat :=
  (digit? c).filter (· < 2)

/-- The sign in front of a number, `true` for minus, and the rest. -/
def signed (text : List Char) : Bool × List Char :=
  match text with
  | '-' :: rest => (true, rest)
  | '+' :: rest => (false, rest)
  | rest => (false, rest)

/-- Decimal digits without a zero in front of another digit. -/
def decimal? (text : List Char) : Option (List Nat) :=
  match separated? digit? text with
  | some (0 :: _ :: _) => none
  | digits => digits

/-- An integer of at most 128 bits. Only a decimal one has a sign. -/
def integer? (text : List Char) : Option Int :=
  let value : Option Int := match text with
    | '0' :: 'x' :: digits => (separated? hexDigit? digits).map fun digits => ofDigits 16 digits
    | '0' :: 'o' :: digits => (separated? octalDigit? digits).map fun digits => ofDigits 8 digits
    | '0' :: 'b' :: digits => (separated? binaryDigit? digits).map fun digits => ofDigits 2 digits
    | text =>
      let (negative, digits) := signed text
      (decimal? digits).map fun digits =>
        if negative then -(ofDigits 10 digits : Int) else ofDigits 10 digits
  value.filter fun n => -0x80000000000000000000000000000000 ≤ n ∧ n ≤ 0xffffffffffffffffffffffffffffffff

/-- The exponent of a float behind its mark. -/
def exponent? (text : List Char) : Option Int :=
  let (negative, digits) := signed text
  (separated? digit? digits).map fun digits =>
    if negative then -(ofDigits 10 digits : Int) else ofDigits 10 digits

/-- The double next to `significand · 10 ^ exponent`; none if that is too large for one. -/
def scaled? (significand : Nat) (exponent : Int) : Option Float :=
  if significand = 0 then some 0.0
  else
    let digits : Int := (Nat.toDigits 10 significand).length
    if 310 < digits + exponent then none
    else if digits + exponent < -330 then some 0.0
    else
      let x := Float.ofScientific significand (exponent < 0) exponent.natAbs
      if x.isInf then none else some x

/-- A float without its sign: digits with a fraction, an exponent or both. -/
def magnitude? (text : List Char) : Option Float :=
  let (mantissa, power) := text.span fun c => c != 'e' && c != 'E'
  let (whole, fraction) := mantissa.span (· != '.')
  if power.isEmpty && fraction.isEmpty then none
  else do
    let whole ← decimal? whole
    let places ← match fraction with
      | [] => some []
      | _ :: digits => separated? digit? digits
    let exponent ← match power with
      | [] => some 0
      | _ :: text => exponent? text
    scaled? (ofDigits 10 (whole ++ places)) (exponent - places.length)

def float? (text : List Char) : Option Float :=
  let (negative, rest) := signed text
  let magnitude :=
    if rest = ['i', 'n', 'f'] then some (1.0 / 0.0)
    else if rest = ['n', 'a', 'n'] then some (0.0 / 0.0)
    else magnitude? rest
  magnitude.map fun x => if negative then -x else x

/-- Two digits of a date or time, at most `most`. -/
def pair? (least most : Nat) (text : List Char) : Option (Nat × List Char) :=
  match text with
  | a :: b :: rest => do
    let tens ← digit? a
    let ones ← digit? b
    let n := 10 * tens + ones
    if least ≤ n ∧ n ≤ most then some (n, rest) else none
  | _ => none

/-- A character that has to come next. -/
def expect (c : Char) (text : List Char) : Option (List Char) :=
  match text with
  | d :: rest => if d = c then some rest else none
  | [] => none

def isLeapYear (year : Nat) : Bool :=
  year % 4 = 0 && (year % 100 != 0 || year % 400 = 0)

def daysIn (year month : Nat) : Nat :=
  if month = 2 then (if isLeapYear year then 29 else 28)
  else if month = 4 || month = 6 || month = 9 || month = 11 then 30
  else 31

/-- Passes over a date. -/
def skipDate (text : List Char) : Option (List Char) := do
  let (century, text) ← pair? 0 99 text
  let (year, text) ← pair? 0 99 text
  let text ← expect '-' text
  let (month, text) ← pair? 1 12 text
  let text ← expect '-' text
  let (_, text) ← pair? 1 (daysIn (100 * century + year) month) text
  return text

/-- Passes over a time of day. Seconds may be left out, and have any number of decimals. -/
def skipTime (text : List Char) : Option (List Char) := do
  let (_, text) ← pair? 0 23 text
  let text ← expect ':' text
  let (_, text) ← pair? 0 59 text
  match text with
  | ':' :: text =>
    let (_, text) ← pair? 0 60 text
    match text with
    | '.' :: text =>
      let (digits, rest) := spanDigits text
      if digits.isEmpty then none else some rest
    | text => some text
  | text => some text

/-- Passes over the distance of a local time from universal time. -/
def skipOffset (text : List Char) : Option (List Char) :=
  match text with
  | 'Z' :: rest | 'z' :: rest => some rest
  | '+' :: rest | '-' :: rest => do
    let (_, rest) ← pair? 0 23 rest
    let rest ← expect ':' rest
    let (_, rest) ← pair? 0 59 rest
    return rest
  | rest => some rest

/-- Whether a text is a date, a time of day, or both with an optional offset. -/
def isMoment (text : List Char) : Bool :=
  match skipDate text with
  | none => skipTime text == some []
  | some [] => true
  | some (mark :: rest) =>
    (mark = 'T' || mark = 't' || mark = ' ') && (skipTime rest).bind skipOffset == some []

/-- The value of a text that stands without quotes. -/
def scalar? (text : List Char) : Option Toml :=
  if text = ['t', 'r', 'u', 'e'] then some (.boolean true)
  else if text = ['f', 'a', 'l', 's', 'e'] then some (.boolean false)
  else match integer? text with
    | some n => some (.integer n)
    | none =>
      match float? text with
      | some x => some (.float x)
      | none => if isMoment text then some (.moment (String.ofList text)) else none

end FlowMetering.Toml
