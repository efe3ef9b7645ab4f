import FlowMetering.Json.Basic
import FlowMetering.Text.Digit
import FlowMetering.Word

/-!
Numbers as they are written in JSON, and what they denote. A whole number that fits 64 bits denotes itself.
Any other number denotes a double: its leading digits, as many as fit 64 bits, are rounded once and then
scaled by a power of ten, which rounds again. The result may differ from the nearest double in its last bit.
-/

namespace FlowMetering.Json

/-- A number as written. An exponent is its sign, negative or not, and its digits. -/
structure Numeral where
  negative : Bool
  whole : List Nat
  fraction : Option (List Nat)
  exponent : Option (Bool × List Nat)

/-- Appends digits to a significand while it fits 64 bits; also gives how many digits were appended. -/
def appendDigits (significand : Nat) : List Nat → Nat × Nat
  | [] => (significand, 0)
  | digit :: digits =>
    if 10 * significand + digit ≤ Word.maxUnsigned then
      let (result, count) := appendDigits (10 * significand + digit) digits
      (result, count + 1)
    else (significand, 0)

/-- `10 ^ n` as a double. -/
def powerOfTen (n : Nat) : Float :=
  Float.ofScientific 1 false n

/-- A significand of 64 bits scaled by `10 ^ exponent`. There is no result where it overflows; two steps of
308 decades down leave nothing of any significand. -/
def scaled (significand : Nat) (exponent : Int) : Option Float :=
  let x := significand.toUInt64.toFloat
  if 0 ≤ exponent then
    if exponent ≤ 308 then
      let y := x * powerOfTen exponent.toNat
      if y.isInf then none else some y
    else if significand = 0 then some x else none
  else if -308 ≤ exponent then some (x / powerOfTen (-exponent).toNat)
  else if -616 ≤ exponent then some (x / powerOfTen 308 / powerOfTen (-exponent - 308).toNat)
  else some (x / powerOfTen 308 / powerOfTen 308)

/-- The double that a number denotes, without its sign. -/
def Numeral.magnitude? (n : Numeral) : Option Float :=
  let (significand, taken) := appendDigits 0 n.whole
  let dropped := n.whole.length - taken
  let (significand, places) := appendDigits significand (n.fraction.getD [])
  let written : Int := match n.exponent with
    | none => 0
    | some (negative, digits) => if negative then -(Text.ofDigits 10 digits : Int) else Text.ofDigits 10 digits
  scaled significand ((dropped : Int) - places + written)

/-- What a number denotes. Minus zero is a double, for no whole number is minus zero. -/
def Numeral.number? (n : Numeral) : Option Number :=
  let value := Text.ofDigits 10 n.whole
  let asDouble := n.magnitude?.map fun x => Number.double (if n.negative then -x else x)
  if n.fraction.isNone && n.exponent.isNone then
    if n.negative then
      if value = 0 then asDouble else ((Word.signed? (-(value : Int))).map .negative).or asDouble
    else ((Word.unsigned? value).map .natural).or asDouble
  else asDouble

end FlowMetering.Json
