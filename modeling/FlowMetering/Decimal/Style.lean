import FlowMetering.Decimal.Shortest

/-!
How a double is written. A `Style` holds the decisions of one output format; the digits are always the
shortest ones that read back.
-/

namespace FlowMetering

/-- The decisions of a format. `positional` says for which exponents of the leading digit the point stands
among the digits; otherwise the number is written with an exponent and its sign. `pointZero` keeps a fraction
digit behind whole numbers. -/
structure Decimal.Style where
  positional : Int → Bool
  pointZero : Bool
  tie : Decimal.Tie
  notANumber : String
  infinity : String

/-- The digits with the point at its place. -/
def Decimal.positional (d : Decimal) (pointZero : Bool) : String :=
  let digits := Nat.toDigits 10 d.digits
  let written :=
    if 0 ≤ d.exponent then
      digits ++ List.replicate d.exponent.toNat '0' ++ (if pointZero then ['.', '0'] else [])
    else
      let places := (-d.exponent).toNat
      if places < digits.length then
        digits.take (digits.length - places) ++ '.' :: digits.drop (digits.length - places)
      else '0' :: '.' :: List.replicate (places - digits.length) '0' ++ digits
  String.ofList written

/-- The exponent of the leading digit. -/
def Decimal.leading (d : Decimal) : Int :=
  d.exponent + (digitCount d.digits : Int) - 1

/-- One digit, the others behind the point, and the exponent of the leading digit with its sign. -/
def Decimal.scientific (d : Decimal) : String :=
  let digits := Nat.toDigits 10 d.digits
  let mantissa := match digits with
    | first :: second :: rest => String.ofList (first :: '.' :: second :: rest)
    | _ => String.ofList digits
  let sign := if d.leading < 0 then "-" else "+"
  mantissa ++ "e" ++ sign ++ toString d.leading.natAbs

/-- The text of a double. -/
def Decimal.Style.text (style : Decimal.Style) (x : Float) : String :=
  let bits := x.toBits.toNat
  let sign := if bits < Binary.signBit then "" else "-"
  let magnitude := bits % Binary.signBit
  if magnitude = 0 then sign ++ (if style.pointZero then "0.0" else "0")
  else if magnitude = 0x7ff0000000000000 then sign ++ style.infinity
  else if magnitude > 0x7ff0000000000000 then style.notANumber
  else
    let d := shortest style.tie (.ofBits magnitude)
    sign ++ (if style.positional d.leading then d.positional style.pointZero else d.scientific)

end FlowMetering
