/-!
Digits in text, and the numbers that rows of digits denote.
-/

namespace FlowMetering.Text

/-- The decimal digit that a character stands for. -/
def digit? (c : Char) : Option Nat :=
  if '0' ≤ c && c ≤ '9' then some (c.toNat - '0'.toNat) else none

/-- The hexadecimal digit that a character stands for, in either case. -/
def hexDigit? (c : Char) : Option Nat :=
  if '0' ≤ c && c ≤ '9' then some (c.toNat - '0'.toNat)
  else if 'a' ≤ c && c ≤ 'f' then some (c.toNat - 'a'.toNat + 10)
  else if 'A' ≤ c && c ≤ 'F' then some (c.toNat - 'A'.toNat + 10)
  else none

/-- The number whose digits in some radix are given, the most significant first. -/
def ofDigits (radix : Nat) (digits : List Nat) : Nat :=
  digits.foldl (fun value digit => radix * value + digit) 0

/-- The digits at the front of a text, and the rest. -/
def spanDigits (text : List Char) : List Nat × List Char :=
  let (digits, rest) := text.span fun c => (digit? c).isSome
  (digits.filterMap digit?, rest)

end FlowMetering.Text
