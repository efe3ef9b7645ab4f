import FlowMetering.Decimal.Style
import FlowMetering.Text.Hidden

/-!
Texts and numbers as messages show them, so that a reader can tell what was found.
-/

namespace FlowMetering.Text

/-- One character of an inspected text. -/
def inspectChar (c : Char) : List Char :=
  if c = '"' then ['\\', '"']
  else if c = '\\' then ['\\', '\\']
  else if c = '\n' then ['\\', 'n']
  else if c = '\r' then ['\\', 'r']
  else if c = '\t' then ['\\', 't']
  else if c.toNat = 0 then ['\\', '0']
  else if isHidden c then ['\\', 'u', '\x7b'] ++ Nat.toDigits 16 c.toNat ++ ['\x7d']
  else [c]

/-- A text between quotes with everything unreadable escaped. -/
def inspect (s : String) : String :=
  String.ofList ('"' :: s.toList.flatMap inspectChar ++ ['"'])

/-- A double in messages: positional, with a fraction digit. -/
def doubleStyle : Decimal.Style where
  positional _ := true
  pointZero := true
  tie := .up
  notANumber := "NaN"
  infinity := "inf"

end FlowMetering.Text
