import FlowMetering.Address
import FlowMetering.Json.Document
import FlowMetering.FieldType
import FlowMetering.Word

/-!
The values that pass between registers. Whole numbers of both signs and doubles compare with each other; any
other value compares with its own sort only.
-/

namespace FlowMetering

inductive Value where
  | boolean (b : Bool)
  | signed (n : Int64)
  | unsigned (n : UInt64)
  | float (x : Float)
  | address (a : Address)
  | bytes (octets : List UInt8)
  | text (s : String)

namespace Value

/-- Equality of values of one sort. On doubles it is the comparison of their values: not-a-number differs from
itself, and the two zeros are equal. -/
def equals : Value → Value → Bool
  | .boolean a, .boolean b => a == b
  | .signed a, .signed b => a == b
  | .unsigned a, .unsigned b => a == b
  | .float a, .float b => a == b
  | .address a, .address b => a == b
  | .bytes a, .bytes b => a == b
  | .text a, .text b => a == b
  | _, _ => false

def isNumeric : Value → Bool
  | .signed _ | .unsigned _ | .float _ => true
  | _ => false

/-- The double nearest to a whole number, a half going to the even neighbour. -/
def floatOfInt64 (n : Int64) : Float :=
  if n.toInt < 0 then -n.toInt.natAbs.toUInt64.toFloat else n.toInt.natAbs.toUInt64.toFloat

/-- A number as a double; truth values count as zero and one. -/
def asFloat : Value → Option Float
  | .signed n => some (floatOfInt64 n)
  | .unsigned n => some n.toFloat
  | .float x => some x
  | .boolean b => some (if b then 1.0 else 0.0)
  | _ => none

/-- The whole number that a value denotes. -/
def whole? : Value → Option Int
  | .signed n => some n.toInt
  | .unsigned n => some n.toNat
  | _ => none

/-- A whole number in the signed range. -/
def asInt64 (v : Value) : Option Int64 :=
  v.whole?.bind Word.signed?

/-- A whole number in the unsigned range. -/
def asUInt64 (v : Value) : Option UInt64 :=
  v.whole?.bind Word.unsigned?

/-- Zero, the empty value and `false` count as false. -/
def isTruthy : Value → Bool
  | .boolean b => b
  | .signed n => n != 0
  | .unsigned n => n != 0
  | .float x => x != 0.0
  | .address _ => true
  | .bytes octets => !octets.isEmpty
  | .text s => s != ""

/-- The field type of a constant. -/
def naturalType : Value → FieldType
  | .boolean _ => .boolean
  | .signed _ => .signed64
  | .unsigned _ => .unsigned64
  | .float _ => .float64
  | .address (.v4 _) => .ipv4Address
  | .address (.v6 _) => .ipv6Address
  | .bytes _ => .octetArray
  | .text _ => .string

/-- The order of two doubles, if neither is not-a-number. -/
def compareFloats (a b : Float) : Option Ordering :=
  if a < b then some .lt
  else if a == b then some .eq
  else if b < a then some .gt
  else none

/-- Sequences of octets in dictionary order. -/
def compareBytes : List UInt8 → List UInt8 → Ordering
  | [], [] => .eq
  | [], _ :: _ => .lt
  | _ :: _, [] => .gt
  | a :: as, b :: bs => (Ord.compare a b).then (compareBytes as bs)

/-- The order of two values. Whole numbers of different signedness compare as whole numbers where both are in
the signed range; all other mixed numbers compare as doubles. -/
def compare : Value → Value → Option Ordering
  | .unsigned a, .unsigned b => some (Ord.compare a b)
  | .signed a, .signed b => some (Ord.compare a.toInt b.toInt)
  | .boolean a, .boolean b => some (Ord.compare a b)
  | .address a, .address b => some (a.compare b)
  | .bytes a, .bytes b => some (compareBytes a b)
  | .text a, .text b => some (Ord.compare a b)
  | a, b =>
    if a.isNumeric && b.isNumeric then
      match a.asInt64, b.asInt64 with
      | some x, some y => some (Ord.compare x.toInt y.toInt)
      | _, _ =>
        match a.asFloat, b.asFloat with
        | some x, some y => compareFloats x y
        | _, _ => none
    else none

/-- In names doubles have neither an exponent nor a fraction of zero. -/
def doubleStyle : Decimal.Style where
  positional _ := true
  pointZero := false
  tie := .up
  notANumber := "NaN"
  infinity := "inf"

/-- The text of a value in names and signatures. -/
def display : Value → String
  | .boolean b => if b then "true" else "false"
  | .signed n => toString n.toInt
  | .unsigned n => toString n.toNat
  | .float x => doubleStyle.text x
  | .address a => a.text
  | .bytes octets => String.ofList (octets.flatMap fun octet => Json.hexPair octet.toNat)
  | .text s => s

/-- The JSON form: a bare scalar, or an array of octets. -/
def toJson : Value → Json
  | .boolean b => .boolean b
  | .signed n => .number (.ofInt64 n)
  | .unsigned n => .number (.natural n)
  | .float x => if x.isFinite then .number (.double x) else .null
  | .address a => .string a.text
  | .bytes octets => .array (octets.map fun octet => .number (.natural octet.toNat.toUInt64))
  | .text s => .string s

/-- A JSON number that is an octet. -/
def octetOfJson? : Json → Option UInt8
  | .number (.natural n) => if n.toNat < 256 then some n.toNat.toUInt8 else none
  | _ => none

/-- The value that a number denotes: a whole number is signed where it fits. -/
def ofNumber : Json.Number → Value
  | .natural n =>
    match Word.signed? n.toNat with
    | some m => .signed m
    | none => .unsigned n
  | .negative n => .signed n
  | .double x => .float x

/-- Reads the JSON form. A text that spells an address is one. -/
def ofJson? : Json → Option Value
  | .boolean b => some (.boolean b)
  | .number n => some (ofNumber n)
  | .string s =>
    match Address.parse? s with
    | some a => some (.address a)
    | none => some (.text s)
  | .array items => (items.mapM octetOfJson?).map .bytes
  | .null | .object _ => none

end Value

end FlowMetering
