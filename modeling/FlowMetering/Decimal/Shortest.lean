/-!
The shortest decimal that reads back as a given double.

A positive double is `significand * 2 ^ exponent`, and every real between its two rounding bounds reads back
as it; the bounds themselves do so exactly when the significand is even. `shortest` tries decimal grids from
coarse to fine. On each grid only the two neighbours of the double need a look, because a grid point between
the bounds puts one of them there too. The first grid with a hit gives the fewest digits; of two hits the
nearer is taken.
-/

namespace FlowMetering

/-- The positive decimal `digits * 10 ^ exponent`. -/
structure Decimal where
  digits : Nat
  exponent : Int
  deriving Repr, DecidableEq

/-- Which of two equally near decimals is taken. -/
inductive Decimal.Tie where
  | toEven
  | up
  deriving Repr, DecidableEq

/-- A positive double. `narrow` holds for the least significand of a binade, whose lower neighbour is half as
far away as its upper one. -/
structure Binary where
  significand : Nat
  exponent : Int
  narrow : Bool
  deriving Repr, DecidableEq

/-- The bit above all fields of a double, which holds the sign. -/
def Binary.signBit : Nat := 0x8000000000000000

/-- The bit above the fraction of a double: the lowest of the exponent field, and the leading bit that the
fraction leaves out. -/
def Binary.leadingBit : Nat := 0x10000000000000

/-- Reads the fraction and exponent fields of a finite double without its sign. -/
def Binary.ofBits (bits : Nat) : Binary :=
  let fraction := bits % Binary.leadingBit
  let field := bits / Binary.leadingBit
  if field = 0 then ⟨fraction, -1074, false⟩
  else ⟨Binary.leadingBit + fraction, (field : Int) - 1075, fraction = 0 && field != 1⟩

/-- A value and its rounding bounds over one denominator. -/
structure Interval where
  lower : Nat
  value : Nat
  upper : Nat
  denominator : Nat
  closed : Bool

/-- The reals that read back as a double: half a unit to either side, a quarter below a narrow one. -/
def Binary.interval (x : Binary) : Interval :=
  let scale := Nat.pow 2 (x.exponent - 2).toNat
  { lower := (4 * x.significand - if x.narrow then 1 else 2) * scale
    value := 4 * x.significand * scale
    upper := (4 * x.significand + 2) * scale
    denominator := Nat.pow 2 (2 - x.exponent).toNat
    closed := x.significand % 2 = 0 }

/-- The interval measured in units of `10 ^ grid`. -/
def Interval.onGrid (i : Interval) (grid : Int) : Interval :=
  let scale := Nat.pow 10 (-grid).toNat
  { lower := i.lower * scale
    value := i.value * scale
    upper := i.upper * scale
    denominator := i.denominator * Nat.pow 10 grid.toNat
    closed := i.closed }

/-- Whether the whole number `n` reads back as the value. -/
def Interval.holds (i : Interval) (n : Nat) : Bool :=
  let point := n * i.denominator
  if i.closed then i.lower ≤ point && point ≤ i.upper else i.lower < point && point < i.upper

/-- The nearest whole number that reads back as the value, if one does. -/
def Interval.whole? (i : Interval) (tie : Decimal.Tie) : Option Nat :=
  let below := i.value / i.denominator
  let above := below + 1
  match i.holds below, i.holds above with
  | false, false => none
  | true, false => some below
  | false, true => some above
  | true, true =>
    match compare (i.value - below * i.denominator) (above * i.denominator - i.value) with
    | .lt => some below
    | .gt => some above
    | .eq => match tie with
      | .up => some above
      | .toEven => some (if below % 2 = 0 then below else above)

/-- Drops the zeros at the end of the digits. -/
def Decimal.trimmed (d : Decimal) : Decimal :=
  if h : d.digits ≠ 0 ∧ d.digits % 10 = 0 then
    Decimal.trimmed ⟨d.digits / 10, d.exponent + 1⟩
  else d
termination_by d.digits
decreasing_by exact Nat.div_lt_self (Nat.pos_of_ne_zero h.1) (by omega)

/-- How many decimal digits a number has. -/
def digitCount (n : Nat) : Nat :=
  (Nat.toDigits 10 n).length

/-- A grid that is at least as coarse as the leading digit of the value. -/
def Interval.coarsest (i : Interval) : Int :=
  if i.denominator ≤ i.value then (digitCount (i.value / i.denominator) : Int)
  else 1 - (digitCount (i.denominator / i.value) : Int)

/-- Walks the grids from coarse to fine. -/
def Interval.search (i : Interval) (tie : Decimal.Tie) : Nat → Int → Decimal
  | 0, grid => ⟨(i.onGrid grid).value / (i.onGrid grid).denominator, grid⟩
  | steps + 1, grid =>
    match (i.onGrid grid).whole? tie with
    | some n => ⟨n, grid⟩
    | none => i.search tie steps (grid - 1)

/-- The decimal of fewest digits that reads back as `x`. Seventeen digits always do. -/
def shortest (tie : Decimal.Tie) (x : Binary) : Decimal :=
  (x.interval.search tie 19 x.interval.coarsest).trimmed

end FlowMetering
