import FlowMetering.Value

/-!
Operators on values and on types. Whole-number arithmetic is exact or has no result; with a double on either
side it is done in doubles.
-/

namespace FlowMetering.Library

inductive Operator where
  | add
  | subtract
  | multiply
  | divide
  | less
  | greater
  | equal
  deriving DecidableEq, Repr

/-- Arithmetic on two values. Two unsigned numbers give an unsigned one; otherwise the result is signed. -/
def arithmetic (whole : Int → Int → Int) (float : Float → Float → Float) : Value → Value → Option Value
  | .unsigned a, .unsigned b =>
    (Word.unsigned? (whole a.toNat b.toNat)).map .unsigned
  | a, b =>
    match a.whole?, b.whole? with
    | some x, some y => (Word.signed? (whole x y)).map .signed
    | _, _ =>
      if a.isNumeric && b.isNumeric then
        match a.asFloat, b.asFloat with
        | some x, some y => some (.float (float x y))
        | _, _ => none
      else none

/-- The quotient of two numbers or truth values as a double. -/
def quotient (a b : Value) : Option Value :=
  match b.asFloat with
  | some y =>
    if y == 0.0 then none
    else match a.asFloat with
      | some x => some (.float (x / y))
      | none => none
  | none => none

/-- Whether two values stand in a given order; no result where they cannot be compared. -/
def ordered (order : Ordering) (a b : Value) : Option Value :=
  (a.compare b).map fun found => .boolean (found == order)

namespace Operator

def apply : Operator → Value → Value → Option Value
  | .add => arithmetic (· + ·) (· + ·)
  | .subtract => arithmetic (· - ·) (· - ·)
  | .multiply => arithmetic (· * ·) (· * ·)
  | .divide => quotient
  | .less => ordered .lt
  | .greater => ordered .gt
  | .equal => ordered .eq

/-- Folds the operation over the arguments from the left; no result as soon as one is missing. -/
def evaluate (op : Operator) : List (Option Value) → Option Value
  | [] => none
  | first :: rest => do
    rest.foldlM (fun result arg => do op.apply result (← arg)) (← first)

end Operator

/-- The common type of all arguments, 64 bits wide. -/
def commonType : List FieldType → Option FieldType
  | [] => none
  | first :: rest => do
    rest.foldlM FieldType.upconvert (← first.upconvert first)

/-- Two numbers divide into a double. -/
def quotientType : List FieldType → Option FieldType
  | [a, b] => if a.isNumeric && b.isNumeric then some .float64 else none
  | _ => none

/-- Numbers compare with each other, other values with values of their type. -/
def comparisonType : List FieldType → Option FieldType
  | [a, b] => if (a.isNumeric && b.isNumeric) || a == b then some .boolean else none
  | _ => none

namespace Operator

def resolve : Operator → List FieldType → Option FieldType
  | .add | .subtract | .multiply => commonType
  | .divide => quotientType
  | .less | .greater | .equal => comparisonType

def name : Operator → String
  | .add => "add"
  | .subtract => "subtract"
  | .multiply => "multiply"
  | .divide => "divide"
  | .less => "less"
  | .greater => "greater"
  | .equal => "equal"

/-- Sums and products take two arguments or more. -/
def isVariadic : Operator → Bool
  | .add | .multiply => true
  | _ => false

end Operator

end FlowMetering.Library
