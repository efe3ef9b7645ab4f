import FlowMetering.Library.Operators

/-!
Aggregates that keep one of the values they are given, or their sum.
-/

namespace FlowMetering.Library

inductive Aggregate where
  | min
  | max
  | first
  | last
  | sum
  deriving DecidableEq, Repr

namespace Aggregate

def name : Aggregate → String
  | .min => "min"
  | .max => "max"
  | .first => "first"
  | .last => "last"
  | .sum => "sum"

/-- What is kept of the value kept so far and a further one. A sum that has no result leaves things as they
are. -/
def update (aggregate : Aggregate) (current value : Value) : Value :=
  match aggregate with
  | .min => if value.compare current = some .lt then value else current
  | .max => if value.compare current = some .gt then value else current
  | .first => current
  | .last => value
  | .sum => (Operator.add.apply current value).getD current

/-- What is kept after a further value. -/
def step (aggregate : Aggregate) (current : Option Value) (value : Value) : Option Value :=
  match current with
  | none => some value
  | some current => some (aggregate.update current value)

end Aggregate

/-- The type of the argument. -/
def argumentType (types : List FieldType) : Option FieldType :=
  types.head?

/-- The type of a sum of values of the argument's type. -/
def sumType (types : List FieldType) : Option FieldType :=
  types.head?.bind fun type => type.upconvert type

/-- A mean of numbers is a double. -/
def meanType (types : List FieldType) : Option FieldType :=
  (types.head?.filter FieldType.isNumeric).map fun _ => .float64

def Aggregate.resolve : Aggregate → List FieldType → Option FieldType
  | .sum => sumType
  | _ => argumentType

end FlowMetering.Library
