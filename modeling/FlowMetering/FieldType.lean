/-!
The data types of exported fields.
-/

namespace FlowMetering

inductive FieldType where
  | unsigned8
  | unsigned16
  | unsigned32
  | unsigned64
  | signed8
  | signed16
  | signed32
  | signed64
  | float32
  | float64
  | boolean
  | macAddress
  | octetArray
  | string
  | dateTimeSeconds
  | dateTimeMilliseconds
  | dateTimeMicroseconds
  | dateTimeNanoseconds
  | ipv4Address
  | ipv6Address
  deriving DecidableEq, Repr

namespace FieldType

def name : FieldType → String
  | .unsigned8 => "unsigned8"
  | .unsigned16 => "unsigned16"
  | .unsigned32 => "unsigned32"
  | .unsigned64 => "unsigned64"
  | .signed8 => "signed8"
  | .signed16 => "signed16"
  | .signed32 => "signed32"
  | .signed64 => "signed64"
  | .float32 => "float32"
  | .float64 => "float64"
  | .boolean => "boolean"
  | .macAddress => "macAddress"
  | .octetArray => "octetArray"
  | .string => "string"
  | .dateTimeSeconds => "dateTimeSeconds"
  | .dateTimeMilliseconds => "dateTimeMilliseconds"
  | .dateTimeMicroseconds => "dateTimeMicroseconds"
  | .dateTimeNanoseconds => "dateTimeNanoseconds"
  | .ipv4Address => "ipv4Address"
  | .ipv6Address => "ipv6Address"

def all : List FieldType :=
  [.unsigned8, .unsigned16, .unsigned32, .unsigned64, .signed8, .signed16, .signed32, .signed64, .float32,
   .float64, .boolean, .macAddress, .octetArray, .string, .dateTimeSeconds, .dateTimeMilliseconds,
   .dateTimeMicroseconds, .dateTimeNanoseconds, .ipv4Address, .ipv6Address]

/-- The type of a given name. -/
def ofName? (name : String) : Option FieldType :=
  all.find? (·.name == name)

theorem ofName?_name (type : FieldType) : ofName? type.name = some type := by
  cases type <;> rfl

def isUnsigned : FieldType → Bool
  | .unsigned8 | .unsigned16 | .unsigned32 | .unsigned64 => true
  | _ => false

/-- Times are counted in signed whole numbers. -/
def isSigned : FieldType → Bool
  | .signed8 | .signed16 | .signed32 | .signed64 => true
  | .dateTimeSeconds | .dateTimeMilliseconds | .dateTimeMicroseconds | .dateTimeNanoseconds => true
  | _ => false

def isFloat : FieldType → Bool
  | .float32 | .float64 => true
  | _ => false

/-- Whether there is arithmetic on values of the type. -/
def isNumeric (type : FieldType) : Bool :=
  type.isUnsigned || type.isSigned || type.isFloat

/-- The common type of two numeric types: a double if one of them is floating, else a whole number of 64 bits,
unsigned only if both are. -/
def upconvert (a b : FieldType) : Option FieldType :=
  if !a.isNumeric || !b.isNumeric then none
  else if a.isFloat || b.isFloat then some .float64
  else if a.isUnsigned && b.isUnsigned then some .unsigned64
  else some .signed64

end FieldType

end FlowMetering
