import FlowMetering.FieldType

/-!
Elements: the description of one exported field.
-/

namespace FlowMetering

/-- The name and type of a field, with its registered number and the enterprise that registered it. -/
structure Element where
  name : String
  type : FieldType
  id : Option UInt16
  enterprise : Option UInt32
  deriving DecidableEq, Repr

namespace Element

/-- An element that is not registered. -/
def unregistered (name : String) (type : FieldType) : Element :=
  ⟨name, type, none, none⟩

/-- An element with a registered number. -/
def registered (name : String) (id : UInt16) (type : FieldType) : Element :=
  ⟨name, type, some id, none⟩

/-- An unregistered element of the same type under another name. -/
def renamed (e : Element) (name : String) : Element :=
  unregistered name e.type

def display (e : Element) : String :=
  match e.id with
  | some id => e.name ++ "(" ++ toString id.toNat ++ "<" ++ e.type.name ++ ">)"
  | none => e.name ++ "<" ++ e.type.name ++ ">"

end Element

end FlowMetering
