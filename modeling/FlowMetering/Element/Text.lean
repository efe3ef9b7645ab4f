import FlowMetering.Element
import FlowMetering.Json.Record

/-!
Elements in JSON.
-/

namespace FlowMetering

open Json (Document)

/-- A type is named by a text, or by the only key of an object with the value null. -/
def FieldType.ofDocument? : Document → Option FieldType
  | .string (some name) => FieldType.ofName? name
  | .object [(some name, .null)] => FieldType.ofName? name
  | _ => none

namespace Element

def fieldNames : List String := ["name", "field_type", "id", "pen"]

/-- The JSON form; the number and the enterprise are left out where there are none. -/
def toJson (e : Element) : Json :=
  let id := e.id.toList.map fun id => ("id", Json.number (.natural id.toNat.toUInt64))
  let enterprise := e.enterprise.toList.map fun n => ("pen", Json.number (.natural n.toNat.toUInt64))
  .object ([("name", .string e.name), ("field_type", .string e.type.name)] ++ id ++ enterprise)

/-- Reads the JSON form. -/
def ofDocument? (document : Document) : Option Element := do
  let fields ← document.fields? fieldNames 2
  match fields with
  | [name, type, id, enterprise] =>
    let name ← (← name).string?
    let type ← FieldType.ofDocument? (← type)
    let id ← Document.optional (Document.whole? 0 65535) id
    let enterprise ← Document.optional (Document.whole? 0 4294967295) enterprise
    return ⟨name, type, id.map (·.toNat.toUInt16), enterprise.map (·.toNat.toUInt32)⟩
  | _ => none

def parse? (text : String) : Option Element := do
  ofDocument? (← Document.parse? text)

end Element

end FlowMetering
