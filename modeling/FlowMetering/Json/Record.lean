import FlowMetering.Json.Document

/-!
Structures in JSON. A structure is an object, whose unknown members are passed over unread and whose known
members come at most once, or an array of the fields in their order.
-/

namespace FlowMetering.Json.Document

/-- Collects the members of known names; `none` when a known name comes twice. -/
def pick (names : List String) : List (Option String × Document) → List (Option Document) →
    Option (List (Option Document))
  | [], found => some found
  | (key, value) :: members, found => do
    let key ← key
    match names.idxOf? key with
    | none => pick names members found
    | some i => if (found[i]?.getD none).isSome then none else pick names members (found.set i (some value))

/-- The fields of a structure by their names. An array gives the first `least` fields at least. -/
def fields? (names : List String) (least : Nat) : Document → Option (List (Option Document))
  | .object members => pick names members (names.map fun _ => none)
  | .array items =>
    if least ≤ items.length ∧ items.length ≤ names.length then
      some (items.map some ++ List.replicate (names.length - items.length) none)
    else none
  | _ => none

def boolean? : Document → Option Bool
  | .boolean b => some b
  | _ => none

def string? : Document → Option String
  | .string s => s
  | _ => none

/-- A whole number with `low ≤ n ≤ high`. -/
def whole? (low high : Int) : Document → Option Int
  | .number n =>
    let value : Option Int := match n.number? with
      | some (.natural n) => some n.toNat
      | some (.negative n) => some n.toInt
      | _ => none
    value.filter fun n => low ≤ n ∧ n ≤ high
  | _ => none

/-- A field that may be absent or null. The outer option fails when the field is there and cannot be read. -/
def optional (read : Document → Option α) : Option Document → Option (Option α)
  | none | some .null => some none
  | some document => (read document).map some

end FlowMetering.Json.Document
