import FlowMetering.Bound
import FlowMetering.TypeTree

/-!
Expressions with their types. Every call gets a signature, equal for equal calls, and the type tree of its
values. A call of an entry with several fixed types makes a choice at run time and is the source of its own
branching; a call of an entry that computes its type is typed under every choice of its arguments' sources.
-/

namespace FlowMetering

/-- A bound call with its signature and its type. -/
structure Typing (σ : Type) where
  binding : Binding σ
  signature : String
  type : TypeTree

abbrev Typed (σ : Type) := Tree Kind (Typing σ)

namespace Typed

variable {σ : Type}

/-- The key of a constant. -/
def constantKey (value : Value) : String :=
  "const:" ++ value.naturalType.name ++ ":" ++ value.display

/-- The signature under which equal expressions are known. -/
def signature : Typed σ → String
  | .raw _ => "raw"
  | .constant value => constantKey value
  | .call typing _ => typing.signature

def type : Typed σ → TypeTree
  | .raw _ => .untyped
  | .constant value => .fixed (.unregistered value.display value.naturalType)
  | .call typing _ => typing.type

/-- The signature that people read. -/
def text (t : Typed σ) : String :=
  t.render fun typing => typing.binding.name

/-- The name of an entry, its number, and what it is called on. -/
def callKey (chosen : Registered σ) (args : List String) : String :=
  chosen.entry.name ++ "#" ++ toString chosen.id ++ "(" ++ ",".intercalate args ++ ")"

/-- The field types of the arguments that have one. -/
def fieldTypes (leaves : List TypeTree) : List FieldType :=
  leaves.filterMap fun
    | .fixed element => some element.type
    | _ => none

/-- The type of a call under one choice. -/
def resolvedType (name : String) (resolve : List FieldType → Option FieldType) (leaves : List TypeTree) :
    TypeTree :=
  match resolve (fieldTypes leaves) with
  | some type => .fixed (.unregistered name type)
  | none => .dead

/-- The type of a call. -/
def callType (limit : Nat) (entry : Entry σ) (signature : String) (args : List TypeTree) :
    Except TypeTree.CombineError TypeTree :=
  match entry.output with
  | .untyped => .ok .untyped
  | .fixed element => .ok (.fixed element)
  | .variants elements => .ok (.variants signature (elements.map .fixed))
  | .resolved resolve => TypeTree.combine limit (resolvedType entry.name resolve) args

/-- The fault of a call that has no type. -/
def faultOf (limit : Nat) : TypeTree.CombineError → Fault
  | .tooMany combinations => .tooManyVariants combinations limit
  | .allDead => .unresolvableVariant

mutual
/-- Types an expression, the arguments of a call before the call. -/
def ofBound (limit : Nat) : Bound σ → Except Problem (Typed σ)
  | .raw kind => .ok (.raw kind)
  | .constant value => .ok (.constant value)
  | .call binding args => do
    let args ← ofBounds limit args
    let key := callKey binding.chosen (args.map signature)
    match callType limit binding.chosen.entry key (args.map type) with
    | .ok type => .ok (.call ⟨binding, key, type⟩ args)
    | .error error => .error ⟨text (.call ⟨binding, key, .dead⟩ args), faultOf limit error⟩
termination_by structural b => b

def ofBounds (limit : Nat) : List (Bound σ) → Except Problem (List (Typed σ))
  | [] => .ok []
  | arg :: args => do
    let arg ← ofBound limit arg
    let args ← ofBounds limit args
    return arg :: args
termination_by structural args => args
end

end Typed

end FlowMetering
