import FlowMetering.Bound.Lowering
import FlowMetering.Program.Allocation
import FlowMetering.Specification

/-!
Compilation of specifications. Each stage goes through all features, then all controls, before the next stage
begins, so the problem reported is the first one of the earliest stage that has any: reading, expansion,
binding, typing, filters, sharing of exports, templates.
-/

namespace FlowMetering

namespace Specification

variable {σ φ : Type}

/-- Places a problem at the item that has it. -/
def located {α : Type} (position : Nat) : Except Problem α → Except CompileError α
  | .ok a => .ok a
  | .error problem => .error (problem.located position)

/-- Does a stage for each item, the items counted from one; the first problem is reported. -/
def stage {α β : Type} (step : α → Except Problem β) (items : List α) : Except CompileError (List β) :=
  items.zipIdx.mapM fun (item, i) => located (i + 1) (step item)

/-- The name of a control. -/
def controlName : Json → Except Problem String
  | .string name => .ok name
  | other => .error ⟨other.compact, .unknownControl⟩

def boundControl (catalog : Catalog σ φ) (name : String) : Except Problem (Registered σ) :=
  match catalog.findControl name with
  | some control => .ok control
  | none => .error ⟨name, .unknownControl⟩

def namedFilter (catalog : Catalog σ φ) (name : String) : Except Problem (String × φ) :=
  match catalog.filter? name with
  | some filter => .ok (name, filter)
  | none => .error ⟨name, .unknownFilter⟩

/-- Binds a field and carries out its substitutions. -/
def bindField (catalog : Catalog σ φ) (field : Field Expression) : Except Problem (Field (Bound σ)) := do
  let bound ← Bound.ofExpression catalog .flowFeature field.tree
  return ⟨field.name, field.declared, bound.withImplicitInputs.lower⟩

def typeField (limit : Nat) (field : Field (Bound σ)) : Except Problem (Field (Typed σ)) := do
  let typed ← Typed.ofBound limit field.tree
  return ⟨field.name, field.declared, typed⟩

/-- Compiles a specification over a catalog. No choice of types is tried where there are more than `limit`. -/
def compile (catalog : Catalog σ φ) (limit : Nat) (s : Specification) : Except CompileError (Program σ φ) := do
  let expressions ← stage Expression.ofJson s.features
  let names ← stage controlName s.control
  let expanded ← stage (Field.ofExpression catalog.composite?) expressions
  let bound ← stage (bindField catalog) expanded
  let controls ← stage (boundControl catalog) names
  let typed ← stage (typeField limit) bound
  let filters ← stage (namedFilter catalog) s.filter
  let allocation ← Allocation.ofFields typed controls
  allocation.program limit filters

end Specification

end FlowMetering
