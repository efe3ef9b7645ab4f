import FlowMetering.Catalog
import FlowMetering.Expression

/-!
Expansion of composites. A call of a composite is replaced by its definition, and what comes in is expanded in
turn. Composites may refer to each other in circles, so the depth of replacement is limited.
-/

namespace FlowMetering

namespace Expression

/-- How deep composites may stand for composites. -/
def maxExpansion : Nat := 64

/-- Whether a call has no arguments of its own. -/
def implicitOnly : List Expression → Bool
  | [] => true
  | [arg] => arg.isRaw
  | _ => false

mutual
/-- Replaces the calls of composites by what `unfold` gives for them, from left to right. -/
def expandWith (composite? : String → Option Composite) (unfold : Composite → Except Problem Expression) :
    Expression → Except Problem Expression
  | .call name args =>
    match composite? name with
    | some composite =>
      if implicitOnly args then unfold composite
      else .error ⟨name, .invalidExpression "composite features take no arguments"⟩
    | none => (expandAllWith composite? unfold args).map (.call name)
  | .raw mark => .ok (.raw mark)
  | .constant value => .ok (.constant value)
termination_by structural e => e

def expandAllWith (composite? : String → Option Composite) (unfold : Composite → Except Problem Expression) :
    List Expression → Except Problem (List Expression)
  | [] => .ok []
  | arg :: args => do
    let arg ← expandWith composite? unfold arg
    let args ← expandAllWith composite? unfold args
    return arg :: args
termination_by structural args => args
end

/-- Expands an expression in which composites may stand for composites at most `depth` times. -/
def expand (composite? : String → Option Composite) : Nat → Expression → Except Problem Expression
  | 0 => expandWith composite? fun composite =>
    .error ⟨composite.name,
      .invalidExpression ("composite expansion nested deeper than " ++ toString maxExpansion)⟩
  | depth + 1 => expandWith composite? fun composite => do
    let definition ← ofJson composite.definition
    expand composite? depth definition

end Expression

/-- An exported field: what it is called, the element declared for it, and its expression at some stage. -/
structure Field (τ : Type) where
  name : String
  declared : Option Element
  tree : τ

namespace Field

/-- The field of an expanded feature. A feature that is a composite lends the field its name and element;
otherwise the field is called after its expression. -/
def ofExpression (composite? : String → Option Composite) (e : Expression) : Except Problem (Field Expression) := do
  let expanded ← e.expand composite? Expression.maxExpansion
  let composite := match e with
    | .call name _ => composite? name
    | _ => none
  match composite with
  | some composite => return ⟨composite.name, composite.declared, expanded⟩
  | none => return ⟨expanded.text, none, expanded⟩

end Field

end FlowMetering
