/-!
What can be wrong with a specification that is well-formed JSON.
-/

namespace FlowMetering

/-- What is wrong with an expression. -/
inductive Fault where
  | unknownFeature
  | unknownControl
  | unknownFilter
  | typeMismatch (reason : String)
  | unresolvableVariant
  | tooManyVariants (combinations limit : Nat)
  | duplicateExport
  | unsupportedConstant
  | invalidExpression (reason : String)
  deriving DecidableEq, Repr

/-- A fault and the part of the expression in which it lies. -/
structure Problem where
  name : String
  fault : Fault
  deriving DecidableEq, Repr

/-- A problem and the number, counted from one, of the feature, control or filter that has it. -/
structure CompileError where
  position : Nat
  name : String
  fault : Fault
  deriving DecidableEq, Repr

/-- The word under which faults are counted. -/
def Fault.label : Fault → String
  | .unknownFeature => "unknown_feature"
  | .unknownControl => "unknown_control"
  | .unknownFilter => "unknown_filter"
  | .typeMismatch _ => "type_mismatch"
  | .unresolvableVariant => "unresolvable_variant"
  | .tooManyVariants _ _ => "too_many_variants"
  | .duplicateExport => "duplicate_export"
  | .unsupportedConstant => "unsupported_constant"
  | .invalidExpression _ => "invalid_expression"

/-- The section of the specification that a fault lies in. -/
def Fault.section : Fault → String
  | .unknownControl => "control"
  | .unknownFilter => "filter"
  | _ => "feature"

namespace Problem

def text (p : Problem) : String :=
  let quoted := "'" ++ p.name ++ "'"
  match p.fault with
  | .unknownFeature => "unknown feature " ++ quoted
  | .unknownControl => "unknown control feature " ++ quoted
  | .unknownFilter => "unknown filter " ++ quoted
  | .typeMismatch reason => "type mismatch in " ++ quoted ++ ": " ++ reason
  | .unresolvableVariant => "could not resolve types of " ++ quoted
  | .tooManyVariants combinations limit =>
    quoted ++ " needs " ++ toString combinations ++ " variant combinations (limit " ++ toString limit ++ ")"
  | .duplicateExport => "exporting feature twice not allowed: " ++ quoted
  | .unsupportedConstant => "unsupported constant " ++ p.name
  | .invalidExpression reason => "invalid expression " ++ quoted ++ ": " ++ reason

/-- The text of a problem as one reason among others. -/
def summary (p : Problem) : String :=
  match p.fault with
  | .typeMismatch reason => p.name ++ ": " ++ reason
  | _ => p.text

/-- A problem of the item at a position. -/
def located (p : Problem) (position : Nat) : CompileError :=
  ⟨position, p.name, p.fault⟩

end Problem

def CompileError.message (e : CompileError) : String :=
  e.fault.section ++ " #" ++ toString e.position ++ ": " ++ (Problem.mk e.name e.fault).text

end FlowMetering
