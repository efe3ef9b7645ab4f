import FlowMetering.CompileError
import FlowMetering.Tree

/-!
Expressions as they are written. A name alone is a call on the raw input, an array is a call of its first item
on the others, and a truth value or a number is a constant.
-/

namespace FlowMetering

abbrev Expression := Tree Unit String

namespace Expression

mutual
/-- Reads an expression; the leftmost problem is reported. -/
def ofJson : Json → Except Problem Expression
  | .string name =>
    if name = "" then .error ⟨Json.quote name, .invalidExpression "identifier must not be empty"⟩
    else .ok (.call name [.raw ()])
  | .array [] => .error ⟨"[]", .invalidExpression "call must not be empty"⟩
  | .array (head :: args) =>
    match head with
    | .string name => (ofJsons args).map (.call name)
    | head => .error ⟨head.compact, .invalidExpression "call name must be a string"⟩
  | .boolean b => .ok (.constant (.boolean b))
  | .number n => .ok (.constant (Value.ofNumber n))
  | .null => .error ⟨Json.compact .null, .unsupportedConstant⟩
  | .object members => .error ⟨Json.compact (.object members), .unsupportedConstant⟩
termination_by structural json => json

def ofJsons : List Json → Except Problem (List Expression)
  | [] => .ok []
  | json :: jsons => do
    let expression ← ofJson json
    let expressions ← ofJsons jsons
    return expression :: expressions
termination_by structural jsons => jsons
end

/-- The signature that people read. -/
def text (e : Expression) : String :=
  e.render id

end Expression

end FlowMetering
