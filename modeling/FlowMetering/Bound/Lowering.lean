import FlowMetering.Bound

/-!
Lowering of bound expressions. Entries that work on the input of the call get it as a further argument. Then
the substitutions are carried out: `apply(f, s)` becomes `f` with the selection `s` in the place of its raw
inputs.
-/

namespace FlowMetering.Bound

variable {σ : Type}

mutual
/-- Gives every call whose entry has an implicit input one more argument, the raw packets. -/
def withImplicitInputs : Bound σ → Bound σ
  | .call binding args =>
    let args := allWithImplicitInputs args
    .call binding (if binding.chosen.entry.implicitInput then args ++ [.raw .rawPacket] else args)
  | .raw kind => .raw kind
  | .constant value => .constant value
termination_by structural b => b

def allWithImplicitInputs : List (Bound σ) → List (Bound σ)
  | [] => []
  | arg :: args => withImplicitInputs arg :: allWithImplicitInputs args
termination_by structural args => args
end

mutual
/-- Carries out the substitutions from the leaves up. -/
def lower : Bound σ → Bound σ
  | .call binding args =>
    match binding.chosen.entry.build, lowerAll args with
    | none, [feature, selection] => Tree.withInput feature selection
    | _, args => .call binding args
  | .raw kind => .raw kind
  | .constant value => .constant value
termination_by structural b => b

def lowerAll : List (Bound σ) → List (Bound σ)
  | [] => []
  | arg :: args => lower arg :: lowerAll args
termination_by structural args => args
end

end FlowMetering.Bound
