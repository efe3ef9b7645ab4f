import FlowMetering.Value

/-!
Expression trees. The stages of the compiler differ in what they know about a call and about a raw input, so
the tree is a type in both.
-/

namespace FlowMetering

/-- An expression: the raw input, a constant, or a call with its arguments. -/
inductive Tree (ρ ι : Type) where
  | raw (mark : ρ)
  | constant (value : Value)
  | call (head : ι) (args : List (Tree ρ ι))

namespace Tree

variable {ρ ι : Type}

def isRaw : Tree ρ ι → Bool
  | .raw _ => true
  | _ => false

mutual
/-- The signature that people read: a call shows its arguments, the raw input is left out. -/
def render (name : ι → String) : Tree ρ ι → String
  | .raw _ => ""
  | .constant value => value.display
  | .call head args =>
    match renderVisible name args with
    | [] => name head
    | shown => name head ++ "(" ++ ",".intercalate shown ++ ")"
termination_by structural tree => tree

/-- The arguments that show. -/
def renderVisible (name : ι → String) : List (Tree ρ ι) → List String
  | [] => []
  | .raw _ :: args => renderVisible name args
  | arg :: args => render name arg :: renderVisible name args
termination_by structural args => args
end

mutual
/-- Puts `input` in the place of every raw input below the root. What is put in is not searched again. -/
def withInput (tree : Tree ρ ι) (input : Tree ρ ι) : Tree ρ ι :=
  match tree with
  | .call head args => .call head (withInputs args input)
  | .raw mark => .raw mark
  | .constant value => .constant value
termination_by structural tree

def withInputs (args : List (Tree ρ ι)) (input : Tree ρ ι) : List (Tree ρ ι) :=
  match args with
  | [] => []
  | .raw _ :: rest => input :: withInputs rest input
  | arg :: rest => withInput arg input :: withInputs rest input
termination_by structural args
end

end Tree

end FlowMetering
