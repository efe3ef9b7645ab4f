import FlowMetering.Catalog
import FlowMetering.Expression

/-!
Expressions whose calls are bound to catalog entries. Binding works from the kind that the context asks for:
the entries that may give it are tried in the order of the catalog, and the first one all of whose arguments
can be bound is taken.
-/

namespace FlowMetering

/-- The entry taken for a call and the kind that the call gives. -/
structure Binding (σ : Type) where
  chosen : Registered σ
  kind : Kind

def Binding.name {σ : Type} (b : Binding σ) : String :=
  b.chosen.entry.name

/-- A raw input is marked with the kind of input that is asked for. -/
abbrev Bound (σ : Type) := Tree Kind (Binding σ)

namespace Bound

variable {σ φ : Type}

/-- The signature that people read. -/
def text (b : Bound σ) : String :=
  b.render Binding.name

/-- The kind that an expression gives. -/
def kind : Bound σ → Kind
  | .raw kind => kind
  | .constant _ => .constant
  | .call binding _ => binding.kind

/-- The first success in a list of attempts, or the errors of all of them. -/
def firstOk {α β ε : Type} (attempt : α → Except ε β) : List α → Except (List ε) β
  | [] => .error []
  | a :: as =>
    match attempt a with
    | .ok b => .ok b
    | .error e =>
      match firstOk attempt as with
      | .ok b => .ok b
      | .error es => .error (e :: es)

/-- The problems without repetition, in the order in which they first occur. -/
def distinct (problems : List Problem) : List Problem :=
  problems.foldl (fun found p => if found.contains p then found else found ++ [p]) []

/-- What the failures of all candidates of a call amount to: the failure they share, or else a mismatch that
lists them. -/
def joinProblems (name : String) (problems : List Problem) : Problem :=
  match distinct problems with
  | [only] => only
  | several => ⟨name, .typeMismatch (" or ".intercalate (several.map Problem.summary))⟩

/-- The kind that an argument has to give where the entry asks for `declared` and the context of the call for
`required`. -/
def argumentKind (required declared : Kind) : Kind :=
  if declared = .matchType then required else declared

/-- Why no entry can be tried. -/
def noCandidate (catalog : Catalog σ φ) (name : String) (required : Kind) (count : Nat) : Problem :=
  if catalog.contains name then
    ⟨name, .typeMismatch
      ("no overload returns " ++ required.name ++ " with " ++ toString count ++ " argument(s)")⟩
  else ⟨name, .unknownFeature⟩

mutual
/-- Binds an expression where `required` is asked for. -/
def ofExpression (catalog : Catalog σ φ) (required : Kind) : Expression → Except Problem (Bound σ)
  | .raw _ =>
    if required.isRaw then .ok (.raw required)
    else .error ⟨"<raw>", .typeMismatch ("raw input cannot be used as " ++ required.name)⟩
  | .constant value =>
    if required.acceptsConstant then .ok (.constant value)
    else .error ⟨value.display, .typeMismatch ("constant cannot be used as " ++ required.name)⟩
  | .call name args =>
    match catalog.find name required args.length with
    | [] => .error (noCandidate catalog name required args.length)
    | candidates =>
      let attempt (candidate : Registered σ) : Except Problem (Bound σ) :=
        let kinds := (candidate.entry.argumentKinds args.length).getD []
        (ofExpressions catalog (kinds.map (argumentKind required)) args).map (.call ⟨candidate, required⟩)
      match firstOk attempt candidates with
      | .ok bound => .ok bound
      | .error problems => .error (joinProblems name problems)
termination_by structural e => e

/-- Binds arguments from left to right, each where its kind is asked for. -/
def ofExpressions (catalog : Catalog σ φ) (kinds : List Kind) : List Expression → Except Problem (List (Bound σ))
  | [] => .ok []
  | arg :: args =>
    match kinds with
    | [] => .ok []
    | kind :: kinds => do
      let arg ← ofExpression catalog kind arg
      let args ← ofExpressions catalog kinds args
      return arg :: args
termination_by structural args => args
end

end Bound

end FlowMetering
