import FlowMetering.Arena.Rewriting
import FlowMetering.Compilation

/-!
Forests: the features and controls of a specification in one arena, on the way from reading to lowering. The
features and controls have roots of their own, so that the rewriting of one leaves the others as they are.
-/

namespace FlowMetering

structure Forest where
  arena : Arena
  roots : List Nat
  controls : List Nat

namespace Forest

variable {σ φ α : Type}

open Specification (located stage controlName)

/-- Does something for each item, the items counted from `position`, and gives the roots that come of them. -/
def eachFrom (step : Nat → Arena → α → Except Problem (Arena × Nat)) :
    Nat → Arena → List α → Except CompileError (Arena × List Nat)
  | _, a, [] => .ok (a, [])
  | position, a, item :: items => do
    let (a, root) ← located position (step position a item)
    let (a, roots) ← eachFrom step (position + 1) a items
    return (a, root :: roots)

/-- Adds the expressions of features and of controls. A control is a call on the raw input. -/
def plant (expressions : List Expression) (names : List String) : Except CompileError Forest := do
  let (a, roots) ← eachFrom (fun position a e => .ok (a.add position e)) 1 .empty expressions
  let (a, controls) ← eachFrom (fun position a name => .ok (a.add position (.call name [.raw ()]))) 1 a names
  return ⟨a, roots, controls⟩

/-- Replaces the composites in features. -/
def expand (composite? : String → Option Composite) (f : Forest) : Except CompileError Forest := do
  let (a, roots) ← eachFrom (fun _ => Arena.expandRoot composite?) 1 f.arena f.roots
  return { f with arena := a, roots := roots }

/-- Binds the calls in features, then the controls. -/
def bind (catalog : Catalog σ φ) (f : Forest) : Except CompileError Forest := do
  let (a, roots) ← eachFrom (fun _ => Arena.bindRoot catalog) 1 f.arena f.roots
  let (a, controls) ← eachFrom (fun _ => Arena.bindControl catalog) 1 a f.controls
  return ⟨a, roots, controls⟩

/-- The bound forest of a specification. -/
def ofSpecification (catalog : Catalog σ φ) (s : Specification) : Except CompileError Forest := do
  let expressions ← stage Expression.ofJson s.features
  let names ← stage controlName s.control
  let planted ← plant expressions names
  let expanded ← planted.expand catalog.composite?
  expanded.bind catalog

/-- Adds the implicit inputs of features. -/
def addInputs (catalog : Catalog σ φ) (f : Forest) : Forest :=
  { f with arena := f.roots.foldl (Arena.addInputs catalog) f.arena }

/-- Lowers one feature. -/
def lowerRoot (catalog : Catalog σ φ) (f : Forest) (i : Nat) : Forest :=
  match f.roots[i]? with
  | some root =>
    let (a, lowered) := f.arena.lower catalog root
    { f with arena := a, roots := f.roots.set i lowered }
  | none => f

/-- Lowers the first features. -/
def lowerFirst (catalog : Catalog σ φ) (f : Forest) (count : Nat) : Forest :=
  (List.range count).foldl (lowerRoot catalog) f

/-- Lowers all features, one after another. -/
def lower (catalog : Catalog σ φ) (f : Forest) : Forest :=
  f.lowerFirst catalog f.roots.length

end Forest

end FlowMetering
