import FlowMetering.Arena
import FlowMetering.Bound
import FlowMetering.Expression.Expansion

/-!
Expressions in arenas: how they get there, how the composites in them are replaced, and how their nodes are
bound. Nodes that have been replaced stay in the arena, though nothing refers to them any longer.
-/

namespace FlowMetering.Arena

variable {σ φ : Type}

mutual
/-- Adds the nodes of an expression, arguments first. -/
def add (position : Nat) : Expression → Arena → Arena × Nat
  | .raw _, a => a.raw position
  | .constant value, a => a.constant value position
  | .call name args, a =>
    let (a, args) := addAll position args a
    a.call name args position
termination_by structural e => e

def addAll (position : Nat) : List Expression → Arena → Arena × List Nat
  | [], a => (a, [])
  | e :: es, a =>
    let (a, id) := add position e a
    let (a, ids) := addAll position es a
    (a, id :: ids)
termination_by structural es => es
end

/-- Whether a call on some nodes has no arguments of its own. -/
def implicitOnly (a : Arena) : List Nat → Bool
  | [] => true
  | [arg] => a.isRaw arg
  | _ => false

/-- Replaces the calls of composites at a node and `levels` below it by what `unfold` gives for them. -/
def expandWith (composite? : String → Option Composite)
    (unfold : Composite → Nat → Arena → Except Problem (Arena × Nat)) :
    Nat → Arena → Nat → Except Problem (Arena × Nat)
  | 0, a, id => .ok (a, id)
  | levels + 1, a, id =>
    match a.node? id with
    | some n =>
      match n.shape with
      | .call name args =>
        match composite? name with
        | some composite =>
          if a.implicitOnly args then unfold composite n.position a
          else .error ⟨name, .invalidExpression "composite features take no arguments"⟩
        | none => do
          let a ← a.eachArg (expandWith composite? unfold levels) id
          return (a, id)
      | _ => .ok (a, id)
    | none => .ok (a, id)

/-- Expands a node in which composites may stand for composites at most `depth` times. -/
def expand (composite? : String → Option Composite) : Nat → Arena → Nat → Except Problem (Arena × Nat)
  | 0, a, id =>
    expandWith composite?
      (fun composite _ _ => .error ⟨composite.name,
        .invalidExpression ("composite expansion nested deeper than " ++ toString Expression.maxExpansion)⟩)
      a.size a id
  | depth + 1, a, id =>
    expandWith composite?
      (fun composite position a => do
        let definition ← Expression.ofJson composite.definition
        let (a, id) := a.add position definition
        expand composite? depth a id)
      a.size a id

/-- Expands a feature and exports what it comes down to. A feature that is a composite lends it its name and
element. -/
def expandRoot (composite? : String → Option Composite) (a : Arena) (root : Nat) :
    Except Problem (Arena × Nat) := do
  let composite := match (a.node? root).map (·.shape) with
    | some (Shape.call name _) => composite? name
    | _ => none
  let (a, root) ← a.expand composite? Expression.maxExpansion root
  match composite with
  | some composite => return (a.setExport root composite.name composite.declared, root)
  | none => return (a.setExport root (a.render root) none, root)

def setKind (a : Arena) (id : Nat) (kind : Kind) : Arena :=
  a.modify id fun n => { n with mark := { n.mark with kind := some kind } }

/-- Notes the entry that a call has been bound to. -/
def setEntry (a : Arena) (id entry : Nat) (kind : Kind) : Arena :=
  a.modify id fun n => { n with mark := ⟨some kind, some entry⟩ }

/-- Forgets what has been found for the nodes at and below a node. -/
def unmark (a : Arena) (id : Nat) : Arena :=
  (a.postOrder id).foldl (fun a id => a.modify id fun n => { n with mark := {} }) a

/-- Takes some items in turn until one fails. -/
def untilError {α : Type} (step : Arena → α → Arena × Except Problem Unit) :
    Arena → List α → Arena × Except Problem Unit
  | a, [] => (a, .ok ())
  | a, item :: items =>
    match step a item with
    | (a, .ok ()) => untilError step a items
    | (a, .error problem) => (a, .error problem)

/-- Takes some items in turn until one succeeds, and undoes what each of the others has done. -/
def untilOk {α : Type} (step : Arena → α → Arena × Except Problem Unit) (undo : Arena → Arena) :
    Arena → List α → Arena × Except (List Problem) Unit
  | a, [] => (a, .error [])
  | a, item :: items =>
    match step a item with
    | (a, .ok ()) => (a, .ok ())
    | (a, .error problem) =>
      match untilOk step undo (undo a) items with
      | (a, .ok ()) => (a, .ok ())
      | (a, .error problems) => (a, .error (problem :: problems))

/-- Binds a call to an entry if its arguments can be bound where the entry asks for them. -/
def bindCandidate (step : Arena → Nat × Kind → Arena × Except Problem Unit) (id : Nat) (args : List Nat) (required : Kind)
    (a : Arena) (candidate : Registered σ) : Arena × Except Problem Unit :=
  let kinds := (candidate.entry.argumentKinds args.length).getD []
  match untilError step a (args.zip (kinds.map (Bound.argumentKind required))) with
  | (a, .ok ()) => (a.setEntry id candidate.id required, .ok ())
  | (a, .error problem) => (a, .error problem)

/-- Binds the nodes at and `levels` below a node where `required` is asked for. -/
def bindTo (catalog : Catalog σ φ) : Nat → Arena → Nat × Kind → Arena × Except Problem Unit
  | 0, a, _ => (a, .ok ())
  | levels + 1, a, (id, required) =>
    match a.node? id with
    | some n =>
      match n.shape with
      | .raw =>
        if required.isRaw then (a.setKind id required, .ok ())
        else (a, .error ⟨"<raw>", .typeMismatch ("raw input cannot be used as " ++ required.name)⟩)
      | .constant value =>
        if required.acceptsConstant then (a.setKind id .constant, .ok ())
        else (a, .error ⟨value.display, .typeMismatch ("constant cannot be used as " ++ required.name)⟩)
      | .call name args =>
        match catalog.find name required args.length with
        | [] => (a, .error (Bound.noCandidate catalog name required args.length))
        | candidates =>
          match untilOk (bindCandidate (bindTo catalog levels) id args required) (·.unmark id) a candidates with
          | (a, .ok ()) => (a, .ok ())
          | (a, .error problems) => (a, .error (Bound.joinProblems name problems))
    | none => (a, .ok ())

/-- Binds a feature. -/
def bindRoot (catalog : Catalog σ φ) (a : Arena) (root : Nat) : Except Problem (Arena × Nat) :=
  match bindTo catalog a.size a (root, .flowFeature) with
  | (a, .ok ()) => .ok (a, root)
  | (_, .error problem) => .error problem

/-- Binds a control. -/
def bindControl (catalog : Catalog σ φ) (a : Arena) (root : Nat) : Except Problem (Arena × Nat) :=
  let name := match a.node? root with
    | some n => n.name
    | none => ""
  match catalog.findControl name with
  | some control =>
    let a := (a.args root).foldl (fun a arg => a.setKind arg .rawPacket) a
    .ok (a.setEntry root control.id .control, root)
  | none => .error ⟨name, .unknownControl⟩

/-- The tree of bound calls at a node, if it goes at most `levels` deep and all its nodes are bound. -/
def treeTo? (catalog : Catalog σ φ) (a : Arena) : Nat → Nat → Option (Bound σ)
  | 0, _ => none
  | levels + 1, id => do
    let n ← a.node? id
    match n.shape with
    | .raw => return .raw (← n.mark.kind)
    | .constant value => return .constant value
    | .call _ args =>
      let i ← n.mark.entry
      let entry ← catalog.entries[i]?
      let kind ← n.mark.kind
      let args ← args.mapM (a.treeTo? catalog levels)
      return .call ⟨⟨i, entry⟩, kind⟩ args

/-- The tree of bound calls at a node. -/
def tree? (catalog : Catalog σ φ) (a : Arena) (id : Nat) : Option (Bound σ) :=
  a.treeTo? catalog a.size id

end FlowMetering.Arena
