import FlowMetering.Catalog
import FlowMetering.Template
import FlowMetering.Value

/-!
Programs: flat data flow over registers. The arguments of a register have smaller numbers than the register
itself, so that values flow in one direction.
-/

namespace FlowMetering

/-- What a register reads: the raw input or another register. -/
inductive Argument where
  | raw
  | register (r : Nat)
  deriving DecidableEq, Repr

/-- One register of a program. A constant has its value and no entry; every other register has the entry of
its feature. -/
structure Node (σ : Type) where
  name : String
  signature : String
  key : String
  kind : Kind
  args : List Argument
  constant : Option Value
  entry : Option (Registered σ)
  isControl : Bool
  exported : Option String
  type : TypeTree
  position : Nat

namespace Node

variable {σ : Type}

/-- How the instances of the register's feature are built. -/
def build? (n : Node σ) : Option (Kind → σ) :=
  n.entry.bind (·.entry.build)

/-- Whether the register reads the raw input. -/
def consumesRaw (n : Node σ) : Bool :=
  n.args.contains .raw

/-- The registers that the register reads, in the order of its arguments. -/
def arguments (n : Node σ) : List Nat :=
  n.args.filterMap fun
    | .register r => some r
    | .raw => none

end Node

/-- A compiled program. Controls and exports are lists of registers; fields are the names of the exports. -/
structure Program (σ φ : Type) where
  nodes : List (Node σ)
  controls : List Nat
  exports : List Nat
  fields : List String
  template : TemplateTree
  filters : List (String × φ)

namespace Program

variable {σ φ : Type}

/-- How many registers there are. -/
def size (p : Program σ φ) : Nat :=
  p.nodes.length

def node? (p : Program σ φ) (r : Nat) : Option (Node σ) :=
  p.nodes[r]?

def isConstant (p : Program σ φ) (r : Nat) : Bool :=
  match p.node? r with
  | some node => node.constant.isSome
  | none => false

/-- The arguments of a register, raw input included. -/
def args (p : Program σ φ) (r : Nat) : List Argument :=
  match p.node? r with
  | some node => node.args
  | none => []

/-- The registers that a register reads, in the order of its arguments. -/
def arguments (p : Program σ φ) (r : Nat) : List Nat :=
  match p.node? r with
  | some node => node.arguments
  | none => []

/-- The registers that read a register. Constants never change, so nobody waits for them. -/
def dependents (p : Program σ φ) (r : Nat) : List Nat :=
  if p.isConstant r then []
  else (List.range p.size).filter fun d => (p.arguments d).contains r

/-- Whether a register runs once for each packet although it reads only constants. -/
def isClocked (p : Program σ φ) (node : Node σ) : Bool :=
  node.kind == .packetFeature && node.constant.isNone && !node.args.isEmpty
    && node.args.all fun
      | .register r => p.isConstant r
      | .raw => false

/-- The registers that are called for each packet, controls apart. -/
def events (p : Program σ φ) : List Nat :=
  (List.range p.size).filter fun r =>
    match p.node? r with
    | some node => !node.isControl && (node.consumesRaw || p.isClocked node)
    | none => false

/-- The registers whose variants the template depends on. -/
def variants (p : Program σ φ) : List Nat :=
  p.template.registers

/-- The register that is exported under a name. -/
def exportRegister? (p : Program σ φ) (name : String) : Option Nat :=
  p.exports.find? fun r =>
    match p.node? r with
    | some node => node.exported == some name
    | none => false

end Program

end FlowMetering
