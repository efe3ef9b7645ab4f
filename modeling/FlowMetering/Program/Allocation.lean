import FlowMetering.Expression.Expansion
import FlowMetering.Program
import FlowMetering.Typed

/-!
Allocation of registers. The nodes of all expressions are visited in order, arguments first. A node gets the
register of an earlier node with the same key and a new register otherwise, so equal expressions share one.
The raw input has no register.
-/

namespace FlowMetering

/-- An exported register. -/
structure Export where
  register : Nat
  name : String
  declared : Option Element
  position : Nat

/-- The registers allocated so far. `registers` tells the register of each signature. -/
structure Allocation (σ : Type) where
  nodes : List (Node σ)
  registers : List (String × Nat)
  exports : List Export
  controls : List Nat

namespace Allocation

variable {σ φ : Type}

def empty : Allocation σ := ⟨[], [], [], []⟩

/-- The text of an argument in keys. -/
def argumentKey : Argument → String
  | .raw => "raw"
  | .register r => "r" ++ toString r

/-- The register of a node: that of an earlier node with its key, or a new one. -/
def place (a : Allocation σ) (node : Node σ) : Allocation σ × Nat :=
  match a.nodes.findIdx? (·.key == node.key) with
  | some r => (a, r)
  | none => ({ a with nodes := a.nodes ++ [node] }, a.nodes.length)

/-- Notes the register of a signature; the first one stays. -/
def note (a : Allocation σ) (signature : String) (r : Nat) : Allocation σ :=
  if a.registers.any (·.1 == signature) then a
  else { a with registers := a.registers ++ [(signature, r)] }

/-- The node of a constant. -/
def constantNode (position : Nat) (value : Value) : Node σ where
  name := value.display
  signature := value.display
  key := Typed.constantKey value
  kind := .constant
  args := []
  constant := some value
  entry := none
  isControl := false
  exported := none
  type := .fixed (.unregistered value.display value.naturalType)
  position := position

/-- The node of a call. -/
def callNode (position : Nat) (typing : Typing σ) (text : String) (args : List Argument) : Node σ where
  name := typing.binding.name
  signature := text
  key := Typed.callKey typing.binding.chosen (args.map argumentKey)
  kind := typing.binding.kind
  args := args
  constant := none
  entry := some typing.binding.chosen
  isControl := false
  exported := none
  type := typing.type
  position := position

/-- The node of a control. -/
def controlNode (position : Nat) (control : Registered σ) : Node σ where
  name := control.entry.name
  signature := control.entry.name
  key := "ctl:" ++ control.entry.name
  kind := .control
  args := [.raw]
  constant := none
  entry := some control
  isControl := true
  exported := none
  type := .untyped
  position := position

mutual
/-- Allocates an expression and tells how its users refer to it. -/
def addTree (position : Nat) : Typed σ → Allocation σ → Allocation σ × Argument
  | .raw _, a => (a, .raw)
  | .constant value, a =>
    let (a, r) := a.place (constantNode position value)
    (a.note (Typed.constantKey value) r, .register r)
  | .call typing args, a =>
    let (a, references) := addTrees position args a
    let (a, r) := a.place (callNode position typing (Typed.text (.call typing args)) references)
    (a.note typing.signature r, .register r)
termination_by structural tree => tree

def addTrees (position : Nat) : List (Typed σ) → Allocation σ → Allocation σ × List Argument
  | [], a => (a, [])
  | tree :: trees, a =>
    let (a, reference) := addTree position tree a
    let (a, references) := addTrees position trees a
    (a, reference :: references)
termination_by structural trees => trees
end

/-- Marks a register as exported; no register is exported twice. -/
def addExport (a : Allocation σ) (e : Export) : Except CompileError (Allocation σ) :=
  match a.nodes[e.register]? with
  | some node =>
    if node.exported.isSome then .error ⟨e.position, e.name, .duplicateExport⟩
    else .ok { a with
      nodes := a.nodes.set e.register { node with exported := some e.name }
      exports := a.exports ++ [e] }
  | none => .ok a

/-- Allocates a field and exports its register. A field that is the bare raw input has none. -/
def addField (a : Allocation σ) (position : Nat) (field : Field (Typed σ)) :
    Except CompileError (Allocation σ) :=
  let (a, reference) := addTree position field.tree a
  match reference with
  | .register r => a.addExport ⟨r, field.name, field.declared, position⟩
  | .raw => .ok a

/-- Allocates a control. -/
def addControl (a : Allocation σ) (position : Nat) (control : Registered σ) : Allocation σ :=
  let node := controlNode position control
  if a.nodes.any (·.key == node.key) then a
  else { a with nodes := a.nodes ++ [node], controls := a.controls ++ [a.nodes.length] }

/-- Allocates all fields, then all controls. -/
def ofFields (fields : List (Field (Typed σ))) (controls : List (Registered σ)) :
    Except CompileError (Allocation σ) := do
  let a ← fields.zipIdx.foldlM (fun a (field, i) => a.addField (i + 1) field) empty
  return controls.zipIdx.foldl (fun a (control, i) => a.addControl (i + 1) control) a

/-- An export as templates see it. -/
def slot (a : Allocation σ) (e : Export) : TemplateTree.Slot :=
  match a.nodes[e.register]? with
  | some node => ⟨e.name, node.name, e.declared, node.type, e.position⟩
  | none => ⟨e.name, "", e.declared, .untyped, e.position⟩

/-- The register that makes the choice of a source. Every source is the signature of an allocated node. -/
def registerOf (a : Allocation σ) (source : String) : Nat :=
  match a.registers.find? (·.1 == source) with
  | some (_, r) => r
  | none => 0

/-- The program over the allocated registers. -/
def program (a : Allocation σ) (limit : Nat) (filters : List (String × φ)) :
    Except CompileError (Program σ φ) := do
  let template ← TemplateTree.ofSlots limit a.registerOf (a.exports.map a.slot)
  return {
    nodes := a.nodes
    controls := a.controls
    exports := a.exports.map (·.register)
    fields := a.exports.map (·.name)
    template := template
    filters := filters }

end Allocation

end FlowMetering
