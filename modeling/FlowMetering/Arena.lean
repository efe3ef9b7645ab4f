import FlowMetering.Element
import FlowMetering.Kind
import FlowMetering.Value

/-!
Arenas: expressions under construction. Nodes are numbered in the order in which they are made, and calls refer
to their arguments by number, so that an argument can be exchanged in place and a node can be used twice.
-/

namespace FlowMetering

namespace Arena

inductive Shape where
  | raw
  | constant (value : Value)
  | call (name : String) (args : List Nat)

/-- What binding finds for a node: the kind that it gives and, for a call, the number of its entry. -/
structure Mark where
  kind : Option Kind := none
  entry : Option Nat := none

/-- A node, the number of the feature it belongs to, the name and element under which it is exported, and what
binding has found for it. -/
structure Node where
  shape : Shape
  position : Nat
  exported : Option (String × Option Element) := none
  mark : Mark := {}

namespace Node

/-- The name of a call; the text of any other node. -/
def name (n : Node) : String :=
  match n.shape with
  | .raw => "<raw>"
  | .constant value => value.display
  | .call name _ => name

def args (n : Node) : List Nat :=
  match n.shape with
  | .call _ args => args
  | _ => []

def isRaw (n : Node) : Bool :=
  match n.shape with
  | .raw => true
  | _ => false

/-- Changes the arguments of a call; other nodes have none to change. -/
def mapArgs (n : Node) (f : List Nat → List Nat) : Node :=
  match n.shape with
  | .call name args => { n with shape := .call name (f args) }
  | _ => n

end Node

end Arena

structure Arena where
  nodes : List Arena.Node

namespace Arena

def empty : Arena := ⟨[]⟩

def size (a : Arena) : Nat := a.nodes.length

def node? (a : Arena) (id : Nat) : Option Node := a.nodes[id]?

/-- The arguments of a node. -/
def args (a : Arena) (id : Nat) : List Nat :=
  match a.node? id with
  | some n => n.args
  | none => []

/-- The name and element under which a node is exported. -/
def exported? (a : Arena) (id : Nat) : Option (String × Option Element) :=
  (a.node? id).bind (·.exported)

/-- Whether a node is a raw input. -/
def isRaw (a : Arena) (id : Nat) : Bool :=
  match a.node? id with
  | some n => n.isRaw
  | none => false

/-- Adds a node and gives its number. -/
def push (a : Arena) (n : Node) : Arena × Nat :=
  (⟨a.nodes ++ [n]⟩, a.size)

def raw (a : Arena) (position : Nat) : Arena × Nat :=
  a.push { shape := .raw, position := position }

def constant (a : Arena) (value : Value) (position : Nat) : Arena × Nat :=
  a.push { shape := .constant value, position := position }

def call (a : Arena) (name : String) (args : List Nat) (position : Nat) : Arena × Nat :=
  a.push { shape := .call name args, position := position }

def modify (a : Arena) (id : Nat) (f : Node → Node) : Arena :=
  ⟨a.nodes.modify id f⟩

def setArg (a : Arena) (parent index child : Nat) : Arena :=
  a.modify parent (·.mapArgs (·.set index child))

def pushArg (a : Arena) (parent child : Nat) : Arena :=
  a.modify parent (·.mapArgs (· ++ [child]))

def setExport (a : Arena) (id : Nat) (name : String) (declared : Option Element) : Arena :=
  a.modify id fun n => { n with exported := some (name, declared) }

/-- The nodes below and at a node, arguments first, down to a given depth. Without cycles no path is longer
than the arena. -/
def postOrderTo (a : Arena) : Nat → Nat → List Nat
  | 0, _ => []
  | depth + 1, id =>
    match a.node? id with
    | some n => n.args.flatMap (a.postOrderTo depth) ++ [id]
    | none => []

def postOrder (a : Arena) (id : Nat) : List Nat :=
  a.postOrderTo a.size id

def renderTo (a : Arena) : Nat → Nat → String
  | 0, _ => ""
  | depth + 1, id =>
    match a.node? id with
    | some n =>
      match n.shape with
      | .raw => ""
      | .constant value => value.display
      | .call name args =>
        match (args.filter (!a.isRaw ·)).map (a.renderTo depth) with
        | [] => name
        | shown => name ++ "(" ++ ",".intercalate shown ++ ")"
    | none => ""

/-- The signature that people read; the raw input is left out. -/
def render (a : Arena) (id : Nat) : String :=
  a.renderTo a.size id

/-- Copies what `depth` levels below a node hold, arguments first; the copy is not exported. -/
def cloneTo : Nat → Nat → Arena → Arena × Nat
  | 0, id, a => (a, id)
  | depth + 1, id, a =>
    match a.node? id with
    | some n =>
      let (a, copies) := n.args.foldl
        (fun (a, copies) arg =>
          let (a, copy) := cloneTo depth arg a
          (a, copies ++ [copy]))
        (a, ([] : List Nat))
      a.push { n.mapArgs (fun _ => copies) with exported := none }
    | none => (a, id)

/-- Copies a node with everything below it. -/
def deepClone (a : Arena) (id : Nat) : Arena × Nat :=
  cloneTo a.size id a

/-- Goes through the arguments of a node, each of which a step may exchange for another node. -/
def eachArg {m : Type → Type} [Monad m] (step : Arena → Nat → m (Arena × Nat)) (a : Arena) (id : Nat) : m Arena :=
  (a.args id).zipIdx.foldlM
    (fun a (arg, i) => do
      let (a, exchanged) ← step a arg
      return if exchanged = arg then a else a.setArg id i exchanged)
    a

end Arena

end FlowMetering
