import FlowMetering.Arena.Binding

/-!
Rewriting of bound arenas. Calls whose entry works on their own input get it as a further argument. Then the
substitutions are carried out in place: the raw inputs of the first argument are exchanged for copies of the
second, and the first argument takes the place of the call.
-/

namespace FlowMetering.Arena

variable {σ φ : Type}

/-- The entry that a node is bound to. -/
def chosen? (catalog : Catalog σ φ) (a : Arena) (id : Nat) : Option (Entry σ) := do
  let n ← a.node? id
  let i ← n.mark.entry
  catalog.entries[i]?

/-- Gives a call whose entry has an implicit input one more argument, the raw packets. -/
def addInput (catalog : Catalog σ φ) (a : Arena) (id : Nat) : Arena :=
  match a.chosen? catalog id with
  | some entry =>
    if entry.implicitInput then
      let position := match a.node? id with
        | some n => n.position
        | none => 0
      let (a, raw) := a.raw position
      (a.setKind raw .rawPacket).pushArg id raw
    else a
  | none => a

/-- Adds the implicit inputs of the nodes at and below a node. -/
def addInputs (catalog : Catalog σ φ) (a : Arena) (root : Nat) : Arena :=
  (a.postOrder root).foldl (addInput catalog) a

/-- Exchanges the raw inputs that are at most `levels` below a node for copies of `selection`. -/
def substituteTo (selection : Nat) : Nat → Arena → Nat → Arena
  | 0, a, _ => a
  | levels + 1, a, id =>
    let step (a : Arena) (arg : Nat) : Id (Arena × Nat) :=
      if a.isRaw arg then a.deepClone selection else (substituteTo selection levels a arg, arg)
    a.eachArg step id

/-- Exchanges the raw inputs below a node for copies of `selection`. -/
def substitute (a : Arena) (id selection : Nat) : Arena :=
  substituteTo selection a.size a id

/-- Exports a node in the place of another one. -/
def moveExport (a : Arena) (source target : Nat) : Arena :=
  match a.exported? source with
  | some exported =>
    (a.modify source fun n => { n with exported := none }).modify target fun n => { n with exported := some exported }
  | none => a

/-- Carries out the substitution that a node stands for, and gives the node that takes its place. -/
def rewriteCall (catalog : Catalog σ φ) (a : Arena) (id : Nat) : Arena × Nat :=
  match a.chosen? catalog id with
  | some entry =>
    if entry.build.isSome then (a, id)
    else
      match a.args id with
      | [feature, selection] => ((a.substitute feature selection).moveExport id feature, feature)
      | _ => (a, id)
  | none => (a, id)

/-- Carries out the substitutions at a node and `levels` below it, arguments first, and gives the node that
takes its place. -/
def lowerTo (catalog : Catalog σ φ) : Nat → Arena → Nat → Arena × Nat
  | 0, a, id => (a, id)
  | levels + 1, a, id =>
    let step (a : Arena) (arg : Nat) : Id (Arena × Nat) := lowerTo catalog levels a arg
    rewriteCall catalog (a.eachArg step id) id

/-- Carries out the substitutions at and below a node. -/
def lower (catalog : Catalog σ φ) (a : Arena) (root : Nat) : Arena × Nat :=
  lowerTo catalog a.size a root

end FlowMetering.Arena
