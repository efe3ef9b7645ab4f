import FlowMetering.Proofs.RegisterOrder

/-! Names of fields. What the fields of a specification are called, and which elements are declared for them, decides neither
whether registers can be allocated nor which: a program keeps the names beside its registers. -/

namespace FlowMetering

private theorem toOption_bind {ε α β : Type} (first : Except ε α) (next : α → Except ε β) :
    (first >>= next).toOption = first.toOption.bind fun a => (next a).toOption := by
  cases first <;> rfl

private theorem toOption_foldlM {ε α β : Type} (step : β → α → Except ε β) (items : List α) (start : β) :
    (items.foldlM step start).toOption = items.foldlM (fun b a => (step b a).toOption) start := by
  induction items generalizing start with
  | nil => rfl
  | cons item items ih => simp [List.foldlM_cons, toOption_bind, ih, Option.bind_eq_bind]

theorem toOption_eq_some {ε α : Type} {attempt : Except ε α} {result : α} :
    attempt.toOption = some result ↔ attempt = .ok result := by
  cases attempt <;> simp [Except.toOption]

private theorem isSome_toOption {ε α : Type} {attempt : Except ε α} : attempt.toOption.isSome ↔ ∃ result, attempt = .ok result := by
  cases attempt <;> simp [Except.toOption]

private theorem map_foldlM {α β γ : Type} (view : β → γ) {step : β → α → Option β} {seen : γ → α → Option γ}
    (respects : ∀ b a, seen (view b) a = (step b a).map view) (items : List α) (start : β) :
    items.foldlM seen (view start) = (items.foldlM step start).map view := by
  induction items generalizing start with
  | nil => rfl
  | cons item items ih =>
    rw [List.foldlM_cons, List.foldlM_cons, respects]
    cases step start item with
    | none => rfl
    | some next => exact ih next

def Field.unnamed {τ : Type} (field : Field τ) : Field τ :=
  ⟨"", none, field.tree⟩

/-- The register with the mark of its export, but without the name in it. -/
def Node.unnamed {σ : Type} (node : Node σ) : Node σ :=
  { node with exported := node.exported.map fun _ => "" }

namespace Node

variable {σ : Type} (node : Node σ)

@[simp] theorem unnamed_kind : node.unnamed.kind = node.kind := rfl

@[simp] theorem unnamed_args : node.unnamed.args = node.args := rfl

@[simp] theorem unnamed_arguments : node.unnamed.arguments = node.arguments := rfl

@[simp] theorem unnamed_consumesRaw : node.unnamed.consumesRaw = node.consumesRaw := rfl

@[simp] theorem unnamed_constant : node.unnamed.constant = node.constant := rfl

@[simp] theorem unnamed_isControl : node.unnamed.isControl = node.isControl := rfl

end Node

def Export.unnamed (e : Export) : Export :=
  { e with name := "", declared := none }

def TemplateTree.Slot.unnamed (slot : Slot) : Slot :=
  { slot with name := "", declared := none }

/-- Neither the sources of the fields nor the limit on their choices depends on names. -/
theorem TemplateTree.sources_unnamed (limit : Nat) (slots : List Slot) :
    (sources limit (slots.map Slot.unnamed)).toOption = (sources limit slots).toOption := by
  rw [sources, sources, toOption_foldlM, toOption_foldlM, List.foldlM_map]
  congr
  funext found slot
  dsimp only [Slot.unnamed]
  split <;> rfl

namespace Allocation

variable {σ φ : Type}

def unnamed (a : Allocation σ) : Allocation σ :=
  { a with nodes := a.nodes.map Node.unnamed, exports := a.exports.map Export.unnamed }

private theorem place_unnamed (a : Allocation σ) (node : Node σ) (unmarked : node.exported = none) :
    a.unnamed.place node = ((a.place node).1.unnamed, (a.place node).2) := by
  have same : node.unnamed = node := by rw [Node.unnamed, unmarked, Option.map_none, ← unmarked]
  have found : a.unnamed.nodes.findIdx? (·.key == node.key) = a.nodes.findIdx? (·.key == node.key) := List.findIdx?_map ..
  unfold place
  rw [found]
  cases a.nodes.findIdx? (·.key == node.key) with
  | none => simp [unnamed, same]
  | some r => rfl

private theorem note_unnamed (a : Allocation σ) (signature : String) (r : Nat) :
    a.unnamed.note signature r = (a.note signature r).unnamed := by
  unfold note
  rw [apply_ite unnamed]
  rfl

mutual
private theorem addTree_unnamed (position : Nat) (tree : Typed σ) (a : Allocation σ) :
    addTree position tree a.unnamed = ((addTree position tree a).1.unnamed, (addTree position tree a).2) := by
  cases tree with
  | raw mark => rfl
  | constant value =>
    have placed := place_unnamed a (constantNode position value) rfl
    simp only [addTree_constant, placed, note_unnamed]
  | call typing args =>
    have before := addTrees_unnamed position args a
    have placed := place_unnamed (addTrees position args a).1
      (callNode position typing (Typed.text (.call typing args)) (addTrees position args a).2) rfl
    simp only [addTree_call, before, placed, note_unnamed]
termination_by structural tree

private theorem addTrees_unnamed (position : Nat) (trees : List (Typed σ)) (a : Allocation σ) :
    addTrees position trees a.unnamed = ((addTrees position trees a).1.unnamed, (addTrees position trees a).2) := by
  cases trees with
  | nil => rfl
  | cons tree trees =>
    have first := addTree_unnamed position tree a
    have rest := addTrees_unnamed position trees (addTree position tree a).1
    simp only [addTrees, first, rest]
termination_by structural trees
end

private theorem addExport_unnamed (a : Allocation σ) (e : Export) :
    (a.unnamed.addExport e.unnamed).toOption = (a.addExport e).toOption.map unnamed := by
  have held : a.unnamed.nodes[e.register]? = a.nodes[e.register]?.map Node.unnamed := List.getElem?_map
  unfold addExport
  rw [show e.unnamed.register = e.register from rfl, held]
  cases a.nodes[e.register]? with
  | none => rfl
  | some node =>
    cases marked : node.exported with
    | none => simp [unnamed, Node.unnamed, Export.unnamed, marked, Except.toOption, List.map_set]
    | some name => simp [Node.unnamed, marked, Except.toOption]

private theorem addField_unnamed (a : Allocation σ) (position : Nat) (field : Field (Typed σ)) :
    (a.unnamed.addField position field.unnamed).toOption = (a.addField position field).toOption.map unnamed := by
  have tree := addTree_unnamed position field.tree a
  rw [addField_eq, addField_eq, show field.unnamed.tree = field.tree from rfl, tree]
  cases (addTree position field.tree a).2 with
  | raw => rfl
  | register r => exact addExport_unnamed _ ⟨r, field.name, field.declared, position⟩

private theorem addControl_unnamed (a : Allocation σ) (position : Nat) (control : Registered σ) :
    a.unnamed.addControl position control = (a.addControl position control).unnamed := by
  have known : a.unnamed.nodes.any (·.key == (controlNode position control).key) =
      a.nodes.any (·.key == (controlNode position control).key) := List.any_map
  simp only [addControl, known, apply_ite unnamed]
  simp [unnamed, Node.unnamed, controlNode]

private theorem addControls_unnamed (controls : List (Registered σ × Nat)) (a : Allocation σ) :
    controls.foldl (fun a (control, i) => a.addControl (i + 1) control) a.unnamed =
      (controls.foldl (fun a (control, i) => a.addControl (i + 1) control) a).unnamed := by
  induction controls generalizing a with
  | nil => rfl
  | cons control controls ih => simp only [List.foldl_cons, addControl_unnamed, ih]

/-- Fields are allocated alike whatever they are called. -/
theorem ofFields_unnamed (fields : List (Field (Typed σ))) (controls : List (Registered σ)) :
    (ofFields (fields.map Field.unnamed) controls).toOption = (ofFields fields controls).toOption.map unnamed := by
  have added : ((fields.map Field.unnamed).zipIdx.foldlM (fun (a : Allocation σ) (field, i) => a.addField (i + 1) field) empty).toOption =
      (fields.zipIdx.foldlM (fun (a : Allocation σ) (field, i) => a.addField (i + 1) field) empty).toOption.map unnamed := by
    rw [toOption_foldlM, toOption_foldlM, List.zipIdx_map, List.foldlM_map]
    refine map_foldlM unnamed (fun a item => ?_) fields.zipIdx empty
    exact addField_unnamed a (item.2 + 1) item.1
  rw [ofFields, ofFields, toOption_bind, toOption_bind, added]
  cases (fields.zipIdx.foldlM (fun (a : Allocation σ) (field, i) => a.addField (i + 1) field) empty).toOption with
  | none => rfl
  | some a => exact congrArg some (addControls_unnamed controls.zipIdx a)

private theorem slot_unnamed (a : Allocation σ) (e : Export) : a.unnamed.slot e.unnamed = (a.slot e).unnamed := by
  have held : a.unnamed.nodes[e.register]? = a.nodes[e.register]?.map Node.unnamed := List.getElem?_map
  rw [slot, slot, show e.unnamed.register = e.register from rfl, held]
  cases a.nodes[e.register]? <;> rfl

/-- Whether there is a program over what has been allocated does not depend on names. -/
theorem program_unnamed (a : Allocation σ) (limit : Nat) (filters : List (String × φ)) :
    (∃ p, a.unnamed.program limit filters = .ok p) ↔ ∃ p, a.program limit filters = .ok p := by
  have slots : a.unnamed.exports.map a.unnamed.slot = (a.exports.map a.slot).map TemplateTree.Slot.unnamed := by
    simp only [unnamed, List.map_map]
    exact List.map_congr_left fun e _ => slot_unnamed a e
  have possible (b : Allocation σ) : (∃ p, b.program limit filters = .ok p) ↔
      (TemplateTree.sources limit (b.exports.map b.slot)).toOption.isSome := by
    rw [← isSome_toOption, program, TemplateTree.ofSlots, toOption_bind, toOption_bind]
    cases (TemplateTree.sources limit (b.exports.map b.slot)).toOption <;> rfl
  rw [possible, possible, slots, TemplateTree.sources_unnamed]

end Allocation

/-- Programs that differ in the names of their fields and in the elements of their templates only. -/
structure Program.Renamed {σ φ : Type} (p q : Program σ φ) : Prop where
  nodes : p.nodes.map Node.unnamed = q.nodes.map Node.unnamed
  controls : p.controls = q.controls
  events : p.events = q.events
  exports : p.exports = q.exports
  arguments : ∀ r, p.arguments r = q.arguments r
  dependents : ∀ r, p.dependents r = q.dependents r

namespace Program

variable {σ φ : Type} {p q : Program σ φ}

theorem node_unnamed (nodes : p.nodes.map Node.unnamed = q.nodes.map Node.unnamed) (r : Nat) :
    (p.node? r = none ∧ q.node? r = none) ∨
      ∃ node node', p.node? r = some node ∧ q.node? r = some node' ∧ node.unnamed = node'.unnamed := by
  have same : (p.node? r).map Node.unnamed = (q.node? r).map Node.unnamed := by
    rw [node?, node?, ← List.getElem?_map, nodes, List.getElem?_map]
  cases found : p.node? r with
  | none =>
    rw [found] at same
    exact .inl ⟨rfl, Option.map_eq_none_iff.mp same.symm⟩
  | some node =>
    rw [found] at same
    obtain ⟨node', found', same⟩ := Option.map_eq_some_iff.mp same.symm
    exact .inr ⟨node, node', rfl, found', same.symm⟩

/-- All that a program derives from its registers is the same under other names. -/
theorem renamed_of_nodes (nodes : p.nodes.map Node.unnamed = q.nodes.map Node.unnamed) (controls : p.controls = q.controls)
    (exports : p.exports = q.exports) : p.Renamed q := by
  have size : p.size = q.size := by simpa [Program.size] using congrArg List.length nodes
  have arguments (r : Nat) : p.arguments r = q.arguments r := by
    rcases node_unnamed nodes r with ⟨missing, missing'⟩ | ⟨node, node', found, found', same⟩
    · simp [Program.arguments, missing, missing']
    · simpa [Program.arguments, found, found'] using congrArg Node.arguments same
  have constant (r : Nat) : p.isConstant r = q.isConstant r := by
    rcases node_unnamed nodes r with ⟨missing, missing'⟩ | ⟨node, node', found, found', same⟩
    · simp [isConstant, missing, missing']
    · simpa [isConstant, found, found'] using congrArg (·.constant.isSome) same
  refine ⟨nodes, controls, ?_, exports, arguments, fun r => ?_⟩
  · rw [events, events, size]
    refine List.filter_congr fun r _ => ?_
    rcases node_unnamed nodes r with ⟨missing, missing'⟩ | ⟨node, node', found, found', same⟩
    · simp [missing, missing']
    · have isControl := congrArg (·.isControl) same
      have consumes := congrArg Node.consumesRaw same
      have clocked := congrArg q.isClocked same
      simp only [isClocked, Node.unnamed_kind, Node.unnamed_args, Node.unnamed_constant, Node.unnamed_isControl,
        Node.unnamed_consumesRaw] at isControl consumes clocked
      simp only [found, found', isControl, consumes, isClocked, constant, clocked]
  · simp only [dependents, constant, size, arguments]

end Program

end FlowMetering
