import FlowMetering.Proofs.ExactSharing
import FlowMetering.Proofs.TemplateSelection
import FlowMetering.Record

/-! The registers of a compiled program. Each is a control, or has been made for a part of some feature; the type of a
register comes from those of its arguments, and the template from the types of what is exported. -/

namespace FlowMetering

open Allocation
open TypeTree (Choice Consistent combinedUnder)

namespace Program

variable {σ φ : Type}

def typeOf (p : Program σ φ) : Argument → TypeTree
  | .raw => .untyped
  | .register r =>
    match p.node? r with
    | some node => node.type
    | none => .untyped

def points (p : Program σ φ) : List (String × Nat) :=
  p.nodes.flatMap (·.type.branchings)

theorem typeOf_register {p : Program σ φ} {r : Nat} {node : Node σ} (found : p.nodes[r]? = some node) :
    p.typeOf (.register r) = node.type := by
  rw [typeOf, node?, found]

theorem branchings_typeOf (p : Program σ φ) (arg : Argument) : (p.typeOf arg).branchings ⊆ p.points := by
  cases arg with
  | raw => exact List.nil_subset _
  | register r =>
    rw [typeOf]
    split
    next node found => exact fun point inside => List.mem_flatMap.mpr ⟨node, List.mem_of_getElem? found, inside⟩
    next => exact List.nil_subset _

end Program

theorem Allocation.Made.type_eq {σ : Type} {registers : List (String × Nat)} {node : Node σ} {tree : Typed σ}
    (made : Made registers node tree) : node.type = Typed.type tree := by
  cases made with
  | constant plain type known args entry key => exact type
  | call plain type varies entry key each => exact type

/-- Where the registers of a program come from: what has been allocated for its features, and then for its controls. -/
structure Layout {σ φ : Type} (catalog : Catalog σ φ) (limit : Nat) (fields : List (Field (Typed σ)))
    (controls : List (Registered σ)) (p : Program σ φ) where
  made : Allocation σ
  whole : Allocation σ
  visited : Visited catalog limit empty made (fieldVisits fields.zipIdx empty)
  trees : (fieldVisits fields.zipIdx empty).map (·.1) = fields.flatMap (·.tree.subtrees)
  marked : Marked catalog limit made fields
  controlled : Controlled controls made whole
  nodes : p.nodes = whole.nodes
  controls : p.controls = whole.controls
  exports : p.exports = whole.exports.map (·.register)
  template : TemplateTree.ofSlots limit whole.registerOf (whole.exports.map whole.slot) = .ok p.template

variable {σ φ : Type} {catalog : Catalog σ φ} {limit : Nat}

theorem Specification.Stages.wellTyped {s : Specification} {p : Program σ φ} (stages : Stages catalog limit s p) :
    ∀ field ∈ stages.typed, Typed.WellTyped catalog limit field.tree := by
  intro field member
  obtain ⟨field', held, types⟩ := forall₂_mem_right (stage_results stages.resolved) member
  have drawn := lowered_over (bind_eq_ok.mpr ⟨_, stages.read, bind_eq_ok.mpr ⟨_, stages.unfolded, stages.lowered⟩⟩) field' held
  obtain ⟨tree, typed, same⟩ := bind_eq_ok.mp types
  cases same
  exact Typed.wellTyped_ofBound drawn typed

theorem Specification.Stages.layout {s : Specification} {p : Program σ φ} (stages : Stages catalog limit s p) :
    Nonempty (Layout catalog limit stages.typed stages.controls p) := by
  obtain ⟨made, done, rest⟩ := bind_eq_ok.mp stages.allocated
  rcases addFields_cases .empty stages.wellTyped with
    ⟨a, done', marked, visited, trees, -⟩ | ⟨i, field, -, -, -, -, failed⟩
  · obtain rfl := Except.ok.inj (done'.symm.trans done)
    obtain ⟨template, built, finished⟩ := bind_eq_ok.mp stages.finished
    have program := (Except.ok.inj finished).symm
    have controlled := addControls_controlled stages.controls.zipIdx a
    rw [List.zipIdx_map_fst, Except.ok.inj rest] at controlled
    refine ⟨⟨a, stages.allocation, visited, trees, marked, controlled, ?_, ?_, ?_, ?_⟩⟩
    · exact congrArg Program.nodes program
    · exact congrArg Program.controls program
    · exact congrArg Program.exports program
    · rw [built, program]
  · cases failed.symm.trans done

theorem Specification.Stages.control_entry {s : Specification} {p : Program σ φ} (stages : Stages catalog limit s p)
    {control : Registered σ} (member : control ∈ stages.controls) :
    control.entry ∈ catalog.entries ∧ control.entry.result = .control ∧ control.entry.arguments = [.rawPacket] := by
  obtain ⟨name, -, bound⟩ := forall₂_mem_right (stage_results stages.controlled) member
  rw [boundControl] at bound
  split at bound
  next found =>
    cases bound
    have fits := List.find?_some found
    rw [Bool.and_eq_true, Bool.and_eq_true, beq_iff_eq, beq_iff_eq, beq_iff_eq] at fits
    exact ⟨Catalog.mem_entries (List.mem_of_find?_eq_some found), fits.1.2, fits.2⟩
  next => cases bound

namespace Layout

variable {fields : List (Field (Typed σ))} {controls : List (Registered σ)} {p : Program σ φ}
variable (layout : Layout catalog limit fields controls p)
include layout

theorem nodes_made {r : Nat} {node : Node σ} (found : layout.made.nodes[r]? = some node) : p.nodes[r]? = some node := by
  obtain ⟨more, added, -⟩ := layout.controlled.nodes
  rw [layout.nodes, added]
  exact (List.getElem?_append_left (List.getElem?_eq_some_iff.mp found).1).trans found

/-- The register of a part of a feature has been made for it. -/
theorem made_of_denotes {tree : Typed σ} {r : Nat} (typed : Typed.WellTyped catalog limit tree)
    (denotes : Denotes layout.made.registers (.register r) tree) :
    ∃ node, p.nodes[r]? = some node ∧ Made layout.made.registers node tree := by
  obtain ⟨node, found, made⟩ := layout.visited.keyed.made_of_denotes typed denotes
  exact ⟨node, layout.nodes_made found, made⟩

theorem wellTyped {tree : Typed σ} (part : tree ∈ fields.flatMap (·.tree.subtrees)) : Typed.WellTyped catalog limit tree := by
  rw [← layout.trees] at part
  obtain ⟨visit, member, rfl⟩ := List.mem_map.mp part
  exact layout.visited.typed visit member

/-- A part of a feature that is no raw input has a register. -/
theorem exists_register {tree : Typed σ} (part : tree ∈ fields.flatMap (·.tree.subtrees)) (plain : tree.isRaw = false) :
    ∃ r, Denotes layout.made.registers (.register r) tree := by
  rw [← layout.trees] at part
  obtain ⟨visit, member, rfl⟩ := List.mem_map.mp part
  have denotes := layout.visited.denotes visit member
  obtain ⟨r, reference⟩ := denotes.exists_register plain
  exact ⟨r, reference ▸ denotes⟩

/-- Every register is that of a control or of a part of some feature. -/
theorem node_cases {r : Nat} {node : Node σ} (found : p.nodes[r]? = some node) :
    (∃ position, ∃ control ∈ controls, node = controlNode position control) ∨
      ∃ tree ∈ fields.flatMap (·.tree.subtrees), Denotes layout.made.registers (.register r) tree ∧
        Made layout.made.registers node tree := by
  obtain ⟨more, added, made⟩ := layout.controlled.nodes
  rw [layout.nodes, added] at found
  by_cases inside : r < layout.made.nodes.length
  · obtain ⟨visit, member, reference⟩ := layout.visited.exists_visit inside
    have denotes := layout.visited.denotes visit member
    rw [reference] at denotes
    have part : visit.1 ∈ fields.flatMap (·.tree.subtrees) := layout.trees ▸ List.mem_map_of_mem member
    obtain ⟨node', found', made'⟩ := layout.visited.keyed.made_of_denotes (layout.visited.typed visit member) denotes
    rw [List.getElem?_append_left inside] at found
    cases found.symm.trans found'
    exact .inr ⟨visit.1, part, denotes, made'⟩
  · rw [List.getElem?_append_right (Nat.le_of_not_lt inside)] at found
    exact .inl (made node (List.mem_of_getElem? found))

theorem typeOf_eq {arg : Argument} {tree : Typed σ} (typed : Typed.WellTyped catalog limit tree)
    (denotes : Denotes layout.made.registers arg tree) : p.typeOf arg = Typed.type tree := by
  cases arg with
  | raw =>
    cases denotes
    rfl
  | register r =>
    obtain ⟨node, found, made⟩ := layout.made_of_denotes typed denotes
    rw [Program.typeOf_register found, made.type_eq]

/-- A call gets its type from the types of its arguments. -/
theorem callType_eq {node : Node σ} {typing : Typing σ} {args : List (Typed σ)}
    (part : .call typing args ∈ fields.flatMap (·.tree.subtrees)) (made : Made layout.made.registers node (.call typing args)) :
    Typed.callType limit typing.binding.chosen.entry typing.signature (node.args.map p.typeOf) = .ok node.type := by
  have well := layout.wellTyped part
  cases made with
  | call plain type varies entry key each =>
    have types : node.args.map p.typeOf = args.map Typed.type := by
      have inside : ∀ arg ∈ args, Typed.WellTyped catalog limit arg := fun _ => well.arg
      clear part key type entry well
      generalize node.args = references at each
      induction each with
      | nil => rfl
      | cons first rest ih =>
        rw [List.forall_mem_cons] at inside
        rw [List.map_cons, List.map_cons, layout.typeOf_eq inside.1 first, ih inside.2]
    cases well with
    | call registered key' typed inside => rw [types, type, typed]

/-- The template branches where the types of registers do. -/
theorem points_slots : TemplateTree.points (layout.whole.exports.map layout.whole.slot) ⊆ p.points := by
  intro point member
  obtain ⟨slot, held, branching⟩ := List.mem_flatMap.mp member
  obtain ⟨e, -, rfl⟩ := List.mem_map.mp held
  rw [slot] at branching
  split at branching
  next node found =>
    rw [← layout.nodes] at found
    exact List.mem_flatMap.mpr ⟨node, List.mem_of_getElem? found, branching⟩
  next => exact absurd branching List.not_mem_nil

/-- The choice of a source is made by the register of the source. -/
theorem registerOf_eq {tree : Typed σ} {r : Nat} (denotes : Denotes layout.made.registers (.register r) tree) :
    layout.whole.registerOf (Typed.signature tree) = r := by
  cases denotes with
  | register plain noted =>
    have looked : layout.whole.registerOf (Typed.signature tree) = layout.made.registerOf (Typed.signature tree) := by
      rw [registerOf, registerOf, layout.controlled.registers]
    rw [looked, layout.visited.keyed.registerOf_eq noted]

/-- The source of a branching is a call with as many types, and its register is the one that makes the choice. -/
theorem source {source : String} {count : Nat} (point : (source, count) ∈ p.points) :
    ∃ typing args elements node, .call typing args ∈ fields.flatMap (·.tree.subtrees) ∧ typing.signature = source ∧
      typing.binding.chosen.entry.output = .variants elements ∧ elements.length = count ∧
      p.nodes[layout.whole.registerOf source]? = some node ∧ Made layout.made.registers node (.call typing args) := by
  obtain ⟨node, member, inside⟩ := List.mem_flatMap.mp point
  obtain ⟨r, bound, rfl⟩ := List.getElem_of_mem member
  rcases layout.node_cases (List.getElem?_eq_getElem bound) with ⟨position, control, -, same⟩ | ⟨tree, part, denotes, made⟩
  · rw [same] at inside
    exact absurd inside List.not_mem_nil
  · rw [made.type_eq] at inside
    obtain ⟨typing, args, elements, below, rfl, several, rfl⟩ := (layout.wellTyped part).source inside
    have part' : .call typing args ∈ fields.flatMap (·.tree.subtrees) := by
      obtain ⟨field, held, within⟩ := List.mem_flatMap.mp part
      exact List.mem_flatMap.mpr ⟨field, held, Tree.subtrees_trans below within⟩
    obtain ⟨q, own⟩ := layout.exists_register part' rfl
    obtain ⟨node, found, made⟩ := layout.made_of_denotes (layout.wellTyped part') own
    exact ⟨typing, args, elements, node, part', rfl, several, rfl, layout.registerOf_eq own ▸ found, made⟩

/-- Branching points of one source have equally many branches. -/
theorem consistent : Consistent p.points := by
  intro source count count' point point'
  obtain ⟨typing, args, elements, node, -, -, several, rfl, found, made⟩ := layout.source point
  obtain ⟨typing', args', elements', node', -, -, several', rfl, found', made'⟩ := layout.source point'
  cases found.symm.trans found'
  cases made with
  | call plain type varies entry key each =>
    cases made' with
    | call plain' type' varies' entry' key' each' =>
      rw [Option.some.inj (entry.symm.trans entry'), several'] at several
      cases several
      rfl

/-- Under a choice, a call that computes its type has the type that its arguments give it. -/
theorem select_call {node : Node σ} {typing : Typing σ} {args : List (Typed σ)}
    (part : .call typing args ∈ fields.flatMap (·.tree.subtrees)) (made : Made layout.made.registers node (.call typing args))
    {resolve : List FieldType → Option FieldType} (computed : typing.binding.chosen.entry.output = .resolved resolve)
    {choice : Choice} (covers : choice.Covers p.points) :
    node.type.select choice =
      combinedUnder (Typed.resolvedType typing.binding.chosen.entry.name resolve) (node.args.map p.typeOf) choice := by
  have typed := layout.callType_eq part made
  rw [Typed.callType, computed] at typed
  have within : (node.args.map p.typeOf).flatMap TypeTree.branchings ⊆ p.points := by
    intro point member
    obtain ⟨_, held, inside⟩ := List.mem_flatMap.mp member
    obtain ⟨arg, -, rfl⟩ := List.mem_map.mp held
    exact p.branchings_typeOf arg inside
  rw [Typed.combine_eq_ok typed]
  exact TypeTree.select_combined _ (Typed.resolvedType_plain _ resolve) (layout.consistent.mono within) (covers.mono within)

/-- Under a choice that the variants of registers make, a call with several types has the one that its register has chosen. -/
theorem select_variants {r : Nat} {node : Node σ} {typing : Typing σ} {args : List (Typed σ)}
    (part : .call typing args ∈ fields.flatMap (·.tree.subtrees))
    (denotes : Denotes layout.made.registers (.register r) (.call typing args)) (found : p.nodes[r]? = some node)
    (made : Made layout.made.registers node (.call typing args)) {elements : List Element}
    (several : typing.binding.chosen.entry.output = .variants elements) {choice : Choice} (covers : choice.Covers p.points)
    {variant : Nat → Nat} (picks : ∀ source count, (source, count) ∈ p.points →
      choice.branch? source = some (variant (layout.whole.registerOf source))) :
    ∃ element, elements[variant r]? = some element ∧ node.type.select choice = .fixed element := by
  have typed := layout.callType_eq part made
  rw [Typed.callType, several] at typed
  have type := Except.ok.inj typed
  have within : node.type.branchings ⊆ p.points := fun point inside =>
    List.mem_flatMap.mpr ⟨node, List.mem_of_getElem? found, inside⟩
  rw [← type] at within ⊢
  obtain ⟨branch, -, -, i, taken, branched, same⟩ := TypeTree.select_variants (covers.mono within)
  have picked := picks _ _ (within (TypeTree.mem_branchings_variants.mpr (.inl rfl)))
  rw [branched, show typing.signature = Typed.signature (.call typing args) from rfl, layout.registerOf_eq denotes] at picked
  cases picked
  rw [List.getElem?_map] at taken
  obtain ⟨element, chosen, rfl⟩ := Option.map_eq_some_iff.mp taken
  exact ⟨element, chosen, same⟩

end Layout

/-- The element of a field is the one declared for it, or one of the field's own type. -/
theorem TemplateTree.Slot.element?_eq_some {slot : Slot} {leaf : TypeTree} {element : Element}
    (found : slot.element? leaf = some element) :
    ∃ own, leaf = .fixed own ∧ (slot.declared = some element ∨ slot.declared = none ∧ element.type = own.type) := by
  cases leaf with
  | untyped | dead | variants source branches => cases found
  | fixed own =>
    refine ⟨own, rfl, ?_⟩
    rw [Slot.element?] at found
    split at found
    next declared same => exact .inl (same.trans found)
    next same =>
      refine .inr ⟨same, ?_⟩
      rw [← Option.some.inj found]
      split <;> rfl

theorem forall₂_of_mapM {α β : Type} {f : α → Option β} {items : List α} {results : List β}
    (done : items.mapM f = some results) : List.Forall₂ (fun item result => f item = some result) items results := by
  induction items generalizing results with
  | nil =>
    cases done
    exact .nil
  | cons item items ih =>
    rw [List.mapM_cons] at done
    obtain ⟨result, first, done⟩ := Option.bind_eq_some_iff.mp done
    obtain ⟨rest, others, done⟩ := Option.bind_eq_some_iff.mp done
    cases done
    exact .cons first (ih others)

theorem exists_mapM {α β : Type} {f : α → Option β} {items : List α} (each : ∀ item ∈ items, ∃ result, f item = some result) :
    ∃ results, items.mapM f = some results := by
  induction items with
  | nil => exact ⟨[], rfl⟩
  | cons item items ih =>
    rw [List.forall_mem_cons] at each
    obtain ⟨result, first⟩ := each.1
    obtain ⟨results, rest⟩ := ih each.2
    exact ⟨result :: results, by rw [List.mapM_cons, first, rest]; rfl⟩

/-- A register is exported for a feature, under an element that is declared for the feature or has the type that a choice
gives the register. -/
structure Layout.Shows {fields : List (Field (Typed σ))} {controls : List (Registered σ)} {p : Program σ φ}
    (layout : Layout catalog limit fields controls p) (choice : Choice) (r : Nat) (element : Element)
    (field : Field (Typed σ)) (node : Node σ) : Prop where
  member : field ∈ fields
  found : p.nodes[r]? = some node
  made : Made layout.made.registers node field.tree
  element : ∃ own, node.type.select choice = .fixed own ∧
    (field.declared = some element ∨ field.declared = none ∧ element.type = own.type)

namespace Layout

variable {fields : List (Field (Typed σ))} {controls : List (Registered σ)} {p : Program σ φ}
variable (layout : Layout catalog limit fields controls p)
include layout

/-- What is selected are the elements of all exports under the choice that the variants make. -/
theorem select_template (variant : Nat → Nat)
    (inside : ∀ source count, (source, count) ∈ p.points → variant (layout.whole.registerOf source) < count) :
    (p.template.select variant).map Template.elements =
      (TemplateTree.template? (layout.whole.exports.map layout.whole.slot)
        (TemplateTree.chosen layout.whole.registerOf variant p.points)).map Template.elements := by
  have within := layout.points_slots
  rw [TemplateTree.select_ofSlots layout.template fun source count member => inside source count (within member)]
  refine congrArg (Option.map _) (TemplateTree.template?_congr fun slot held => ?_)
  refine TypeTree.select_congr fun source count branching => ?_
  have point : (source, count) ∈ TemplateTree.points (layout.whole.exports.map layout.whole.slot) :=
    List.mem_flatMap.mpr ⟨slot, held, branching⟩
  rw [TemplateTree.chosen_branch? point, TemplateTree.chosen_branch? (within point)]

/-- Templates see an export as a field whose type is that of its register. -/
structure Slots (e : Export) (field : Field (Typed σ)) : Prop where
  member : field ∈ fields
  seen : ∃ node, p.nodes[e.register]? = some node ∧ Made layout.made.registers node field.tree ∧
    layout.whole.slot e = ⟨field.name, node.name, field.declared, node.type, e.position⟩

theorem slots : List.Forall₂ layout.Slots layout.whole.exports (fields.filter (!·.tree.isRaw)) := by
  rw [layout.controlled.exports]
  have listed : ∀ field ∈ fields.filter (!·.tree.isRaw), field ∈ fields := fun _ => List.mem_of_mem_filter
  refine (((List.forall₂_and_left _ _).mpr ⟨listed, layout.marked.exports.flip⟩).imp ?_).flip
  rintro field e ⟨member, exposes⟩
  obtain ⟨node, found, made⟩ := layout.made_of_denotes
    (layout.wellTyped (List.mem_flatMap.mpr ⟨field, member, Tree.mem_subtrees_self _⟩)) exposes.denotes
  refine ⟨member, node, found, made, ?_⟩
  rw [slot, ← layout.nodes, found, ← exposes.name, ← exposes.declared]

/-- A template that variants select has one element for each export, under the choice that the variants make. -/
theorem shown {variant : Nat → Nat}
    (inside : ∀ source count, (source, count) ∈ p.points → variant (layout.whole.registerOf source) < count)
    {template : Template} (selected : p.template.select variant = some template) :
    List.Forall₂ (fun r element => ∃ field node,
        layout.Shows (TemplateTree.chosen layout.whole.registerOf variant p.points) r element field node)
      p.exports template.elements := by
  have elements := layout.select_template _ inside
  rw [selected] at elements
  obtain ⟨_, listed, same⟩ := Option.map_eq_some_iff.mp elements.symm
  obtain ⟨elements', each, rfl⟩ := Option.map_eq_some_iff.mp listed
  obtain rfl : elements' = template.elements := same
  have exposed (e : Export) (member : e ∈ layout.whole.exports) : ∃ field, layout.Slots e field := by
    obtain ⟨field, -, slots⟩ := forall₂_mem_left layout.slots member
    exact ⟨field, slots⟩
  have paired := (List.forall₂_and_left _ _).mpr ⟨exposed, List.forall₂_map_left_iff.mp (forall₂_of_mapM each)⟩
  rw [layout.exports, List.forall₂_map_left_iff]
  refine paired.imp ?_
  rintro e element ⟨⟨field, held, node, found, made, slotted⟩, chosen⟩
  rw [slotted] at chosen
  exact ⟨field, node, held, found, made, TemplateTree.Slot.element?_eq_some chosen⟩

end Layout

variable [Feature σ] {m : Meter σ φ} {fields : List (Field (Typed σ))} {controls : List (Registered σ)}

/-- A row shows the values of exported registers under the elements that the variants of its record choose. -/
theorem Layout.row (layout : Layout catalog limit fields controls m.program) {record : Record σ φ} {time : Int64} {row : Row}
    (found : m.row? record time = some row)
    (inside : ∀ source count, (source, count) ∈ m.program.points →
      Meter.variant record (layout.whole.registerOf source) < count) :
    ∃ choice : Choice, choice.Covers m.program.points ∧
      (∀ source count, (source, count) ∈ m.program.points →
        choice.branch? source = some (Meter.variant record (layout.whole.registerOf source))) ∧
      row.values = m.program.exports.map (fun r => (record.values[r]?).join) ∧
      List.Forall₂ (fun r element => ∃ field node, layout.Shows choice r element field node)
        m.program.exports row.template.elements := by
  have agrees : ∀ source count, (source, count) ∈ m.program.points →
      (TemplateTree.chosen layout.whole.registerOf (Meter.variant record) m.program.points).branch? source =
        some (Meter.variant record (layout.whole.registerOf source)) :=
    fun source count member => TemplateTree.chosen_branch? member
  obtain ⟨template, selected, rfl⟩ := Option.map_eq_some_iff.mp found
  exact ⟨_, fun source count member => ⟨_, inside source count member, agrees source count member⟩, agrees, rfl,
    layout.shown inside selected⟩

end FlowMetering
