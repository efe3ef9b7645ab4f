import FlowMetering.Proofs.TemplateLimits
import FlowMetering.Proofs.TransparentComposites

/-! Selected templates. What the variants of registers select is the row of elements that the exported registers have under
the choice that the variants make, and nothing is selected where one of them has no type. -/

namespace FlowMetering

open TypeTree (Choice)

variable {σ φ : Type} {catalog : Catalog σ φ} {limit : Nat}

namespace Allocation

/-- A property of registers that new ones have and exported ones keep. -/
structure Lasting (holds : Node σ → Prop) : Prop where
  constant : ∀ position value, holds (constantNode position value)
  call : ∀ position typing text args, holds (callNode position typing text args)
  control : ∀ position control, holds (controlNode position control)
  mark : ∀ node name, holds node → holds { node with exported := some name }

namespace Lasting

variable {holds : Node σ → Prop}

private theorem place {a : Allocation σ} (each : ∀ node ∈ a.nodes, holds node) {node : Node σ} (held : holds node)
    (signature : String) : ∀ other ∈ ((a.place node).1.note signature (a.place node).2).nodes, holds other := by
  rw [note_nodes]
  rcases place_cases a node with ⟨r, found, same, -, -⟩ | ⟨same, -⟩
  · rw [same]
    exact each
  · rw [same]
    exact List.forall_mem_append.mpr ⟨each, List.forall_mem_singleton.mpr held⟩

mutual
private theorem addTree (lasting : Lasting holds) (position : Nat) (tree : Typed σ) {a : Allocation σ}
    (each : ∀ node ∈ a.nodes, holds node) : ∀ node ∈ (addTree position tree a).1.nodes, holds node := by
  cases tree with
  | raw mark => exact each
  | constant value =>
    rw [addTree_constant]
    exact place each (lasting.constant position value) _
  | call typing args =>
    rw [addTree_call]
    exact place (lasting.addTrees position args each) (lasting.call position typing _ _) _
termination_by structural tree

private theorem addTrees (lasting : Lasting holds) (position : Nat) (trees : List (Typed σ)) {a : Allocation σ}
    (each : ∀ node ∈ a.nodes, holds node) : ∀ node ∈ (addTrees position trees a).1.nodes, holds node := by
  cases trees with
  | nil => exact each
  | cons tree trees =>
    rw [Allocation.addTrees]
    exact lasting.addTrees position trees (lasting.addTree position tree each)
termination_by structural trees
end

private theorem addField (lasting : Lasting holds) {a b : Allocation σ} (each : ∀ node ∈ a.nodes, holds node) {position : Nat}
    {field : Field (Typed σ)} (added : a.addField position field = .ok b) : ∀ node ∈ b.nodes, holds node := by
  have grown := lasting.addTree position field.tree each
  rw [addField_eq] at added
  split at added
  next r _ =>
    rw [addExport] at added
    split at added
    next node found =>
      split at added
      · cases added
      · cases added
        intro other member
        rcases List.mem_or_eq_of_mem_set member with member | rfl
        · exact grown other member
        · exact lasting.mark node _ (grown node (List.mem_of_getElem? found))
    next =>
      cases added
      exact grown
  next =>
    cases added
    exact grown

private theorem addFields (lasting : Lasting holds) (items : List (Field (Typed σ) × Nat)) {a b : Allocation σ}
    (each : ∀ node ∈ a.nodes, holds node)
    (done : items.foldlM (fun a (field, i) => a.addField (i + 1) field) a = .ok b) : ∀ node ∈ b.nodes, holds node :=
  foldlM_keeps (fun _ _ _ each added => lasting.addField each added) each done

private theorem ofFields (lasting : Lasting holds) {fields : List (Field (Typed σ))} {controls : List (Registered σ)}
    {a : Allocation σ} (done : ofFields fields controls = .ok a) : ∀ node ∈ a.nodes, holds node := by
  obtain ⟨made, allocated, whole⟩ := bind_eq_ok.mp done
  have each := lasting.addFields _ (List.forall_mem_nil _) allocated
  have controlled := addControls_controlled controls.zipIdx made
  rw [Except.ok.inj whole] at controlled
  obtain ⟨more, added, new⟩ := controlled.nodes
  rw [added]
  refine List.forall_mem_append.mpr ⟨each, fun node member => ?_⟩
  obtain ⟨position, control, -, rfl⟩ := new node member
  exact lasting.control position control

end Lasting

end Allocation

/-- A register is called after its entry, or after its value. -/
structure Node.Named (node : Node σ) : Prop where
  entry : ∀ chosen, node.entry = some chosen → node.name = chosen.entry.name
  constant : ∀ v, node.constant = some v → node.name = v.display

private theorem Allocation.lasting_named : Lasting (Node.Named (σ := σ)) where
  constant _ _ := ⟨fun _ same => (nomatch same), fun _ same => congrArg Value.display (Option.some.inj same)⟩
  call _ _ _ _ := ⟨fun _ same => congrArg (·.entry.name) (Option.some.inj same), fun _ same => nomatch same⟩
  control _ _ := ⟨fun _ same => congrArg (·.entry.name) (Option.some.inj same), fun _ same => nomatch same⟩
  mark _ _ named := ⟨named.entry, named.constant⟩

namespace Node

def output? (node : Node σ) : Option Output :=
  node.entry.map (·.entry.output)

/-- The source that a register chooses a branch for, and how many branches there are. -/
def source? (node : Node σ) : Option (String × Nat) :=
  match node.output?, node.type with
  | some (.variants elements), .variants source _ => some (source, elements.length)
  | _, _ => none

def element? (node : Node σ) (variant : Nat) : Option Element :=
  match node.output? with
  | some (.fixed element) => some element
  | some (.variants elements) => elements[variant]?
  | _ => none

/-- The element under which a register of some type and variant is exported for a field: the one that is declared, or the
catalog's if the field is called after the register, or a new one. -/
def exportedElement (node : Node σ) (variant : Nat) (field : Field (Typed σ)) (type : FieldType) : Element :=
  match field.declared with
  | some declared => declared
  | none =>
    if field.name = node.name then (node.element? variant).getD (.unregistered field.name type)
    else .unregistered field.name type

theorem source?_eq_some {node : Node σ} {source : String} {count : Nat} : node.source? = some (source, count) ↔
    ∃ elements branches, node.output? = some (.variants elements) ∧ node.type = .variants source branches ∧
      elements.length = count := by
  rw [source?]
  constructor
  · intro own
    split at own
    next elements _ branches several type =>
      cases own
      exact ⟨elements, branches, several, type, rfl⟩
    next => cases own
  · rintro ⟨elements, branches, several, type, rfl⟩
    rw [several, type]

end Node

namespace Program

/-- What the variants of registers choose for the sources of types. -/
def choice (p : Program σ φ) (variant : Nat → Nat) : Choice :=
  p.nodes.zipIdx.filterMap fun (node, r) => node.source?.map fun point => (point.1, variant r)

/-- Every register that chooses a branch has one of those that there are. -/
def Ranged (p : Program σ φ) (variant : Nat → Nat) : Prop :=
  ∀ r node source count, p.nodes[r]? = some node → node.source? = some (source, count) → variant r < count

theorem mem_choice {p : Program σ φ} {variant : Nat → Nat} {source : String} {branch : Nat} :
    (source, branch) ∈ p.choice variant ↔
      ∃ r node count, p.nodes[r]? = some node ∧ node.source? = some (source, count) ∧ variant r = branch := by
  rw [choice, List.mem_filterMap]
  constructor
  · rintro ⟨⟨node, r⟩, member, same⟩
    obtain ⟨⟨name, count⟩, own, same⟩ := Option.map_eq_some_iff.mp same
    cases same
    exact ⟨r, node, count, List.mem_zipIdx_iff_getElem?.mp member, own, rfl⟩
  · rintro ⟨r, node, count, found, own, rfl⟩
    exact ⟨(node, r), List.mem_zipIdx_iff_getElem?.mpr found, Option.map_eq_some_iff.mpr ⟨_, own, rfl⟩⟩

end Program

private theorem TypeTree.Choice.branch?_of_unique {choice : Choice} {source : String} {branch : Nat}
    (member : (source, branch) ∈ choice) (unique : ∀ other, (source, other) ∈ choice → other = branch) :
    choice.branch? source = some branch := by
  have found : (choice.find? (·.1 == source)).isSome = true :=
    List.find?_isSome.mpr ⟨(source, branch), member, beq_self_eq_true source⟩
  obtain ⟨⟨name, other⟩, found⟩ := Option.isSome_iff_exists.mp found
  have named := List.find?_some found
  obtain rfl : name = source := eq_of_beq named
  rw [branch?, found]
  exact congrArg some (unique other (List.mem_of_find?_eq_some found))

namespace Layout

variable {fields : List (Field (Typed σ))} {controls : List (Registered σ)} {p : Program σ φ}
variable (layout : Layout catalog limit fields controls p)
include layout

/-- A call with several types branches on its own signature. -/
theorem type_of_several {node : Node σ} {typing : Typing σ} {args : List (Typed σ)} {elements : List Element}
    (part : .call typing args ∈ fields.flatMap (·.tree.subtrees)) (made : Allocation.Made layout.made.registers node (.call typing args))
    (several : typing.binding.chosen.entry.output = .variants elements) :
    node.type = .variants typing.signature (elements.map .fixed) := by
  have typed := layout.callType_eq part made
  rw [Typed.callType, several] at typed
  exact (Except.ok.inj typed).symm

/-- The source that a register chooses a branch for is its own. -/
theorem registerOf_source {r : Nat} {node : Node σ} {source : String} {count : Nat} (found : p.nodes[r]? = some node)
    (own : node.source? = some (source, count)) : layout.whole.registerOf source = r := by
  obtain ⟨elements, branches, several, type, -⟩ := Node.source?_eq_some.mp own
  rcases layout.node_cases found with ⟨position, control, -, rfl⟩ | ⟨tree, part, denotes, made⟩
  · cases type
  · cases made with
    | constant plain type known args entry key =>
      rw [Node.output?, entry] at several
      cases several
    | call plain type' varies entry key each =>
      rw [Node.output?, entry] at several
      have branching := layout.type_of_several part (.call plain type' varies entry key each) (Option.some.inj several)
      cases type.symm.trans branching
      exact layout.registerOf_eq denotes

/-- The register of a branching point chooses between its branches. -/
theorem source?_of_point {source : String} {count : Nat} (point : (source, count) ∈ p.points) :
    ∃ node, p.nodes[layout.whole.registerOf source]? = some node ∧ node.source? = some (source, count) := by
  obtain ⟨typing, args, elements, node, part, rfl, several, rfl, found, made⟩ := layout.source point
  refine ⟨node, found, Node.source?_eq_some.mpr ⟨elements, elements.map .fixed, ?_, layout.type_of_several part made several, rfl⟩⟩
  cases made with
  | call plain type varies entry key each => rw [Node.output?, entry, Option.map_some, several]

theorem inside_of_ranged {variant : Nat → Nat} (ranged : p.Ranged variant) {source : String} {count : Nat}
    (point : (source, count) ∈ p.points) : variant (layout.whole.registerOf source) < count := by
  obtain ⟨node, found, own⟩ := layout.source?_of_point point
  exact ranged _ node source count found own

/-- The variants choose for a branching point what its register does. -/
theorem choice_branch? (variant : Nat → Nat) {source : String} {count : Nat} (point : (source, count) ∈ p.points) :
    (p.choice variant).branch? source = some (variant (layout.whole.registerOf source)) := by
  obtain ⟨node, found, own⟩ := layout.source?_of_point point
  refine TypeTree.Choice.branch?_of_unique (Program.mem_choice.mpr ⟨_, node, count, found, own, rfl⟩) fun other member => ?_
  obtain ⟨r, node', count', found', own', rfl⟩ := Program.mem_choice.mp member
  rw [layout.registerOf_source found' own']

/-- The variants choose one of the branches at each branching point. -/
theorem choice_covers {variant : Nat → Nat} (ranged : p.Ranged variant) : (p.choice variant).Covers p.points :=
  fun _ _ point => ⟨_, layout.inside_of_ranged ranged point, layout.choice_branch? variant point⟩

/-- The type that a choice gives a register has the catalog's element, or one that is called after the register. -/
theorem leaf_eq {variant : Nat → Nat} (ranged : p.Ranged variant) {r : Nat} {node : Node σ} (named : node.Named)
    (found : p.nodes[r]? = some node) {own : Element} (selected : node.type.select (p.choice variant) = .fixed own) :
    own = (node.element? (variant r)).getD (.unregistered node.name own.type) := by
  have covers := layout.choice_covers ranged
  rcases layout.node_cases found with ⟨position, control, -, rfl⟩ | ⟨tree, part, denotes, made⟩
  · cases selected
  · cases made with
    | constant plain type known args entry key =>
      rw [type] at selected
      cases selected
      rw [Node.element?, Node.output?, entry, named.constant _ known]
      rfl
    | call plain type varies entry key each =>
      rename_i typing args
      have made := Allocation.Made.call plain type varies entry key each
      have typed := layout.callType_eq part made
      rw [Node.element?, Node.output?, entry, Option.map_some, named.entry _ entry]
      cases given : typing.binding.chosen.entry.output with
      | untyped =>
        rw [Typed.callType, given] at typed
        rw [← Except.ok.inj typed] at selected
        cases selected
      | fixed element =>
        rw [Typed.callType, given] at typed
        rw [← Except.ok.inj typed] at selected
        cases selected
        rfl
      | variants elements =>
        obtain ⟨element, chosen, same⟩ := layout.select_variants part denotes found made given covers
          fun _ _ => layout.choice_branch? variant
        cases selected.symm.trans same
        simp only [chosen, Option.getD_some]
      | resolved resolve =>
        rw [layout.select_call part made given covers, TypeTree.combinedUnder] at selected
        split at selected
        · cases selected
        · rw [Typed.resolvedType] at selected
          split at selected
          · cases selected
            rfl
          · cases selected

/-- What is selected are the elements of all exports under the choice that the variants make. -/
theorem select_elements {variant : Nat → Nat} (ranged : p.Ranged variant) :
    (p.template.select variant).map Template.elements =
      (layout.whole.exports.map layout.whole.slot).mapM fun slot => slot.element? (slot.type.select (p.choice variant)) := by
  have alike : TemplateTree.template? (layout.whole.exports.map layout.whole.slot)
      (TemplateTree.chosen layout.whole.registerOf variant p.points) =
        TemplateTree.template? (layout.whole.exports.map layout.whole.slot) (p.choice variant) := by
    refine TemplateTree.template?_congr fun slot held => TypeTree.select_congr fun source count branching => ?_
    have point := layout.points_slots (List.mem_flatMap.mpr ⟨slot, held, branching⟩)
    rw [TemplateTree.chosen_branch? point, layout.choice_branch? variant point]
  rw [layout.select_template variant fun source count => layout.inside_of_ranged ranged, alike, TemplateTree.template?,
    Option.map_map]
  exact Option.map_id'

/-- A template has the elements under which registers are exported. -/
theorem element_shown (named : ∀ node ∈ p.nodes, node.Named) {variant : Nat → Nat} (ranged : p.Ranged variant) {e : Export}
    {field : Field (Typed σ)} (slots : layout.Slots e field) {element : Element}
    (chosen : (layout.whole.slot e).element? ((layout.whole.slot e).type.select (p.choice variant)) = some element) :
    ∃ node own, p.nodes[e.register]? = some node ∧ node.type.select (p.choice variant) = .fixed own ∧
      element = node.exportedElement (variant e.register) field own.type := by
  obtain ⟨node, found, -, slotted⟩ := slots.seen
  rw [slotted] at chosen
  obtain ⟨own, selected, -⟩ := TemplateTree.Slot.element?_eq_some chosen
  refine ⟨node, own, found, selected, ?_⟩
  have catalogued := layout.leaf_eq ranged (named node (List.mem_of_getElem? found)) found selected
  rw [selected, TemplateTree.Slot.element?] at chosen
  rw [Node.exportedElement]
  cases declared : field.declared with
  | some element' =>
    rw [declared] at chosen
    exact (Option.some.inj chosen).symm
  | none =>
    rw [declared] at chosen
    rw [← Option.some.inj chosen]
    dsimp only
    split
    next same => rw [same, ← catalogued]
    next => rfl

end Layout

namespace TemplateTree

private theorem Slot.exists_element? {slot : Slot} {leaf : TypeTree} :
    (∃ element, slot.element? leaf = some element) ↔ ∃ own, leaf = .fixed own := by
  constructor
  · rintro ⟨element, found⟩
    obtain ⟨own, fixed, -⟩ := element?_eq_some found
    exact ⟨own, fixed⟩
  · rintro ⟨own, rfl⟩
    rw [element?]
    split <;> exact ⟨_, rfl⟩

mutual
/-- Templates are numbered from left to right. -/
theorem templates_number (tree : TemplateTree) (next : Nat) :
    (tree.number next).1.templates.map (·.id) = List.range' next tree.templates.length ∧
      (tree.number next).2 = next + tree.templates.length := by
  match tree with
  | .leaf none => exact ⟨rfl, rfl⟩
  | .leaf (some template) => exact ⟨rfl, rfl⟩
  | .choice register alternatives => exact allTemplates_number alternatives next
termination_by structural tree

theorem allTemplates_number (trees : List TemplateTree) (next : Nat) :
    (allTemplates (numberAll trees next).1).map (·.id) = List.range' next (allTemplates trees).length ∧
      (numberAll trees next).2 = next + (allTemplates trees).length := by
  match trees with
  | [] => exact ⟨rfl, rfl⟩
  | tree :: trees =>
    obtain ⟨first, then_⟩ := templates_number tree next
    obtain ⟨rest, last⟩ := allTemplates_number trees (tree.number next).2
    rw [numberAll, allTemplates, allTemplates, List.map_append, first, rest, last, then_, List.length_append, Nat.add_assoc]
    exact ⟨List.range'_append_1, rfl⟩
termination_by structural trees
end

theorem ofSlots_numbered {registerOf : String → Nat} {slots : List Slot} {tree : TemplateTree}
    (built : ofSlots limit registerOf slots = .ok tree) : tree.templates.map (·.id) = List.range tree.templates.length := by
  obtain rfl := collapse_of_ofSlots built
  have numbered := (templates_number (enumerate slots registerOf (TypeTree.sources (slots.map (·.type))) []).collapse 0).1
  have length := congrArg List.length numbered
  rw [List.length_map, List.length_range'] at length
  rw [numbered, length, List.range_eq_range']

theorem allTemplates_eq_flatMap (trees : List TemplateTree) : allTemplates trees = trees.flatMap templates := by
  induction trees with
  | nil => rfl
  | cons tree trees ih => rw [allTemplates, ih, List.flatMap_cons]

theorem mem_templates_of_select {variant : Nat → Nat} {tree : TemplateTree} {template : Template}
    (selected : tree.select variant = some template) : template ∈ tree.templates := by
  induction tree using induct with
  | leaf found =>
    rw [select] at selected
    rw [templates, selected]
    exact List.mem_singleton_self template
  | choice register alternatives ih =>
    rw [select, selectAt_eq] at selected
    obtain ⟨tree, taken, selected⟩ := Option.bind_eq_some_iff.mp selected
    have member := List.mem_of_getElem? taken
    rw [templates, allTemplates_eq_flatMap]
    exact List.mem_flatMap.mpr ⟨tree, member, ih tree member selected⟩

end TemplateTree

theorem Json.label_declared (composite? : String → Option Composite) (json : Json) (expanded : Expression) :
    (json.label composite? expanded).2 = (json.calledComposite? composite?).bind (·.declared) := by
  rw [label]
  split
  next called => rw [called, Option.bind_some]
  next called => rw [called, Option.bind_none]

private theorem forall₂_zip {α β γ : Type} {first : α → β → Prop} {second : α → γ → Prop} {as : List α} {bs : List β} {cs : List γ}
    (left : List.Forall₂ first as bs) (right : List.Forall₂ second as cs) :
    List.Forall₂ (fun (item : α × β) c => first item.1 item.2 ∧ second item.1 c) (as.zip bs) cs := by
  induction left generalizing cs with
  | nil =>
    cases right
    exact .nil
  | cons one rest ih =>
    cases right with
    | cons one' rest' => exact .cons ⟨one, one'⟩ (ih rest')

/-- The templates of a program agree with the types that the variants of its registers choose. The exported fields are
given. -/
structure Program.Templated (p : Program σ φ) (exported : List (Field (Typed σ))) : Prop where
  names : p.fields = exported.map (·.name)
  count : p.exports.length = exported.length
  selects : ∀ variant, p.Ranged variant → ((∃ t, p.template.select variant = some t) ↔
    ∀ r ∈ p.exports, ∃ own, (p.typeOf (.register r)).select (p.choice variant) = .fixed own)
  shows : ∀ variant t, p.Ranged variant → p.template.select variant = some t →
    List.Forall₂ (fun (item : Nat × Field (Typed σ)) element => ∃ node own, p.nodes[item.1]? = some node ∧
        node.type.select (p.choice variant) = .fixed own ∧
        element = node.exportedElement (variant item.1) item.2 own.type)
      (p.exports.zip exported) t.elements
  numbers : p.template.templates.map (·.id) = List.range p.template.templates.length
  listed : ∀ variant t, p.template.select variant = some t → t ∈ p.template.templates

namespace Specification

variable {s : Specification} {p : Program σ φ}

/-- The names of exports are those of the exported features. -/
theorem Stages.fields_eq (stages : Stages catalog limit s p) :
    p.fields = (stages.typed.filter (!·.tree.isRaw)).map (·.name) := by
  have slots := List.forall₂_map_left_iff.mp (Allocation.ofFields_slots stages.wellTyped stages.allocated)
  rw [Allocation.program_fields stages.finished, ← exportedItems_fst, List.map_map, ← List.forall₂_eq_eq_eq,
    List.forall₂_map_left_iff, List.forall₂_map_right_iff]
  refine slots.imp fun e item seen => ?_
  rw [Function.comp_apply, ← seen.1, Allocation.slot]
  split <;> rfl

private theorem Stages.templated (stages : Stages catalog limit s p) : p.Templated (stages.typed.filter (!·.tree.isRaw)) := by
  obtain ⟨layout⟩ := stages.layout
  have slots := layout.slots
  refine ⟨stages.fields_eq, ?_, fun variant ranged => ?_, fun variant t ranged selected => ?_,
    TemplateTree.ofSlots_numbered layout.template, fun _ _ => TemplateTree.mem_templates_of_select⟩
  · rw [layout.exports, List.length_map, slots.length_eq]
  · have chosen : (∃ t, p.template.select variant = some t) ↔ ∀ slot ∈ layout.whole.exports.map layout.whole.slot,
        ∃ own, slot.type.select (p.choice variant) = .fixed own := by
      have elements := layout.select_elements ranged
      constructor
      · rintro ⟨t, selected⟩ slot held
        rw [selected, Option.map_some] at elements
        obtain ⟨element, -, found⟩ := forall₂_mem_left (forall₂_of_mapM elements.symm) held
        exact TemplateTree.Slot.exists_element?.mp ⟨element, found⟩
      · intro fixed
        obtain ⟨listed, done⟩ := exists_mapM fun slot held => TemplateTree.Slot.exists_element?.mpr (fixed slot held)
        rw [done] at elements
        obtain ⟨t, selected, -⟩ := Option.map_eq_some_iff.mp elements
        exact ⟨t, selected⟩
    rw [chosen, layout.exports, List.forall_mem_map, List.forall_mem_map]
    refine forall₂_congr fun e held => ?_
    obtain ⟨field, -, -, node, found, -, slotted⟩ := forall₂_mem_left slots held
    rw [slotted, Program.typeOf_register found]
  · have named : ∀ node ∈ p.nodes, node.Named := by
      rw [Allocation.program_nodes stages.finished]
      exact Allocation.lasting_named.ofFields stages.allocated
    have elements := layout.select_elements ranged
    rw [selected, Option.map_some] at elements
    have each := List.forall₂_map_left_iff.mp (forall₂_of_mapM elements.symm)
    rw [layout.exports, List.zip_map_left, List.forall₂_map_left_iff]
    exact (forall₂_zip slots each).imp fun item element ⟨slots, chosen⟩ => layout.element_shown named ranged slots chosen

private theorem prepareField_declared {json : Json} {field : Field (Typed σ)} (prepared : prepareField catalog limit json = .ok field) :
    field.declared = (json.calledComposite? catalog.composite?).bind (·.declared) := by
  obtain ⟨expanded, -, -, -, declared⟩ := prepareField_label.mp prepared
  rw [declared, Json.label_declared]

/-- The templates of a program agree with the types of its exported registers, and a template is only refused where the
exported features up to some feature have too many choices. -/
theorem compile_templates_agree
    (nonempty : ∀ entry ∈ catalog.entries, ∀ elements, entry.output = .variants elements → elements ≠ [])
    (small : limit < Word.maxUnsigned) :
    (∀ p, s.compile catalog limit = .ok p → ∃ fields,
      List.Forall₂ (fun json (field : Field (Typed σ)) => prepareField catalog limit json = .ok field ∧
        field.declared = (json.calledComposite? catalog.composite?).bind (·.declared)) s.features fields ∧
      p.Templated (fields.filter (!·.tree.isRaw))) ∧
    ∀ fields controls filters a e, s.prepared catalog limit = .ok (fields, controls, filters) →
      Allocation.ofFields fields controls = .ok a →
      (s.compile catalog limit = .error e ↔ ∃ (i : Nat) (field : Field (Typed σ)), fields[i]? = some field ∧
        field.tree.isRaw = false ∧ limit < TypeTree.choices (fieldPoints (fields.take (i + 1))) ∧
        (∀ (j : Nat) (other : Field (Typed σ)), j < i → fields[j]? = some other → other.tree.isRaw = false →
          TypeTree.choices (fieldPoints (fields.take (j + 1))) ≤ limit) ∧
        e = ⟨i + 1, field.name,
          .tooManyVariants (min (TypeTree.choices (fieldPoints (fields.take (i + 1)))) Word.maxUnsigned) limit⟩) := by
  refine ⟨fun p compiled => ?_, fun fields controls filters a e => compile_error_templates nonempty small⟩
  obtain ⟨stages⟩ := compile_stages compiled
  have prepared := stages.prepared
  refine ⟨stages.typed, ?_, stages.templated⟩
  exact prepared.imp fun json field done => ⟨done, prepareField_declared done⟩

def bothEnds : Specification :=
  .ofFeatures [.string "sourceIPAddress", .string "destinationIPAddress"]

theorem compile_templates_agree_ends :
    (∃ p t, bothEnds.compile Library.catalog 4 = .ok p ∧ p.Ranged (fun _ => 1) ∧
      p.template.select (fun _ => 1) = some t ∧ t.names = ["sourceIPv6Address", "destinationIPv6Address"] ∧
      ∀ r ∈ p.exports, ∃ own, (p.typeOf (.register r)).select (p.choice fun _ => 1) = .fixed own) ∧
    bothEnds.compile Library.catalog 3 = .error ⟨2, "destinationIPAddress", .tooManyVariants 4 3⟩ ∧
    ∃ fields controls filters, bothEnds.prepared Library.catalog 3 = .ok (fields, controls, filters) ∧
      ∃ i, 3 < TypeTree.choices (fieldPoints (fields.take (i + 1))) := by
  have selects : (bothEnds.compile Library.catalog 4).toOption.any (fun p =>
      p.nodes.all (fun node => node.source?.all fun point => 1 < point.2) &&
        (p.template.select fun _ => 1).map Template.names == some ["sourceIPv6Address", "destinationIPv6Address"]) = true := by
    decide +kernel
  have allocates : (bothEnds.prepared Library.catalog 3 >>= fun prepared =>
      Allocation.ofFields prepared.1 prepared.2.1).isOk = true := by decide +kernel
  have failed : bothEnds.compile Library.catalog 3 = .error ⟨2, "destinationIPAddress", .tooManyVariants 4 3⟩ := by rfl
  refine ⟨?_, failed, ?_⟩
  · cases compiled : bothEnds.compile Library.catalog 4 with
    | error problem =>
      rw [compiled] at selects
      cases selects
    | ok p =>
      rw [compiled] at selects
      obtain ⟨ranged, selected⟩ := Bool.and_eq_true_iff.mp selects
      obtain ⟨t, selected, names⟩ := Option.map_eq_some_iff.mp (eq_of_beq selected)
      have ranged : p.Ranged (fun _ => 1) := by
        intro r node source count found own
        have inside := List.all_eq_true.mp ranged node (List.mem_of_getElem? found)
        rw [own] at inside
        exact of_decide_eq_true inside
      obtain ⟨fields, -, templated⟩ := (compile_templates_agree library_variants_nonempty (by decide)).1 p compiled
      exact ⟨p, t, rfl, ranged, selected, names, (templated.selects _ ranged).mp ⟨t, selected⟩⟩
  · obtain ⟨a, allocated⟩ := ok_of_isOk allocates
    obtain ⟨⟨fields, controls, filters⟩, prepared, allocated⟩ := bind_eq_ok.mp allocated
    obtain ⟨i, field, -, -, many, -⟩ := ((compile_templates_agree library_variants_nonempty (by decide)).2
      fields controls filters a _ prepared allocated).mp failed
    exact ⟨fields, controls, filters, prepared, i, many⟩

end Specification

end FlowMetering
