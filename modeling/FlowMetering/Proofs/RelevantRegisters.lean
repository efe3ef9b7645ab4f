import FlowMetering.Proofs.SelectedTemplates

/-! Variant registers. A tree that branches on all registers in turn is determined by what it selects, so where a register
makes no difference its alternatives are equal and collapse. The registers that are left are those on which the selection of
templates depends. -/

namespace FlowMetering

/-- Some variants that are allowed and differ at one register only have different outcomes. -/
def DependsOn {α : Type} (outcome : (Nat → Nat) → α) (allowed : (Nat → Nat) → Prop) (r : Nat) : Prop :=
  ∃ variant variant', allowed variant ∧ allowed variant' ∧ (∀ q, q ≠ r → variant q = variant' q) ∧
    outcome variant ≠ outcome variant'

namespace TemplateTree

/-- The tree branches on some registers in turn. Each comes with the number of its alternatives. -/
inductive Layered : List (Nat × Nat) → TemplateTree → Prop
  | bottom (template : Option Template) : Layered [] (leaf template)
  | layer {register count : Nat} {layers : List (Nat × Nat)} {alternatives : List TemplateTree}
    (sized : alternatives.length = count) (each : ∀ tree ∈ alternatives, Layered layers tree) :
    Layered ((register, count) :: layers) (choice register alternatives)

def Fits (layers : List (Nat × Nat)) (variant : Nat → Nat) : Prop :=
  ∀ layer ∈ layers, variant layer.1 < layer.2

variable {layers : List (Nat × Nat)} {tree : TemplateTree}

private theorem Fits.update {register count i : Nat} {variant : Nat → Nat} (fits : Fits layers variant) (inside : i < count)
    (fresh : register ∉ layers.map (·.1)) : Fits ((register, count) :: layers) (Function.update variant register i) := by
  intro layer member
  rcases List.mem_cons.mp member with rfl | member
  · simpa using inside
  · have other : layer.1 ≠ register := fun same => fresh (same ▸ List.mem_map_of_mem member)
    simpa [other] using fits layer member

namespace Layered

private theorem branchings (layered : Layered layers tree) : tree.branchings ⊆ layers.map (·.1) := by
  induction layered with
  | bottom => exact List.Subset.refl []
  | layer sized each ih =>
    rw [TemplateTree.branchings, allBranchings_eq_flatMap]
    apply List.cons_subset_cons
    intro r inside
    obtain ⟨tree, member, inside⟩ := List.mem_flatMap.mp inside
    exact ih tree member inside

private theorem inRange (layered : Layered layers tree) {variant : Nat → Nat} (fits : Fits layers variant) :
    InRange variant tree := by
  induction layered with
  | bottom template => exact .leaf template
  | layer sized each ih =>
    obtain ⟨first, rest⟩ := List.forall_mem_cons.mp fits
    exact .choice (sized ▸ first) fun tree member => ih tree member rest

section Layer

variable {register count : Nat} {alternatives : List TemplateTree} (sized : alternatives.length = count)
variable (each : ∀ tree ∈ alternatives, Layered layers tree) (fresh : register ∉ layers.map (·.1))
include each fresh

private theorem select_update {i : Nat} (inside : i < alternatives.length) (variant : Nat → Nat) :
    (choice register alternatives).select (Function.update variant register i) = alternatives[i].select variant := by
  have member := List.getElem_mem inside
  rw [select, selectAt_eq, Function.update_self, List.getElem?_eq_getElem inside]
  apply select_congr
  intro q branching
  apply Function.update_of_ne
  rintro rfl
  exact fresh ((each _ member).branchings branching)

include sized

private theorem dependsOn_choice {r : Nat} (member : tree ∈ alternatives)
    (depends : DependsOn (select · tree) (Fits layers) r) :
    DependsOn (select · (choice register alternatives)) (Fits ((register, count) :: layers)) r := by
  obtain ⟨variant, variant', fits, fits', alike, differ⟩ := depends
  obtain ⟨i, inside, rfl⟩ := List.getElem_of_mem member
  have within : i < count := sized ▸ inside
  refine ⟨Function.update variant register i, Function.update variant' register i, fits.update within fresh,
    fits'.update within fresh, ?_, ?_⟩
  · intro q apart
    by_cases own : q = register
    · rw [own, Function.update_self, Function.update_self]
    · rw [Function.update_of_ne own, Function.update_of_ne own]
      exact alike q apart
  · dsimp only at differ ⊢
    rwa [select_update each fresh inside, select_update each fresh inside]

end Layer

private theorem unique {a b : TemplateTree} (distinct : (layers.map (·.1)).Nodup) (layered : Layered layers a)
    (layered' : Layered layers b) (same : ∀ variant, Fits layers variant → a.select variant = b.select variant) : a = b := by
  induction layered generalizing b with
  | bottom template =>
    cases layered'
    have all : Fits [] fun _ => 0 := nofun
    exact congrArg TemplateTree.leaf (same _ all)
  | @layer register count layers alternatives sized each ih =>
    cases layered' with
    | @layer _ _ _ others sized' each' =>
      obtain ⟨fresh, apart⟩ := List.nodup_cons.mp distinct
      apply congrArg (TemplateTree.choice register)
      apply List.ext_getElem (sized.trans sized'.symm)
      intro i inside inside'
      apply ih _ (List.getElem_mem inside) apart (each' _ (List.getElem_mem inside'))
      intro variant fits
      rw [← select_update each fresh inside, ← select_update each' fresh inside']
      exact same _ (fits.update (sized ▸ inside) fresh)

private theorem dependsOn_register {register count : Nat} {alternatives : List TemplateTree} (sized : alternatives.length = count)
    (each : ∀ tree ∈ alternatives, Layered layers tree) (distinct : (register :: layers.map (·.1)).Nodup)
    {one other : TemplateTree} (held : one ∈ alternatives) (held' : other ∈ alternatives) (differ : one ≠ other) :
    DependsOn (select · (choice register alternatives)) (Fits ((register, count) :: layers)) register := by
  obtain ⟨fresh, apart⟩ := List.nodup_cons.mp distinct
  obtain ⟨variant, fits, differ⟩ : ∃ variant, Fits layers variant ∧ one.select variant ≠ other.select variant := by
    by_contra! same
    exact differ (unique apart (each one held) (each other held') same)
  obtain ⟨i, inside, rfl⟩ := List.getElem_of_mem held
  obtain ⟨j, inside', rfl⟩ := List.getElem_of_mem held'
  refine ⟨Function.update variant register i, Function.update variant register j, fits.update (sized ▸ inside) fresh,
    fits.update (sized ▸ inside') fresh, ?_, ?_⟩
  · intro q away
    rw [Function.update_of_ne away, Function.update_of_ne away]
  · dsimp only
    rwa [select_update each fresh inside, select_update each fresh inside']

private theorem dependsOn_of_collapse (distinct : (layers.map (·.1)).Nodup) (layered : Layered layers tree) {r : Nat}
    (left : r ∈ tree.collapse.branchings) : DependsOn (select · tree) (Fits layers) r := by
  induction layered with
  | bottom => exact absurd left List.not_mem_nil
  | @layer register count layers alternatives sized each ih =>
    obtain ⟨fresh, apart⟩ := List.nodup_cons.mp distinct
    have below (tree : TemplateTree) (member : tree ∈ alternatives) (left : r ∈ tree.collapse.branchings) :
        DependsOn (select · (choice register alternatives)) (Fits ((register, count) :: layers)) r :=
      dependsOn_choice sized each fresh member (ih tree member apart left)
    rcases collapse_choice register alternatives with
      ⟨-, collapsed⟩ | ⟨tree, alike, collapsed⟩ | ⟨⟨one, held, other, held', differ⟩, collapsed⟩
    · rw [collapsed] at left
      exact absurd left List.not_mem_nil
    · cases alternatives with
      | nil => exact absurd left List.not_mem_nil
      | cons first rest =>
        rw [collapsed, ← alike first List.mem_cons_self] at left
        exact below first List.mem_cons_self left
    · rw [collapsed, TemplateTree.branchings, allBranchings_eq_flatMap, List.mem_cons, List.mem_flatMap] at left
      rcases left with rfl | ⟨_, mapped, left⟩
      · exact dependsOn_register sized each distinct held held' fun same => differ (congrArg collapse same)
      · obtain ⟨tree, member, rfl⟩ := List.mem_map.mp mapped
        exact below tree member left

end Layered

section Slots

variable {slots : List Slot} {registerOf : String → Nat}

/-- The registers of some sources, with the numbers of their branches. -/
def branches (registerOf : String → Nat) (sources : List (String × Nat)) : List (Nat × Nat) :=
  sources.map fun point => (registerOf point.1, point.2)

theorem layered_enumerate (sources : List (String × Nat)) (taken : TypeTree.Choice) :
    Layered (branches registerOf sources) (enumerate slots registerOf sources taken) := by
  induction sources generalizing taken with
  | nil => exact .bottom _
  | cons point sources ih =>
    apply Layered.layer
    · simp
    · intro tree member
      obtain ⟨i, -, rfl⟩ := List.mem_map.mp member
      exact ih _

/-- Before they are numbered, templates with the same elements are equal. -/
theorem template?_inj {choice choice' : TypeTree.Choice}
    (same : (template? slots choice).map Template.elements = (template? slots choice').map Template.elements) :
    template? slots choice = template? slots choice' := by
  have whole (choice : TypeTree.Choice) :
      template? slots choice = ((template? slots choice).map Template.elements).map (⟨0, ·⟩) := by
    rw [template?]
    cases slots.mapM fun (slot : Slot) => slot.element? (slot.type.select choice) <;> rfl
  rw [whole choice, same, ← whole choice']

theorem branchings_ofSlots {limit : Nat} (built : ofSlots limit registerOf slots = .ok tree) :
    tree.branchings ⊆ (branches registerOf (TypeTree.sources (slots.map (·.type)))).map (·.1) := by
  rw [collapse_of_ofSlots built, branchings_number]
  exact List.Subset.trans (branchings_collapse _) (layered_enumerate _ []).branchings

/-- The templates of some fields depend on each of their registers. -/
theorem dependsOn_of_mem_registers {limit : Nat} (built : ofSlots limit registerOf slots = .ok tree)
    (distinct : ((branches registerOf (TypeTree.sources (slots.map (·.type)))).map (·.1)).Nodup) {r : Nat}
    (member : r ∈ tree.registers) : DependsOn (fun variant => (tree.select variant).map Template.elements)
      (Fits (branches registerOf (TypeTree.sources (slots.map (·.type))))) r := by
  have layered : Layered _ (enumerate slots registerOf (TypeTree.sources (slots.map (·.type))) []) := layered_enumerate _ []
  rw [collapse_of_ofSlots built] at member ⊢
  rw [mem_registers, branchings_number] at member
  obtain ⟨variant, variant', fits, fits', alike, differ⟩ := layered.dependsOn_of_collapse distinct member
  refine ⟨variant, variant', fits, fits', alike, fun same => differ ?_⟩
  dsimp only at same ⊢
  rw [select_number, select_number, select_collapse (layered.inRange fits), select_collapse (layered.inRange fits')] at same
  rw [select_enumerate (List.forall_mem_map.mp fits), select_enumerate (List.forall_mem_map.mp fits')] at same ⊢
  exact template?_inj same

end Slots

end TemplateTree

variable {σ φ : Type} {catalog : Catalog σ φ} {limit : Nat}

/-- The type of one register branches on the choice that another one makes. -/
def Program.BranchesOn (p : Program σ φ) (e r : Nat) : Prop :=
  ∃ node source count, p.nodes[r]? = some node ∧ node.source? = some (source, count) ∧
    (source, count) ∈ (p.typeOf (.register e)).branchings

namespace Layout

variable {fields : List (Field (Typed σ))} {controls : List (Registered σ)} {p : Program σ φ}
variable (layout : Layout catalog limit fields controls p)
include layout

/-- The registers that templates may branch on, with the numbers of their alternatives. -/
def layers : List (Nat × Nat) :=
  TemplateTree.branches layout.whole.registerOf
    (TypeTree.sources ((layout.whole.exports.map layout.whole.slot).map (·.type)))

theorem mem_layers {r count : Nat} (member : (r, count) ∈ layout.layers) :
    ∃ node source, p.nodes[r]? = some node ∧ node.source? = some (source, count) := by
  obtain ⟨⟨source, count⟩, inside, same⟩ := List.mem_map.mp member
  cases same
  have collected := (TypeTree.collected_sources _).subset inside
  rw [List.flatMap_map] at collected
  obtain ⟨node, found, own⟩ := layout.source?_of_point (layout.points_slots collected)
  exact ⟨node, source, found, own⟩

theorem nodup_layers : (layout.layers.map (·.1)).Nodup := by
  have collected := TypeTree.collected_sources ((layout.whole.exports.map layout.whole.slot).map (·.type))
  rw [layers, TemplateTree.branches, List.map_map]
  apply List.Nodup.map_on _ collected.distinct.of_map
  rintro ⟨source, count⟩ member ⟨source', count'⟩ member' same
  have points := collected.subset
  rw [List.flatMap_map] at points
  obtain ⟨node, found, own⟩ := layout.source?_of_point (layout.points_slots (points member))
  obtain ⟨node', found', own'⟩ := layout.source?_of_point (layout.points_slots (points member'))
  have same : layout.whole.registerOf source = layout.whole.registerOf source' := same
  rw [same, found'] at found
  cases found
  exact Option.some.inj (own.symm.trans own')

variable (nonempty : ∀ entry ∈ catalog.entries, ∀ elements, entry.output = .variants elements → elements ≠ [])
include nonempty

theorem positive_source {r : Nat} {node : Node σ} {source : String} {count : Nat} (found : p.nodes[r]? = some node)
    (own : node.source? = some (source, count)) : 0 < count := by
  obtain ⟨elements, branches, several, type, rfl⟩ := Node.source?_eq_some.mp own
  rcases layout.node_cases found with ⟨position, control, -, rfl⟩ | ⟨tree, part, denotes, made⟩
  · cases type
  · cases made with
    | constant plain type known args entry key =>
      rw [Node.output?, entry] at several
      cases several
    | call plain type varies entry key each =>
      rw [Node.output?, entry] at several
      cases layout.wellTyped part with
      | call registered key' typed inside =>
        exact List.length_pos_iff.mpr (nonempty _ (Catalog.mem_entries registered) elements (Option.some.inj several))

/-- Variants of the registers of the template can be completed to variants of all registers. -/
theorem ranged_of_fits {variant : Nat → Nat} (fits : TemplateTree.Fits layout.layers variant) :
    p.Ranged fun q => if q ∈ layout.layers.map (·.1) then variant q else 0 := by
  intro q node source count found own
  dsimp only
  split
  next known =>
    obtain ⟨⟨_, count'⟩, member, rfl⟩ := List.mem_map.mp known
    obtain ⟨node', source', found', own'⟩ := layout.mem_layers member
    cases found.symm.trans found'
    cases own.symm.trans own'
    exact fits _ member
  next => exact layout.positive_source nonempty found own

/-- The selection of templates depends on each register of the template. -/
theorem dependsOn_of_mem_variants {r : Nat} (member : r ∈ p.variants) :
    DependsOn (fun variant => (p.template.select variant).map Template.elements) p.Ranged r := by
  obtain ⟨variant, variant', fits, fits', alike, differ⟩ :=
    TemplateTree.dependsOn_of_mem_registers layout.template layout.nodup_layers member
  have within : p.template.branchings ⊆ layout.layers.map (·.1) := TemplateTree.branchings_ofSlots layout.template
  refine ⟨_, _, layout.ranged_of_fits nonempty fits, layout.ranged_of_fits nonempty fits', ?_, ?_⟩
  · intro q apart
    rw [alike q apart]
  · have same (variant : Nat → Nat) : p.template.select (fun q => if q ∈ layout.layers.map (·.1) then variant q else 0) =
        p.template.select variant := TemplateTree.select_congr fun q inside => if_pos (within inside)
    simpa only [same] using differ

end Layout

namespace Specification

variable {s : Specification} {p : Program σ φ}

/-- The variant registers of a program are those for which the type of an export branches and on which the elements of the
selected template depend. -/
theorem compile_variants_minimal
    (nonempty : ∀ entry ∈ catalog.entries, ∀ elements, entry.output = .variants elements → elements ≠ [])
    (compiled : s.compile catalog limit = .ok p) (r : Nat) :
    r ∈ p.variants ↔ (∃ e ∈ p.exports, p.BranchesOn e r) ∧
      DependsOn (fun variant => (p.template.select variant).map Template.elements) p.Ranged r := by
  obtain ⟨stages⟩ := compile_stages compiled
  obtain ⟨layout⟩ := stages.layout
  constructor
  · intro member
    refine ⟨?_, layout.dependsOn_of_mem_variants nonempty member⟩
    obtain ⟨source, count, point, rfl⟩ := TemplateTree.registers_ofSlots layout.template member
    obtain ⟨node, found, own⟩ := layout.source?_of_point (layout.points_slots point)
    obtain ⟨slot, held, branching⟩ := List.mem_flatMap.mp point
    obtain ⟨e, exported, rfl⟩ := List.mem_map.mp held
    refine ⟨e.register, layout.exports ▸ List.mem_map_of_mem exported, node, source, count, found, own, ?_⟩
    rw [Allocation.slot] at branching
    split at branching
    next own found => exact Program.typeOf_register (layout.nodes ▸ found) ▸ branching
    next => exact absurd branching List.not_mem_nil
  · rintro ⟨-, variant, variant', -, -, alike, differ⟩
    by_contra away
    apply differ
    refine congrArg (Option.map Template.elements) (TemplateTree.select_congr fun q inside => alike q ?_)
    rintro rfl
    exact away (TemplateTree.mem_registers.mpr inside)

/-- Two flow features with two types each. The types of the first one are alike. -/
def twinCatalog : Catalog Unit Unit :=
  let feature (name : String) (first second : FieldType) : Entry Unit :=
    ⟨name, .flowFeature, [.rawFlow], .variants [.unregistered name first, .unregistered name second], some fun _ => (), false⟩
  ⟨[feature "twin" .unsigned8 .unsigned8, feature "endpoint" .ipv4Address .ipv6Address], [], []⟩

def twins : Specification :=
  .ofFeatures [.string "twin", .string "endpoint"]

theorem compile_variants_minimal_twins : ∃ p, twins.compile twinCatalog 4 = .ok p ∧ p.variants = [1] ∧ p.BranchesOn 0 0 ∧
    ¬DependsOn (fun variant => (p.template.select variant).map Template.elements) p.Ranged 0 ∧
    DependsOn (fun variant => (p.template.select variant).map Template.elements) p.Ranged 1 := by
  have nonempty : ∀ entry ∈ twinCatalog.entries, ∀ elements, entry.output = .variants elements → elements ≠ [] := by
    intro entry member elements several
    simp only [twinCatalog, List.mem_cons, List.not_mem_nil, or_false] at member
    rcases member with rfl | rfl <;> (cases several; exact List.cons_ne_nil _ _)
  have facts : (twins.compile twinCatalog 4).toOption.any (fun p => decide (p.variants = [1] ∧ p.exports = [0, 1] ∧
      (p.nodes[0]?.bind Node.source?).any (fun point => (p.typeOf (.register 0)).branchings.contains point) = true)) = true := by
    decide +kernel
  obtain ⟨p, compiled, variants, exports, branches⟩ := ok_of_any facts
  obtain ⟨⟨source, count⟩, own, branching⟩ := (Option.any_eq_true _ _).mp branches
  obtain ⟨node, found, own⟩ := Option.bind_eq_some_iff.mp own
  have own : p.BranchesOn 0 0 := ⟨node, source, count, found, own, List.contains_iff_mem.mp branching⟩
  have minimal := compile_variants_minimal nonempty compiled
  refine ⟨p, compiled, variants, own, ?_, ((minimal 1).mp (by simp [variants])).2⟩
  intro depends
  have member := (minimal 0).mpr ⟨⟨0, by simp [exports], own⟩, depends⟩
  simp [variants] at member

end Specification

end FlowMetering
