import FlowMetering.Proofs.SelectedTemplates
import FlowMetering.Proofs.SingleFamilies

/-! Templates of flows of one address family. Whatever a specification asks for, its records can be exported where all
sources have chosen the first family and where all have chosen the second, and then no field is of the other family. -/

namespace FlowMetering

theorem FieldType.inFamily_inFamily (n : Nat) (type : FieldType) : (type.inFamily n).inFamily n = type.inFamily n := by
  cases type with
  | ipv4Address | ipv6Address =>
    simp only [inFamily]
    split <;> simp_all
  | _ => rfl

private theorem TypeTree.Moves.inFamily {n : Nat} {leaf : TypeTree} {own : Element} (moves : Moves n leaf (.fixed own)) :
    own.type.inFamily n = own.type := by
  cases moves with
  | fixed same => rw [same, FieldType.inFamily_inFamily]

namespace Library

variable {limit : Nat} {s : Specification} {p : Program Instance PacketFilter}

section Stages

variable (stages : Specification.Stages catalog limit s p)
variable (layout : Layout catalog limit stages.typed stages.controls p)
include layout

variable {n : Nat} (inside : n < 2)
include inside

private theorem inFamily_of_select {uniform : TypeTree.Choice}
    (same : ∀ source count, (source, count) ∈ p.points → uniform.branch? source = some n)
    {field : Field (Typed Instance)} (member : field ∈ stages.typed) {own : Element}
    (selected : (Typed.type field.tree).select uniform = .fixed own) : own.type.inFamily n = own.type := by
  have covers : uniform.Covers p.points := fun source count point =>
    ⟨n, count_of_point stages layout point ▸ inside, same source count point⟩
  have part : field.tree ∈ stages.typed.flatMap (·.tree.subtrees) :=
    List.mem_flatMap.mpr ⟨field, member, Tree.mem_subtrees_self _⟩
  obtain ⟨choice, covering, alive⟩ := alive_part layout part (positive_points stages layout) covers
  have moves := moves_part layout inside covering same covers part alive
  rw [selected] at moves
  exact moves.inFamily

private theorem inFamily_of_template {t : Template} (selected : p.template.select (fun _ => n) = some t) :
    t.elements.length = p.exports.length ∧ ∀ element ∈ t.elements, element.type.inFamily n = element.type := by
  have shown := layout.shown (fun source count point => count_of_point stages layout point ▸ inside) selected
  refine ⟨shown.length_eq.symm, ?_⟩
  intro element member
  obtain ⟨r, -, field, node, shows⟩ := forall₂_mem_right shown member
  obtain ⟨own, leaf, declared | ⟨-, type⟩⟩ := shows.element
  · obtain ⟨composite, listed, declared, -⟩ := declared_field stages shows.member declared
    rw [(declared_unsigned limit composite listed element declared).1]
    rfl
  · rw [shows.made.type_eq] at leaf
    rw [type]
    exact inFamily_of_select stages layout inside (fun _ _ point => TemplateTree.chosen_branch? point) shows.member leaf

end Stages

/-- Where all registers on whose variants the template depends have chosen the same family there is a template, and all its
fields are of this family. So there are templates for every program. -/
theorem compile_selects_families (compiled : s.compile catalog limit = .ok p) :
    (∀ n < 2, ∀ variant : Nat → Nat, (∀ r ∈ p.variants, variant r = n) →
      ∃ t ∈ p.template.templates, p.template.select variant = some t ∧ t.elements.length = p.exports.length ∧
        ∀ element ∈ t.elements, element.type.inFamily n = element.type) ∧
    p.template.templates ≠ [] := by
  obtain ⟨stages⟩ := Specification.compile_stages compiled
  obtain ⟨layout⟩ := stages.layout
  have family (n : Nat) (inside : n < 2) (variant : Nat → Nat) (alike : ∀ r ∈ p.variants, variant r = n) :
      ∃ t ∈ p.template.templates, p.template.select variant = some t ∧ t.elements.length = p.exports.length ∧
        ∀ element ∈ t.elements, element.type.inFamily n = element.type := by
    obtain ⟨t, selected⟩ := select_of_family stages layout inside
    obtain ⟨length, each⟩ := inFamily_of_template stages layout inside selected
    have same := TemplateTree.select_congr fun r member => alike r (TemplateTree.mem_registers.mpr member)
    exact ⟨t, TemplateTree.mem_templates_of_select selected, same.trans selected, length, each⟩
  refine ⟨family, ?_⟩
  obtain ⟨t, member, -⟩ := family 0 Nat.zero_lt_two (fun _ => 0) fun _ _ => rfl
  exact List.ne_nil_of_mem member

/-- The addresses of the two directions cannot be compared where they are of different families, and there is a template for
each family. -/
theorem compile_selects_families_facing : ∃ p, facing.compile catalog 4096 = .ok p ∧ p.variants = [0, 2] ∧
    p.template.select (fun r => if r = 0 then 1 else 0) = none ∧
    (∀ n < 2, ∃ t ∈ p.template.templates, p.template.select (fun _ => n) = some t ∧
      t.elements.length = p.exports.length ∧ ∀ element ∈ t.elements, element.type.inFamily n = element.type) ∧
    p.template.templates ≠ [] := by
  have facts : ((facing.compile catalog 4096).toOption.any fun p =>
      p.variants == [0, 2] && (p.template.select fun r => if r = 0 then 1 else 0).isNone) = true := by decide +kernel
  cases compiled : facing.compile catalog 4096 with
  | error problem =>
    rw [compiled] at facts
    cases facts
  | ok p =>
    rw [compiled] at facts
    obtain ⟨variants, mixed⟩ := Bool.and_eq_true_iff.mp facts
    obtain ⟨family, nonempty⟩ := compile_selects_families compiled
    refine ⟨p, rfl, eq_of_beq variants, Option.isNone_iff_eq_none.mp mixed, ?_, nonempty⟩
    intro n inside
    exact family n inside (fun _ => n) fun _ _ => rfl

end Library

end FlowMetering
