import FlowMetering.Proofs.MarkedExports
import Mathlib.Data.Set.Card

/-! What is allocated for the features of a specification has one register for each shape of expression in them. The
controls come behind these registers and share none of them. -/

namespace FlowMetering

namespace Allocation

open Typed

variable {σ φ : Type} {catalog : Catalog σ φ} {limit : Nat}

structure Controlled (controls : List (Registered σ)) (a b : Allocation σ) : Prop where
  nodes : ∃ more, b.nodes = a.nodes ++ more ∧
    ∀ node ∈ more, ∃ position, ∃ control ∈ controls, node = controlNode position control
  registers : b.registers = a.registers
  exports : b.exports = a.exports
  controls : b.controls = a.controls ++ List.range' a.nodes.length (b.nodes.length - a.nodes.length)

private theorem addControl_controlled (a : Allocation σ) (position : Nat) (control : Registered σ) :
    Controlled [control] a (a.addControl position control) := by
  rw [addControl]
  split
  · refine ⟨⟨[], (List.append_nil _).symm, fun _ member => absurd member List.not_mem_nil⟩, rfl, rfl, ?_⟩
    simp
  · refine ⟨⟨[controlNode position control], rfl, fun node member => ?_⟩, rfl, rfl, ?_⟩
    · exact ⟨position, control, List.mem_singleton_self control, List.mem_singleton.mp member⟩
    · simp

theorem addControls_controlled (controls : List (Registered σ × Nat)) (a : Allocation σ) :
    Controlled (controls.map (·.1)) a (controls.foldl (fun a (control, i) => a.addControl (i + 1) control) a) := by
  induction controls generalizing a with
  | nil =>
    refine ⟨⟨[], (List.append_nil _).symm, fun _ member => absurd member List.not_mem_nil⟩, rfl, rfl, ?_⟩
    simp
  | cons control controls ih =>
    have first := addControl_controlled a (control.2 + 1) control.1
    have rest := ih (a.addControl (control.2 + 1) control.1)
    obtain ⟨more, added, made⟩ := first.nodes
    obtain ⟨more', added', made'⟩ := rest.nodes
    have small := congrArg List.length added
    have large := congrArg List.length added'
    rw [List.foldl_cons]
    refine ⟨⟨more ++ more', ?_, List.forall_mem_append.mpr ⟨fun node member => ?_, fun node member => ?_⟩⟩,
      rest.registers.trans first.registers, rest.exports.trans first.exports, ?_⟩
    · rw [added', added, List.append_assoc]
    · obtain ⟨position, control', held, same⟩ := made node member
      exact ⟨position, control', List.mem_cons.mpr (.inl (List.mem_singleton.mp held)), same⟩
    · obtain ⟨position, control', held, same⟩ := made' node member
      exact ⟨position, control', List.mem_cons_of_mem _ held, same⟩
    · rw [List.length_append] at small large
      rw [rest.controls, first.controls, List.append_assoc, large, small, Nat.add_sub_cancel_left, Nat.add_sub_cancel_left,
        List.range'_append_1, Nat.add_assoc, Nat.add_sub_cancel_left]

/-- In what is allocated for some fields, registers, signatures and shapes go together. -/
structure SharesExactly (fields : List (Field (Typed σ))) (a : Allocation σ) : Prop where
  occurrences : (fieldVisits fields.zipIdx empty).map (·.1) = fields.flatMap (·.tree.subtrees)
  held : ∀ visit ∈ fieldVisits fields.zipIdx empty, visit.1.isRaw = false →
    ∃ r, visit.2 = .register r ∧ Refers a.nodes (.register r) visit.1.erase
  register_iff : ∀ visit ∈ fieldVisits fields.zipIdx empty, ∀ other ∈ fieldVisits fields.zipIdx empty,
    visit.2 = other.2 ↔ visit.1.shape = other.1.shape
  signature_iff : ∀ visit ∈ fieldVisits fields.zipIdx empty, ∀ other ∈ fieldVisits fields.zipIdx empty,
    Typed.signature visit.1 = Typed.signature other.1 ↔ visit.1.shape = other.1.shape
  count : (a.nodes.filter (!·.isControl)).length =
    {shape | ∃ visit ∈ fieldVisits fields.zipIdx empty, visit.1.isRaw = false ∧ visit.1.shape = shape}.ncard
  sources : ∀ visit ∈ fieldVisits fields.zipIdx empty, ∀ source count,
    (source, count) ∈ (Typed.type visit.1).branchings →
      ∃ other ∈ fieldVisits fields.zipIdx empty, other.1.isRaw = false ∧ Typed.signature other.1 = source ∧
        other.2 = .register (a.registerOf source)

private theorem Visited.argument_eq_iff {a b : Allocation σ} {occurrences : List (Typed σ × Argument)}
    (visited : Visited catalog limit a b occurrences) {visit other : Typed σ × Argument} (member : visit ∈ occurrences)
    (member' : other ∈ occurrences) : visit.2 = other.2 ↔ visit.1.shape = other.1.shape := by
  have typed := visited.typed visit member
  have typed' := visited.typed other member'
  rw [← typed.signature_eq_iff typed']
  exact visited.keyed.argument_eq_iff (visited.denotes visit member) (visited.denotes other member') typed typed'

theorem Visited.exists_visit {d : Allocation σ} {occurrences : List (Typed σ × Argument)}
    (visited : Visited catalog limit empty d occurrences) {r : Nat} (inside : r < d.nodes.length) :
    ∃ visit ∈ occurrences, visit.2 = .register r := by
  obtain ⟨signature, noted⟩ := visited.keyed.exists_signature inside
  rcases visited.covered signature r noted with known | ⟨visit, member, found, -⟩
  · exact absurd known List.not_mem_nil
  · exact ⟨visit, member, found⟩

private theorem Visited.count {d : Allocation σ} {occurrences : List (Typed σ × Argument)}
    (visited : Visited catalog limit empty d occurrences) :
    d.nodes.length = {shape | ∃ visit ∈ occurrences, visit.1.isRaw = false ∧ visit.1.shape = shape}.ncard := by
  have each : ∀ r < d.nodes.length, ∃ visit ∈ occurrences, visit.2 = .register r :=
    fun r inside => visited.exists_visit inside
  choose occurrence member found using each
  have range : d.nodes.length = (Finset.range d.nodes.length : Set Nat).ncard := by
    rw [Set.ncard_coe_finset, Finset.card_range]
  rw [range]
  have inside {r : Nat} (member : r ∈ (Finset.range d.nodes.length : Set Nat)) : r < d.nodes.length :=
    Finset.mem_range.mp member
  -- a register goes to the shape of an occurrence that it has been given
  refine Set.ncard_congr (fun r member => (occurrence r (inside member)).1.shape) ?_ ?_ ?_
  · intro r held
    have denotes := visited.denotes _ (member r (inside held))
    rw [found r (inside held)] at denotes
    refine ⟨_, member r (inside held), ?_, rfl⟩
    cases denotes with
    | register plain noted => exact plain
  · intro r r' held held' same
    have equal := (visited.argument_eq_iff (member r (inside held)) (member r' (inside held'))).mpr same
    rw [found r (inside held), found r' (inside held')] at equal
    exact Argument.register.inj equal
  · rintro shape ⟨visit, held, plain, rfl⟩
    have denotes := visited.denotes visit held
    obtain ⟨r, reference⟩ := denotes.exists_register plain
    rw [reference] at denotes
    have below : r < d.nodes.length := by
      cases denotes with
      | register plain noted => exact visited.keyed.lt noted
    refine ⟨r, Finset.mem_coe.mpr (Finset.mem_range.mpr below), ?_⟩
    exact (visited.argument_eq_iff (member r below) held).mp ((found r below).trans reference.symm)

private theorem Visited.sharesExactly {fields : List (Field (Typed σ))} {controls : List (Registered σ)} {d a : Allocation σ}
    (visited : Visited catalog limit empty d (fieldVisits fields.zipIdx empty))
    (trees : (fieldVisits fields.zipIdx empty).map (·.1) = fields.flatMap (·.tree.subtrees))
    (controlled : Controlled controls d a) : SharesExactly fields a := by
  obtain ⟨more, added, made⟩ := controlled.nodes
  constructor
  · exact trees
  · intro visit member plain
    have typed := visited.typed visit member
    have denotes := visited.denotes visit member
    obtain ⟨r, reference⟩ := denotes.exists_register plain
    rw [reference] at denotes
    refine ⟨r, reference, ?_⟩
    rw [added]
    exact (visited.keyed.refers typed denotes).extend (.append _ _)
  · exact fun visit member other member' => visited.argument_eq_iff member member'
  · exact fun visit member other member' =>
      (visited.typed visit member).signature_eq_iff (visited.typed other member')
  · have data : d.nodes.filter (!·.isControl) = d.nodes := by
      refine List.filter_eq_self.mpr fun node member => ?_
      obtain ⟨r, inside, rfl⟩ := List.getElem_of_mem member
      obtain ⟨tree, node, -, -, found, made⟩ := visited.keyed.made_of_lt inside
      cases (List.getElem?_eq_getElem inside).symm.trans found
      rw [made.isControl]
      rfl
    have controls : more.filter (!·.isControl) = [] := by
      refine List.filter_eq_nil_iff.mpr fun node member => ?_
      obtain ⟨position, control, -, rfl⟩ := made node member
      exact nofun
    rw [added, List.filter_append, data, controls, List.append_nil]
    exact visited.count
  · intro visit member source count branching
    obtain ⟨typing, args, elements, part, rfl, -, -⟩ := (visited.typed visit member).source branching
    -- the call that makes the choice is a part of the same field
    have inside : visit.1 ∈ fields.flatMap (·.tree.subtrees) := trees ▸ List.mem_map_of_mem member
    obtain ⟨field, held, within⟩ := List.mem_flatMap.mp inside
    have occurs : .call typing args ∈ fields.flatMap (·.tree.subtrees) :=
      List.mem_flatMap.mpr ⟨field, held, Tree.subtrees_trans part within⟩
    rw [← trees] at occurs
    obtain ⟨⟨_, arg⟩, member', rfl⟩ := List.mem_map.mp occurs
    refine ⟨_, member', rfl, rfl, ?_⟩
    have denotes := visited.denotes _ member'
    have looked : a.registerOf typing.signature = d.registerOf typing.signature := by
      rw [registerOf, registerOf, controlled.registers]
    cases denotes with
    | register plain noted =>
      rw [looked]
      exact congrArg Argument.register (visited.keyed.registerOf_eq noted).symm

/-- Some fields and controls are allocated with exact sharing, or the first field that repeats an earlier one is
reported. -/
theorem ofFields_cases {fields : List (Field (Typed σ))} (typed : ∀ field ∈ fields, WellTyped catalog limit field.tree)
    (controls : List (Registered σ)) :
    (∃ a, ofFields fields controls = .ok a ∧ SharesExactly fields a ∧
        ∀ (i : Nat) field, fields[i]? = some field → ¬Repeats (fields.take i) field) ∨
      ∃ i field, fields[i]? = some field ∧ Repeats (fields.take i) field ∧
        (∀ (j : Nat) other, j < i → fields[j]? = some other → ¬Repeats (fields.take j) other) ∧
        ofFields fields controls = .error ⟨i + 1, field.name, .duplicateExport⟩ := by
  rcases addFields_cases .empty typed with
    ⟨d, done, marked, visited, trees, none⟩ | ⟨i, field, -, found, repeats, none, failed⟩
  · refine .inl ⟨_, bind_eq_ok.mpr ⟨d, done, rfl⟩, ?_, fun i field found => none i field (Nat.zero_le i) found⟩
    exact visited.sharesExactly trees (addControls_controlled _ d)
  · refine .inr ⟨i, field, found, repeats, fun j other => none j other (Nat.zero_le j), ?_⟩
    dsimp only [List.length_nil] at failed
    rw [ofFields, failed]
    rfl

end Allocation

end FlowMetering
