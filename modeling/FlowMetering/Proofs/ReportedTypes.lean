import FlowMetering.Proofs.ReportedValues
import FlowMetering.Proofs.ServedRegisters

/-! Rows have values of the types that their templates announce. -/

namespace FlowMetering.Library

variable {limit : Nat} {s : Specification} {p : Program Instance PacketFilter}

def alternatives? (entry : Entry Instance) : Option Nat :=
  match entry.output with
  | .variants elements => some elements.length
  | _ => none

private theorem length_variants {entry : Entry Instance} (member : entry ∈ entries) {elements : List Element}
    (output : entry.output = .variants elements) : elements.length = 2 := by
  have lengths : entries.filterMap alternatives? = [2, 2, 2, 2] := rfl
  have inside : elements.length ∈ [2, 2, 2, 2] := by
    rw [← lengths]
    exact List.mem_filterMap.mpr ⟨entry, member, by rw [alternatives?, output]⟩
  simpa using inside

theorem declared_unsigned (limit : Nat) : ∀ composite ∈ composites, ∀ element, composite.declared = some element →
    element.type = .unsigned64 ∧ ∀ e bound (tree : Typed Instance), Expression.ofJson composite.definition = .ok e →
      Takes .flowFeature e bound → Typed.ofBound limit (Bound.settled bound) = .ok tree →
        ∃ own, Typed.type tree = .fixed own ∧ own.type.isUnsigned = true := by
  simp only [composites, List.forall_mem_cons]
  refine ⟨?_, ?_, by rintro _ ⟨⟩, by rintro _ ⟨⟩, by rintro _ ⟨⟩, List.forall_mem_nil _⟩
  all_goals
    rintro element ⟨⟩
    refine ⟨rfl, fun e bound tree read takes typed => ?_⟩
    cases read
    cases takes
    cases limit with
    | zero => cases typed
    | succ limit =>
      cases typed
      exact ⟨_, rfl, rfl⟩

section Stages

variable (stages : Specification.Stages catalog limit s p)
include stages

/-- A field has an element declared for it where a composite has one. -/
theorem declared_field {field : Field (Typed Instance)} (member : field ∈ stages.typed) {element : Element}
    (declared : field.declared = some element) : ∃ composite ∈ composites, composite.declared = some element ∧
      ∃ e bound, Expression.ofJson composite.definition = .ok e ∧ Takes .flowFeature e bound ∧
        Typed.ofBound limit (Bound.settled bound) = .ok field.tree := by
  obtain ⟨settled, held, types⟩ := forall₂_mem_right (Specification.stage_results stages.resolved) member
  obtain ⟨expanded, held, binds⟩ := forall₂_mem_right (Specification.stage_results stages.lowered) held
  obtain ⟨e, -, unfolds⟩ := forall₂_mem_right (Specification.stage_results stages.unfolded) held
  obtain ⟨tree, typed, rfl⟩ := map_eq_ok.mp types
  obtain ⟨bound, takes, rfl⟩ := map_eq_ok.mp binds
  obtain ⟨result, expansion, rest⟩ := bind_eq_ok.mp unfolds
  change e.expandWith catalog.composite? (fun composite => do
    let definition ← Expression.ofJson composite.definition
    definition.expand catalog.composite? (Expression.maxExpansion - 1)) = .ok result at expansion
  cases e with
  | raw mark | constant value =>
    cases rest
    cases declared
  | call name args =>
    dsimp only at rest
    split at rest
    next composite found =>
      cases rest
      have listed : composite ∈ composites := List.mem_of_find?_eq_some found
      rw [Expression.expandWith, found] at expansion
      dsimp only at expansion
      split at expansion
      · rw [expand_definition composite listed] at expansion
        exact ⟨composite, listed, declared, result, bound, expansion, takes, typed⟩
      · cases expansion
    next =>
      cases rest
      cases declared

variable (layout : Layout catalog limit stages.typed stages.controls p)
include layout

/-- All sources have two branches. -/
theorem count_of_point {source : String} {count : Nat} (point : (source, count) ∈ p.points) : count = 2 := by
  obtain ⟨typing, args, elements, node, part, -, output, rfl, -, -⟩ := layout.source point
  cases layout.wellTyped part with
  | call registered key typed each => exact length_variants (Catalog.mem_entries registered) output

/-- The variants of a record whose instances are in order stay within the branches that depend on them. -/
theorem variant_inside {record : Record Instance PacketFilter}
    (kept : ∀ (r : Nat) s, record.instances[r]? = some (some s) → Attended p r s) (source : String) (count : Nat)
    (point : (source, count) ∈ p.points) : Meter.variant record (layout.whole.registerOf source) < count := by
  rw [count_of_point stages layout point]
  exact variant_lt_two kept _

/-- The values that a register may have are of the type of the element under which it is exported. -/
theorem admits_shown {choice : TypeTree.Choice} (covers : choice.Covers p.points) {r : Nat} {element : Element}
    {field : Field (Typed Instance)} {node : Node Instance} (shows : layout.Shows choice r element field node) {v : Value}
    (admits : p.Admits r v) : element.type.admits v = true := by
  have selects := admits choice covers
  rw [Program.typeOf_register shows.found] at selects
  obtain ⟨own, selected, declared | ⟨-, type⟩⟩ := shows.element
  · obtain ⟨composite, listed, declared, e, bound, read, takes, typed⟩ := declared_field stages shows.member declared
    obtain ⟨wide, unsigned⟩ := declared_unsigned limit composite listed element declared
    obtain ⟨fixed, type, narrow⟩ := unsigned e bound field.tree read takes typed
    rw [shows.made.type_eq, type] at selects
    obtain ⟨n, rfl⟩ := FieldType.unsigned_of_admits narrow selects
    rw [wide]
    exact FieldType.admits_unsigned64 n
  · rw [selected] at selects
    rw [type]
    exact selects

end Stages

/-- The values of a row are of the types that its template announces. -/
theorem compile_reports_types (compiled : s.compile catalog limit = .ok p) (exporters : List Exporter)
    (operations : List Operation) {row : Row}
    (member : row ∈ (Meter.performAll ⟨p, exporters⟩ (Meter.make ⟨p, exporters⟩) operations).2.rows) :
    List.Forall₂ (fun element value => ∀ v, value = some v → element.type.admits v = true) row.template.elements row.values := by
  obtain ⟨stages⟩ := Specification.compile_stages compiled
  obtain ⟨layout⟩ := stages.layout
  obtain ⟨record, time, sound, found⟩ :=
    (safe stages layout exporters).rounds.hands (fun _ _ => trivial) row member
  obtain ⟨choice, covers, -, values, each⟩ := layout.row found (variant_inside stages layout sound.1)
  rw [values, List.forall₂_map_right_iff]
  refine each.flip.imp ?_
  rintro element r ⟨field, node, shows⟩ v held
  exact admits_shown stages layout covers shows (sound.2 r v (Option.join_eq_some_iff.mp held))

/-- Comparisons, signed sums, a declared element and times beside one another. -/
def assorted : Specification := .ofFeatures
  [.array [.string "less", .array [.string "min", .string "ipTotalLength"], .array [.string "max", .string "ipTotalLength"]],
    .array [.string "subtract", .array [.string "min", .string "ipTotalLength"], .number (.natural 3)],
    .string "minimumIpTotalLength", .string "flowStartNanoseconds", .string "sourceIPAddress"]

theorem compile_reports_types_assorted : ∃ p row, assorted.compile catalog 4096 = .ok p ∧
    row ∈ rowsOf ⟨p, []⟩ threePackets .forcedEnd 0 ∧
    row.values.map (Option.map Value.display) = [some "true", some "57", some "60", some "1", none] ∧
    List.Forall₂ (fun element value => ∀ v, value = some v → element.type.admits v = true)
      row.template.elements row.values := by
  obtain ⟨p, row, compiled, member, shown⟩ := exists_row
    (show shownRows assorted threePackets = [[some "true", some "57", some "60", some "1", none]] by decide +kernel)
  exact ⟨p, row, compiled, member, shown, compile_reports_types compiled [] _ member⟩

end FlowMetering.Library
