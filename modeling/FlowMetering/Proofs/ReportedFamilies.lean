import FlowMetering.Proofs.AddressFamilies

/-! Rows have addresses of the families that their templates announce, unless an aggregate has kept an address from
before the last change of families. -/

namespace FlowMetering

open TypeTree (Choice)

theorem forall₂_getElem? {α β : Type} {related : α → β → Prop} {as : List α} {bs : List β}
    (each : List.Forall₂ related as bs) {i : Nat} {a : α} {b : β} (left : as[i]? = some a) (right : bs[i]? = some b) :
    related a b := by
  induction each generalizing i with
  | nil => cases left
  | cons first rest ih =>
    cases i with
    | zero =>
      cases left
      cases right
      exact first
    | succ i => exact ih left right

namespace Library

variable {limit : Nat} {s : Specification} {p : Program Instance PacketFilter} {r : Nat} {a : Address}

private theorem type_of_family {endpoint : Endpoint} {element : Element}
    (found : endpoint.elements[family a]? = some element) : element.type = (Value.address a).naturalType := by
  cases endpoint <;> cases a <;> cases found <;> rfl

private theorem unsummed_of_address {rule : Aggregate} {type own : FieldType} (resolved : rule.resolve [type] = some own)
    (admits : own.admits (.address a) = true) : rule ≠ .sum ∧ type = own := by
  cases rule with
  | min | max | first | last => exact ⟨nofun, Option.some.inj resolved⟩
  | sum =>
    change type.upconvert type = some own at resolved
    rcases FieldType.upconvert_cases resolved with ⟨-, -, rfl⟩ | ⟨-, rfl⟩ | ⟨-, -, -, rfl⟩
    all_goals cases admits

section Stages

variable (stages : Specification.Stages catalog limit s p)
variable (layout : Layout catalog limit stages.typed stages.controls p)
include layout

/-- The register of an entry that is no control has been made for a call of the entry. -/
theorem call_of_entryAt {entry : Entry Instance} (entered : p.EntryAt r entry) (working : entry.result ≠ .control) :
    ∃ node typing args, p.nodes[r]? = some node ∧ .call typing args ∈ stages.typed.flatMap (·.tree.subtrees) ∧
      Allocation.Denotes layout.made.registers (.register r) (.call typing args) ∧
      Allocation.Made layout.made.registers node (.call typing args) ∧ typing.binding.chosen.entry = entry := by
  obtain ⟨node, chosen, found, -, own, rfl⟩ := entered
  rcases layout.node_cases found with ⟨position, control, member, rfl⟩ | ⟨tree, part, denotes, made⟩
  · cases own
    exact absurd (registered_control stages member).2 working
  · cases made with
    | constant plain type known args entry key => cases entry.symm.trans own
    | call plain type varies entry key each =>
      cases entry.symm.trans own
      exact ⟨node, _, _, found, part, denotes, .call plain type varies entry key each, rfl⟩

private theorem result_of_shown {choice : Choice} {element : Element} {field : Field (Typed Instance)} {node : Node Instance}
    (shows : layout.Shows choice r element field node) {entry : Entry Instance} (entered : p.EntryAt r entry) :
    entry.result = .flowFeature ∨ entry.result = .matchType := by
  obtain ⟨node', chosen, found, -, own, rfl⟩ := entered
  cases shows.found.symm.trans found
  obtain ⟨json, -, e, bound, resolved⟩ := forall₂_mem_right (resolved_of_stages stages) shows.member
  obtain ⟨regular, suits⟩ := resolved.regular
  rw [← resolved.erased] at regular suits
  have made := shows.made
  generalize field.tree = tree at made regular suits
  cases made with
  | constant plain type known args entry key => cases entry.symm.trans own
  | call plain type varies entry key each =>
    cases entry.symm.trans own
    rw [Typed.erase_call] at regular suits
    cases regular with
    | own each fixed working kind => exact .inl (kind.trans suits)
    | taken each taken suits => exact .inr taken

private theorem own_type_of_address {choice : Choice} (covers : choice.Covers p.points) {element : Element}
    {field : Field (Typed Instance)} {node : Node Instance} (shows : layout.Shows choice r element field node)
    (admits : p.Admits r (.address a)) :
    ∃ own, node.type.select choice = .fixed own ∧ element.type = own.type := by
  have fits := admits_shown stages layout covers shows admits
  obtain ⟨own, selected, declared | ⟨-, type⟩⟩ := shows.element
  · obtain ⟨composite, listed, declared, -⟩ := declared_field stages shows.member declared
    rw [(declared_unsigned limit composite listed element declared).1] at fits
    cases fits
  · exact ⟨own, selected, type⟩

private theorem type_of_choice {record : Record Instance PacketFilter} {choice : Choice} (covers : choice.Covers p.points)
    (picks : ∀ source count, (source, count) ∈ p.points →
      choice.branch? source = some (Meter.variant record (layout.whole.registerOf source)))
    {entry : Entry Instance} (entered : p.EntryAt r entry) (working : entry.result ≠ .control) {endpoint : Endpoint}
    (several : entry.output = .variants endpoint.elements) (chosen : Meter.variant record r = family a) :
    ∃ own, (p.typeOf (.register r)).select choice = .fixed own ∧ own.type = (Value.address a).naturalType := by
  obtain ⟨node, typing, args, found, part, denotes, made, rfl⟩ := call_of_entryAt stages layout entered working
  obtain ⟨own, taken, selected⟩ := layout.select_variants part denotes found made several covers picks
  rw [chosen] at taken
  rw [Program.typeOf_register found]
  exact ⟨own, selected, type_of_family taken⟩

private theorem argument_of_aggregate {choice : Choice} (covers : choice.Covers p.points) {rule : Aggregate} {own : Element}
    (entered : p.EntryAt r (aggregateEntry rule.name (.resolved rule.resolve) (.running rule none))) {q : Nat}
    (single : p.args r = [.register q]) (selected : (p.typeOf (.register r)).select choice = .fixed own) :
    ∃ argument, (p.typeOf (.register q)).select choice = .fixed argument ∧ rule.resolve [argument.type] = some own.type := by
  obtain ⟨node, typing, args, found, part, -, made, same⟩ := call_of_entryAt stages layout entered nofun
  rw [Program.args_of_found found] at single
  rw [Program.typeOf_register found,
    layout.select_call part made (congrArg Entry.output same : _ = Output.resolved rule.resolve) covers, single] at selected
  rw [TypeTree.combinedUnder] at selected
  simp only [List.map_cons, List.map_nil] at selected
  split at selected
  · cases selected
  · rw [Typed.resolvedType] at selected
    split at selected
    next type resolved =>
      cases selected
      cases leaf : (p.typeOf (.register q)).select choice with
      | fixed argument =>
        rw [leaf] at resolved
        exact ⟨argument, rfl, resolved⟩
      | untyped | dead | variants source branches =>
        rw [leaf] at resolved
        cases rule <;> cases resolved
    next => cases selected

private theorem type_of_kept {record : Record Instance PacketFilter} {choice : Choice} (covers : choice.Covers p.points)
    (picks : ∀ source count, (source, count) ∈ p.points →
      choice.branch? source = some (Meter.variant record (layout.whole.registerOf source)))
    {seen : Endpoint → Nat → Prop} (sound : Meter.Sound (Gathers p seen) (Tells p seen) record.instances record.values)
    {rule : Aggregate} {current : Option Value} (found : record.instances[r]? = some (some (.running rule current)))
    (chosen : rule ≠ .sum → ∀ q, p.args r = [.register q] → Chosen record.instances q a) {own : Element}
    (selected : (p.typeOf (.register r)).select choice = .fixed own) (admits : own.type.admits (.address a) = true) :
    own.type = (Value.address a).naturalType := by
  obtain ⟨entry, represents, serves⟩ := (sound.1 r _ found).attended
  have entered := serves.entry_running ▸ represents.found
  obtain ⟨q, single, -⟩ := represents.single (serves.entry_running ▸ rfl) (serves.entry_running ▸ rfl)
  obtain ⟨argument, leaf, resolved⟩ := argument_of_aggregate stages layout covers entered single selected
  obtain ⟨unsummed, same⟩ := unsummed_of_address resolved admits
  obtain ⟨endpoint, told⟩ := chosen unsummed q single
  obtain ⟨entry', represents', serves'⟩ := (sound.1 q _ told).attended
  have choice : Meter.variant record q = family a := by
    rw [Meter.variant, told]
    rfl
  obtain ⟨argument', leaf', type⟩ := type_of_choice stages layout covers picks
    (serves'.entry_packetAddress ▸ represents'.found) (by rintro ⟨⟩) rfl choice
  cases leaf.symm.trans leaf'
  exact same ▸ type

end Stages

def Seen (operations : List Operation) (endpoint : Endpoint) (n : Nat) : Prop :=
  ∃ packet a, .event packet ∈ operations ∧ endpoint.address packet = some a ∧ family a = n

/-- An address in a row is of the family that the template announces, if it is not kept by an aggregate that may keep an
older one, or if the packets have addresses of one family only. -/
theorem compile_reports_families (compiled : s.compile catalog limit = .ok p) (exporters : List Exporter)
    (operations : List Operation) {row : Row}
    (member : row ∈ (Meter.performAll ⟨p, exporters⟩ (Meter.make ⟨p, exporters⟩) operations).2.rows) {i : Nat}
    {element : Element} (exported : p.exports[i]? = some r) (shown : row.template.elements[i]? = some element)
    (value : row.values[i]? = some (some (.address a)))
    (recent : (∀ entry, p.EntryAt r entry → entry.name ∉ ["min", "max", "first"]) ∨
      ∀ endpoint n n', Seen operations endpoint n → Seen operations endpoint n' → n = n') :
    element.type = (Value.address a).naturalType := by
  obtain ⟨stages⟩ := Specification.compile_stages compiled
  obtain ⟨layout⟩ := stages.layout
  have rounds := addressRounds (traced stages layout exporters (Seen operations)) (Specification.compile_ordered compiled)
    fun r node a found => constant_ne_address stages layout found
  obtain ⟨record, time, closing, found⟩ := rounds.hands
    (fun packet happens endpoint a has => ⟨packet, a, happens, has, rfl⟩) row member
  obtain ⟨choice, covers, picks, values, each⟩ :=
    layout.row found (variant_inside stages layout fun r s held => (closing.sound.1 r s held).attended)
  rw [values, List.getElem?_map, exported] at value
  have stored : record.values[r]? = some (some (.address a)) := Option.join_eq_some_iff.mp (Option.some.inj value)
  have admits := (closing.sound.2 r _ stored).admits
  obtain ⟨field, node, shows⟩ := forall₂_getElem? each exported shown
  obtain ⟨own, selected, type⟩ := own_type_of_address stages layout covers shows admits
  rw [← Program.typeOf_register shows.found] at selected
  rw [type]
  cases closing.explained r a stored with
  | packet entered =>
    rcases result_of_shown stages layout shows entered with flow | taken
    · cases flow
    · cases taken
  | first found =>
    obtain ⟨entry, represents, serves⟩ := (closing.sound.1 r _ found).attended
    have chosen : Meter.variant record r = family a := by
      rw [Meter.variant, found]
      rfl
    obtain ⟨own', selected', type'⟩ := type_of_choice stages layout covers picks
      (serves.entry_firstAddress ▸ represents.found) (by rintro ⟨⟩) rfl chosen
    cases selected.symm.trans selected'
    exact type'
  | kept found chosen =>
    rename_i rule current
    obtain ⟨entry, represents, serves⟩ := (closing.sound.1 r _ found).attended
    refine type_of_kept stages layout covers picks closing.sound found (fun unsummed => chosen ?_) selected ?_
    · refine recent.imp (fun named => ?_) id
      have name := named _ (serves.entry_running ▸ represents.found)
      cases rule with
      | last => rfl
      | sum => exact absurd rfl unsummed
      | min | max | first => exact absurd name (by decide)
    · exact type ▸ admits_shown stages layout covers shows admits

def twoFamilies : List Packet :=
  [{ Packet.ofLength 1 60 with source := some (.v4 0x0a000001) },
    { Packet.ofLength 2 60 with source := some (.v6 0x20010db8000000000000000000000001) }]

/-- Whether a specification of one feature reports an address of the packets, and what is exported there passes a test. -/
def reportsAddress (s : Specification) (test : Program Instance PacketFilter → Nat → Element → Address → Bool) : Bool :=
  match s.compile catalog 4096 with
  | .ok p => (rowsOf ⟨p, []⟩ twoFamilies .forcedEnd 0).any fun row =>
    match p.exports, row.template.elements, row.values with
    | [r], [element], [some (.address a)] => test p r element a
    | _, _, _ => false
  | .error _ => false

private theorem exists_address {test : Program Instance PacketFilter → Nat → Element → Address → Bool}
    (reports : reportsAddress s test = true) : ∃ p row r element a, s.compile catalog 4096 = .ok p ∧
      row ∈ rowsOf ⟨p, []⟩ twoFamilies .forcedEnd 0 ∧ p.exports[0]? = some r ∧ row.template.elements[0]? = some element ∧
      row.values[0]? = some (some (.address a)) ∧ test p r element a = true := by
  rw [reportsAddress] at reports
  split at reports
  next p compiled =>
    obtain ⟨row, member, passes⟩ := List.any_eq_true.mp reports
    split at passes
    next r element a exported shown value =>
      exact ⟨p, row, r, element, a, compiled, member, by rw [exported]; rfl, by rw [shown]; rfl, by rw [value]; rfl, passes⟩
    next => cases passes
  next => cases reports

def lastSource : Specification := .ofFeatures [.array [.string "last", .string "sourceIPAddress"]]

theorem compile_reports_families_last : ∃ p row r element a, lastSource.compile catalog 4096 = .ok p ∧
    row ∈ rowsOf ⟨p, []⟩ twoFamilies .forcedEnd 0 ∧ p.exports[0]? = some r ∧ row.template.elements[0]? = some element ∧
    row.values[0]? = some (some (.address a)) ∧ element.type = (Value.address a).naturalType := by
  obtain ⟨p, row, r, element, a, compiled, member, exported, shown, value, named⟩ := exists_address
    (show reportsAddress lastSource (fun p r _ _ => (p.nodes[r]?.bind (·.entry)).map (·.entry.name) == some "last") = true by
      decide +kernel)
  refine ⟨p, row, r, element, a, compiled, member, exported, shown, value, ?_⟩
  refine compile_reports_families compiled [] _ member exported shown value (.inl ?_)
  rintro entry ⟨node, chosen, found, -, entered, rfl⟩
  rw [found, Option.bind_some, entered] at named
  have same : chosen.entry.name = "last" := Option.some.inj (beq_iff_eq.mp named)
  rw [same]
  decide

/-- The first address of a flow is reported under the element of the family of the last one. -/
theorem first_keeps_family : ∃ p row element a,
    (Specification.ofFeatures [.array [.string "first", .string "sourceIPAddress"]]).compile catalog 4096 = .ok p ∧
      row ∈ rowsOf ⟨p, []⟩ twoFamilies .forcedEnd 0 ∧ row.template.elements[0]? = some element ∧
      row.values[0]? = some (some (.address a)) ∧ element.type ≠ (Value.address a).naturalType := by
  obtain ⟨p, row, r, element, a, compiled, member, -, shown, value, differ⟩ := exists_address
    (show reportsAddress (.ofFeatures [.array [.string "first", .string "sourceIPAddress"]])
      (fun _ _ element a => element.type != (Value.address a).naturalType) = true by decide +kernel)
  exact ⟨p, row, element, a, compiled, member, shown, value, bne_iff_ne.mp differ⟩

end Library

end FlowMetering
