import FlowMetering.Proofs.FamilyTypes
import FlowMetering.Proofs.Restarts

/-! Flows of one address family. A source that has been given a packet has chosen the family of the flow, and one that has not
is at its first choice; a record is dropped only where some sources of its template are so and others so. -/

namespace FlowMetering.Library

variable {limit : Nat} {s : Specification} {p : Program Instance PacketFilter}

/-- Both addresses of a packet are of one family. -/
def OfFamily (n : Nat) (packet : Packet) : Prop :=
  ∀ endpoint : Endpoint, (endpoint.address packet).map family = some n

/-- Whether the instance of a register has been given a packet, as the happenings go by. -/
def givenOne (r : Nat) (seen : Bool) : Happening → Bool
  | .call q .start _ => if q = r then false else seen
  | .call q (.event (.packet _ _)) _ => if q = r then true else seen
  | _ => seen

/-- Whether the instance of a register has been given a packet since it was started. -/
def given (r : Nat) (journal : Journal) : Bool :=
  journal.foldl (givenOne r) false

private theorem exists_packet {r : Nat} {journal : Journal} (seen : given r journal = true) :
    ∃ h ∈ journal, ∃ packet, h.packet? = some packet := by
  induction journal using List.reverseRecOn with
  | nil => cases seen
  | append_singleton journal h ih =>
    by_cases handed : ∃ packet, h.packet? = some packet
    · exact ⟨h, List.mem_append_right _ (List.mem_singleton_self h), handed⟩
    · have before : given r journal = true := by
        rw [given, List.foldl_append, List.foldl_cons, List.foldl_nil] at seen
        revert seen
        cases h with
        | call q phase remarks =>
          cases phase with
          | start =>
            change (if q = r then false else given r journal) = true → _
            split
            · exact fun seen => absurd seen Bool.false_ne_true
            · exact id
          | event input =>
            cases input with
            | packet packet source => exact absurd ⟨packet, rfl⟩ handed
            | value v source => exact id
          | _ => exact id
        | _ => exact id
      obtain ⟨h', member, packet⟩ := ih before
      exact ⟨h', List.mem_append_left _ member, packet⟩

/-- What a source of a family has chosen: nothing yet, or the family. -/
inductive Faces (n : Nat) (seen : Bool) : Instance → Prop
  | packet (endpoint : Endpoint) : Faces n seen (.packetAddress endpoint (if seen then n else 0))
  | flow (endpoint : Endpoint) {first : Option Address} (same : first.map family = if seen then some n else none) :
    Faces n seen (.firstAddress endpoint first)

namespace Faces

variable {n : Nat} {seen : Bool} {s : Instance}

private theorem variant (faces : Faces n seen s) : s.variant = if seen then n else 0 := by
  cases faces with
  | packet endpoint => rfl
  | flow endpoint same =>
    rename_i first
    change (first.map family).getD 0 = _
    rw [same]
    cases seen <;> rfl

private theorem kept (faces : Faces n seen s) {c : Context} {phase : Phase} (started : phase ≠ .start)
    (given : ∀ packet source, phase ≠ .event (.packet packet source)) : Faces n seen (s.called c phase) := by
  cases phase with
  | start => exact absurd rfl started
  | event input =>
    cases input with
    | packet packet source => exact absurd rfl (given packet source)
    | value v source =>
      cases faces with
      | packet endpoint => exact .packet endpoint
      | flow endpoint same => exact .flow endpoint same
  | finishEvent | stop =>
    cases faces with
    | packet endpoint => exact .packet endpoint
    | flow endpoint same => exact .flow endpoint same

private theorem recallOne (faces : Faces n seen s) (r : Nat) {h : Happening}
    (fine : ∀ packet, h.packet? = some packet → OfFamily n packet) :
    Faces n (givenOne r seen h) (recallOne p r s h) := by
  cases h with
  | call q phase remarks =>
    by_cases here : q = r
    · rw [Library.recallOne, if_pos here]
      cases phase with
      | start =>
        rw [givenOne, if_pos here]
        cases faces with
        | packet endpoint => exact .packet endpoint
        | flow endpoint same => exact .flow endpoint rfl
      | event input =>
        cases input with
        | packet packet source =>
          rw [givenOne, if_pos here]
          have known := fine packet rfl
          cases faces with
          | packet endpoint =>
            rw [Instance.called, Instance.event, Instance.packet, known endpoint]
            exact .packet endpoint
          | flow endpoint same =>
            rename_i first
            refine .flow endpoint ?_
            cases first with
            | none => exact known endpoint
            | some address =>
              cases seen with
              | false => cases same
              | true => exact same
        | value v source => exact faces.kept (by rintro ⟨⟩) (by rintro _ _ ⟨⟩)
      | finishEvent | stop => exact faces.kept (by rintro ⟨⟩) (by rintro _ _ ⟨⟩)
    · have unseen : givenOne r seen (.call q phase remarks) = seen := by
        unfold givenOne
        split
        next same => exact if_neg (by cases same; exact here)
        next same => exact if_neg (by cases same; exact here)
        next => rfl
      rw [Library.recallOne, if_neg here, unseen]
      exact faces
  | _ => exact faces

private theorem recallAll (faces : Faces n false s) (p : Program Instance PacketFilter) (r : Nat) {journal : Journal}
    (fine : ∀ h ∈ journal, ∀ packet, h.packet? = some packet → OfFamily n packet) :
    Faces n (given r journal) (recallAll p r journal s) := by
  rw [given, Library.recallAll]
  generalize false = seen at faces
  induction journal generalizing seen s with
  | nil => exact faces
  | cons h journal ih =>
    rw [List.forall_mem_cons] at fine
    exact ih fine.2 _ (faces.recallOne r fine.1)

end Faces

section Compiled

variable (stages : Specification.Stages catalog limit s p)
variable (layout : Layout catalog limit stages.typed stages.controls p)
include layout

private theorem faces_make {m : Meter Instance PacketFilter} (same : m.program = p) (n : Nat) {r : Nat} (member : r ∈ p.variants) :
    ∃ s, m.make.instances[r]? = some (some s) ∧ Faces n false s := by
  obtain ⟨source, count, point, rfl⟩ := TemplateTree.registers_ofSlots layout.template member
  obtain ⟨typing, args, elements, node, part, -, output, -, found, made⟩ := layout.source (layout.points_slots point)
  have listed : typing.binding.chosen.entry ∈ entries := by
    cases layout.wellTyped part with
    | call registered key typed each => exact Catalog.mem_entries registered
  have built : m.make.instances[layout.whole.registerOf source]? =
      some (typing.binding.chosen.entry.build.map fun build => build node.kind) := by
    cases made with
    | call plain type varies entry key each =>
      rw [Meter.make, List.getElem?_map, same, found, Option.map_some, Node.build?, entry]
      rfl
  obtain ⟨endpoint, -, entry | entry⟩ := address_of_variants listed output
  · exact ⟨.packetAddress endpoint 0, by rw [built, entry]; rfl, .packet endpoint⟩
  · exact ⟨.firstAddress endpoint none, by rw [built, entry]; rfl, .flow endpoint rfl⟩

variable {m : Meter Instance PacketFilter} (same : m.program = p) {n : Nat} {past : Journal}
variable (fine : ∀ h ∈ past, ∀ packet, h.packet? = some packet → OfFamily n packet)
variable {record : Record Instance PacketFilter} (instances : ∀ r : Nat, record.instances[r]? = recalled m past r)
include same fine instances

private theorem variant_recalled {r : Nat} (member : r ∈ p.variants) :
    Meter.variant record r = if given r past then n else 0 := by
  obtain ⟨s, held, faces⟩ := faces_make stages layout same n member
  have now : record.instances[r]? = some (some (recallAll m.program r past s)) := by
    rw [instances, recalled, held]
    rfl
  rw [Meter.variant, now]
  exact (faces.recallAll m.program r fine).variant

private theorem mixed_of_none (none : p.template.select (Meter.variant record) = none) :
    n = 1 ∧ (∃ r ∈ p.variants, given r past = true) ∧ ∃ q ∈ p.variants, given q past = false := by
  have variant {r : Nat} (member : r ∈ p.variants) := variant_recalled stages layout same fine instances member
  have uneven (k : Nat) (inside : k < 2) : ¬∀ r ∈ p.variants, Meter.variant record r = k := by
    intro alike
    obtain ⟨template, selected⟩ := select_of_family stages layout inside
    have found := TemplateTree.select_congr fun r member => alike r (TemplateTree.mem_registers.mpr member)
    rw [none, selected] at found
    cases found
  have some : ∃ r ∈ p.variants, given r past = true := by
    by_contra never
    refine uneven 0 Nat.zero_lt_two fun r member => ?_
    rw [variant member, if_neg fun seen => never ⟨r, member, seen⟩]
  have inside : n < 2 := by
    obtain ⟨r, -, seen⟩ := some
    obtain ⟨h, member, packet, handed⟩ := exists_packet seen
    obtain ⟨address, -, rfl⟩ := Option.map_eq_some_iff.mp (fine h member packet handed .source)
    exact family_lt_two address
  have second : n ≠ 0 := by
    rintro rfl
    exact uneven 0 inside fun r member => (variant member).trans (ite_self 0)
  refine ⟨by omega, some, ?_⟩
  by_contra all
  refine uneven n inside fun r member => ?_
  rw [variant member, if_pos (Bool.of_not_eq_false fun unseen => all ⟨r, member, unseen⟩)]

end Compiled

/-- A finish of a flow of one family drops the record only where the flow is of the second family and, since the last start,
some of the registers on whose variants the template depends have been given a packet and others have not. Else every exporter
is called once. -/
theorem performAll_drops {m : Meter Instance PacketFilter} (compiled : s.compile catalog limit = .ok m.program) {n : Nat}
    {operations : List Operation} (single : ∀ packet, .event packet ∈ operations → OfFamily n packet)
    {before after : Journal} {reason : EndReason} {time : Int64}
    (journal : (m.performAll m.make operations).2 = before ++ .finish reason time :: after) :
    ∃ sweep attempt rest, after = sweep ++ attempt ++ rest ∧ LifeCycle.Stops reason m.built sweep ∧
      ((∃ row, attempt =
          .row reason row :: m.exporters.map fun exporter => .export exporter.name row (exporter.fails row)) ∨
        attempt = [.noTemplate reason] ∧ n = 1 ∧
          (∃ r ∈ m.program.variants, given r (before ++ .finish reason time :: sweep) = true) ∧
          ∃ q ∈ m.program.variants, given q (before ++ .finish reason time :: sweep) = false) := by
  have leads := Meter.performAll_leads (Specification.compile_ordered compiled) operations m.make m.make_fits
  obtain ⟨sweep, attempt, rest, rfl, stops, exported⟩ := leads.finishes journal
  refine ⟨sweep, attempt, rest, rfl, stops, ?_⟩
  cases exported with
  | row row => exact .inl ⟨row, rfl⟩
  | noTemplate =>
    have recorded := (Recorded.make m).performAll single
    have split : (m.performAll m.make operations).2 =
        (before ++ .finish reason time :: sweep) ++ .noTemplate reason :: rest := by
      rw [journal, List.append_assoc, List.append_assoc]
      rfl
    rw [List.nil_append, split] at recorded
    obtain ⟨record, instances, none⟩ := ((accounted_append.mp recorded.accounted).2).1 none rfl
    obtain ⟨stages⟩ := Specification.compile_stages compiled
    obtain ⟨layout⟩ := stages.layout
    exact .inr ⟨rfl, mixed_of_none stages layout rfl
      (fun h member => recorded.packets h (List.mem_append_left _ member)) instances none⟩

/-- The addresses of the flow are compared with those of the other direction. -/
def facing : Specification :=
  .ofFeatures [.array [.string "equal", .string "sourceIPAddress",
    .array [.string "apply", .string "sourceIPAddress", .string "backward"]]]

/-- One packet of the second family, and none in the other direction. -/
def oneWay : List Operation :=
  [.event ((Packet.ofLength 1 60).withAddresses (.v6 1) (.v6 2)), .stop .forcedEnd 2]

private theorem oneWay_ofFamily : ∀ packet, .event packet ∈ oneWay → OfFamily 1 packet := by
  intro packet member
  rcases List.mem_cons.mp member with same | member
  · cases same
    intro endpoint
    cases endpoint <;> rfl
  · cases List.mem_singleton.mp member

private theorem facing_finishes : ∃ p before after, facing.compile catalog 4096 = .ok p ∧
    (Meter.performAll ⟨p, [sink]⟩ (Meter.make ⟨p, [sink]⟩) oneWay).2 = before ++ .finish .forcedEnd 2 :: after ∧
    Journal.exports (before ++ .finish .forcedEnd 2 :: after) = [] := by
  have facts : ((facing.compile catalog 4096).toOption.any fun p =>
      let journal := (Meter.performAll ⟨p, [sink]⟩ (Meter.make ⟨p, [sink]⟩) oneWay).2
      (Journal.exports journal).isEmpty && journal.any fun
        | .finish reason time => reason == .forcedEnd && time == 2
        | _ => false) = true := by decide +kernel
  cases compiled : facing.compile catalog 4096 with
  | error _ =>
    rw [compiled] at facts
    cases facts
  | ok p =>
    rw [compiled] at facts
    obtain ⟨silent, finished⟩ := Bool.and_eq_true_iff.mp facts
    obtain ⟨h, member, same⟩ := List.any_eq_true.mp finished
    split at same
    next reason time =>
      obtain ⟨reason, time⟩ := Bool.and_eq_true_iff.mp same
      rw [eq_of_beq reason, eq_of_beq time] at member
      obtain ⟨before, after, journal⟩ := List.append_of_mem member
      rw [journal] at silent
      exact ⟨p, before, after, rfl, journal, List.isEmpty_iff.mp silent⟩
    next => cases same

theorem performAll_drops_facing : ∃ p before after sweep attempt rest, facing.compile catalog 4096 = .ok p ∧
    (∀ packet, .event packet ∈ oneWay → OfFamily 1 packet) ∧
    (Meter.performAll ⟨p, [sink]⟩ (Meter.make ⟨p, [sink]⟩) oneWay).2 = before ++ .finish .forcedEnd 2 :: after ∧
    after = sweep ++ attempt ++ rest ∧ LifeCycle.Stops .forcedEnd (Meter.built ⟨p, [sink]⟩) sweep ∧
      ((∃ row, attempt = .row .forcedEnd row :: [sink].map fun exporter => .export exporter.name row (exporter.fails row)) ∨
        attempt = [.noTemplate .forcedEnd] ∧ 1 = 1 ∧
          (∃ r ∈ p.variants, given r (before ++ .finish .forcedEnd 2 :: sweep) = true) ∧
          ∃ q ∈ p.variants, given q (before ++ .finish .forcedEnd 2 :: sweep) = false) := by
  obtain ⟨p, before, after, compiled, journal, -⟩ := facing_finishes
  obtain ⟨sweep, attempt, rest, drops⟩ := performAll_drops (m := ⟨p, [sink]⟩) compiled oneWay_ofFamily journal
  exact ⟨p, before, after, sweep, attempt, rest, compiled, oneWay_ofFamily, journal, drops⟩

/-- A flow of one family can lose its record: the finish of an active record calls no exporter. -/
theorem one_family_drops : ∃ p before after, facing.compile catalog 4096 = .ok p ∧
    (∀ packet, .event packet ∈ oneWay → OfFamily 1 packet) ∧
    (Meter.performAll ⟨p, [sink]⟩ (Meter.make ⟨p, [sink]⟩) oneWay).2 = before ++ .finish .forcedEnd 2 :: after ∧
    Journal.exports (before ++ .finish .forcedEnd 2 :: after) = [] := by
  obtain ⟨p, before, after, compiled, journal, silent⟩ := facing_finishes
  exact ⟨p, before, after, compiled, oneWay_ofFamily, journal, silent⟩

end FlowMetering.Library
