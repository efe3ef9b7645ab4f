import FlowMetering.Proofs.GatedAllocations
import FlowMetering.Proofs.GatedRuns
import FlowMetering.Proofs.ReportedValues

/-! Features of one direction. Applied to a direction, a feature reports of all packets what it reports of the packets of this
direction by itself, unless some register of it runs for each packet on constants only. -/

namespace FlowMetering

open Allocation

namespace Library

/-- A feature that is specified alone, with the register that it is allocated. -/
structure Alone (limit : Nat) (json : Json) (e : Expression) (bound : Bound Instance) (field : Field (Typed Instance)) (r : Nat)
    (p : Program Instance PacketFilter) : Prop extends Resolved limit json e bound field where
  reference : (addTree 1 field.tree Allocation.empty).2 = .register r
  larger : Extends (addTree 1 field.tree Allocation.empty).1.nodes p.nodes
  count : p.nodes.length = (addTree 1 field.tree Allocation.empty).1.nodes.length
  exports : p.exports = [r]

private theorem Resolved.legal {limit : Nat} {json : Json} {e : Expression} {bound : Bound Instance} {field : Field (Typed Instance)}
    (resolved : Resolved limit json e bound field) : Legal field.tree where
  drawn := resolved.erased ▸ resolved.drawn
  regular := resolved.erased ▸ resolved.regular.1

private theorem alone_of_compile {limit : Nat} {json : Json} {p : Program Instance PacketFilter}
    (compiled : (Specification.ofFeatures [json]).compile catalog limit = .ok p) :
    ∃ e bound field r, Alone limit json e bound field r p := by
  obtain ⟨stages⟩ := Specification.compile_stages compiled
  obtain ⟨field, rest, ⟨e, bound, resolved⟩, nothing, typed⟩ := List.forall₂_cons_left_iff.mp (resolved_of_stages stages)
  obtain rfl := List.forall₂_nil_left_iff.mp nothing
  have allocated := stages.allocated
  rw [stages.controls_eq_nil rfl, typed] at allocated
  obtain ⟨made, added, same⟩ := bind_eq_ok.mp allocated
  obtain rfl : made = stages.allocation := Except.ok.inj same
  obtain ⟨made, added, same⟩ := bind_eq_ok.mp added
  obtain rfl : made = stages.allocation := Except.ok.inj same
  obtain ⟨r, reference⟩ : ∃ r, (addTree 1 field.tree Allocation.empty).2 = .register r := by
    have suits := resolved.erased ▸ resolved.regular.2
    generalize field.tree = tree at suits
    cases tree with
    | raw mark => exact suits.elim
    | constant value => exact ⟨_, rfl⟩
    | call typing args => exact ⟨_, rfl⟩
  have legal := resolved.legal
  have before := (addTree_refers 1 field.tree Allocation.empty (Tidy.empty : Tidy catalog []) legal.drawn legal.regular).1.exports
  have inside := (addTree_sound 1 field.tree Allocation.empty (by rintro _ _ ⟨⟩)).2
  rw [reference] at inside
  change Allocation.empty.addField 1 field = .ok stages.allocation at added
  rw [addField_eq, reference] at added
  obtain ⟨larger, count, exports, -⟩ := addExport_extends (e := ⟨r, field.name, field.declared, 1⟩) inside added
  have nodes : p.nodes = stages.allocation.nodes := Allocation.program_nodes stages.finished
  refine ⟨e, bound, field, r, resolved, reference, nodes ▸ larger, nodes ▸ count, ?_⟩
  rw [Allocation.program_exports stages.finished, exports, before]
  rfl

def directionName (forward : Bool) : String :=
  if forward then "forward" else "backward"

def onlyDirection (forward : Bool) (json : Json) : Json :=
  .array [.string "apply", json, .string (directionName forward)]

theorem apply_of_name {entry : Entry Instance} (member : entry ∈ entries) (named : entry.name = "apply") :
    entry = substitutionEntry "apply" .flowFeature := by
  have listed : entries.filter (·.name == "apply") = [substitutionEntry "apply" .flowFeature] := rfl
  exact eq_of_listed listed member (beq_iff_eq.mpr named)

private theorem direction_of_name {forward : Bool} {entry : Entry Instance} (member : entry ∈ entries)
    (named : entry.name = directionName forward) :
    entry = selectionEntry (directionName forward) [.rawPacket] false (.direction forward) := by
  have listed : entries.filter (·.name == directionName forward) =
      [selectionEntry (directionName forward) [.rawPacket] false (.direction forward)] := by
    cases forward <;> rfl
  exact eq_of_listed listed member (beq_iff_eq.mpr named)

private theorem unfolded_direction (forward : Bool) (e : Expression) :
    unfolded (.call "apply" [e, .call (directionName forward) [.raw ()]]) =
      .call "apply" [unfolded e, .call (directionName forward) [.raw ()]] := by
  cases forward <;> rfl

private theorem takes_direction {forward : Bool} {bound : Bound Instance}
    (takes : Takes .selection (.call (directionName forward) [.raw ()]) bound) :
    ∃ direction, Directs direction forward ∧ Bound.settled bound = directed direction := by
  have drawn : Bound.Over catalog bound := Bound.over_ofExpression (Expression.Written.name _).scalar takes
  obtain ⟨candidate, bounds, rfl, binds⟩ := takes_call takes
  have entry := direction_of_name (Catalog.mem_entries drawn.head) binds.name
  have build : candidate.entry.build = some fun _ => .direction forward := by rw [entry]; rfl
  obtain ⟨bound, rfl, raw⟩ := binds.sole (show candidate.entry.arguments = [.rawPacket] by rw [entry]; rfl) (by decide)
    (by decide)
  obtain ⟨-, rfl⟩ := takes_raw raw
  refine ⟨candidate, ?_, ?_⟩
  · rw [Directs, build]
    rfl
  · rw [Bound.settled_call build, entry]
    rfl

private theorem Resolved.of_direction {limit : Nat} {json : Json} {forward : Bool} {e : Expression} {bound : Bound Instance}
    {field : Field (Typed Instance)} (resolved : Resolved limit (onlyDirection forward json) e bound field) :
    ∃ e₁ bound₁ direction, Expression.ofJson json = .ok e₁ ∧ Takes .flowFeature (unfolded e₁) bound₁ ∧
      Directs direction forward ∧ Bound.settled bound = (Bound.settled bound₁).withInput (directed direction) := by
  obtain ⟨args, each, rfl⟩ := map_eq_ok.mp (show (Expression.ofJsons [json, .string (directionName forward)]).map
    (.call "apply") = .ok e from resolved.read)
  obtain ⟨e₁, read, each⟩ := bind_eq_ok.mp each
  obtain ⟨rest, second, each⟩ := bind_eq_ok.mp each
  obtain rfl : [.call (directionName forward) [.raw ()]] = rest := by
    cases forward <;> exact Except.ok.inj second
  obtain rfl := Except.ok.inj each
  have takes := resolved.takes
  have drawn : Bound.Over catalog bound := Bound.over_ofExpression resolved.written.scalar takes
  rw [unfolded_direction] at takes
  obtain ⟨candidate, bounds, rfl, binds⟩ := takes_call takes
  have entry := apply_of_name (Catalog.mem_entries drawn.head) binds.name
  obtain ⟨bound₁, bound₂, rfl, first, second⟩ := binds.pair
    (show candidate.entry.arguments = [.flowFeature, .selection] by rw [entry]; rfl) (by decide) (by decide) (by decide)
  obtain ⟨direction, directs, settled⟩ := takes_direction second
  refine ⟨e₁, bound₁, direction, read, first, directs, ?_⟩
  rw [Bound.settled_substitution (by rw [entry]; rfl) (by rw [entry]; rfl), settled]

/-- Applied to a direction, a feature has the registers behind a gate that it has by itself. -/
private theorem behind_of_compile {limit : Nat} {json : Json} {forward : Bool} {p p' : Program Instance PacketFilter}
    (compiled : (Specification.ofFeatures [json]).compile catalog limit = .ok p)
    (compiled' : (Specification.ofFeatures [onlyDirection forward json]).compile catalog limit = .ok p') :
    ∃ gate, Behind gate forward p p' := by
  obtain ⟨e, bound, field, r, alone⟩ := alone_of_compile compiled
  obtain ⟨e', bound', field', r', alone'⟩ := alone_of_compile compiled'
  obtain ⟨e₁, bound₁, direction, read, takes, directs, settled⟩ := alone'.of_direction
  obtain rfl := Except.ok.inj (alone.read.symm.trans read)
  obtain rfl := Except.ok.inj (alone.takes.symm.trans takes)
  have suits := alone.regular.2
  have same : field'.tree.erase = Tree.fedBy (directed direction) field.tree.erase := by
    rw [alone'.erased, alone.erased, settled]
    exact Tree.withInput_eq_fedBy (fun mark raw => by rw [raw] at suits; exact suits) _
  have start : Growing none forward direction (Allocation.empty : Allocation Instance).nodes Allocation.empty.nodes := .empty
  obtain ⟨gate, -, growing, reference, -⟩ := addTree_gated directs 1 field.tree field'.tree start same alone.legal alone'.legal
  refine ⟨gate, growing.toFenced.mark alone.larger alone.count alone'.larger alone'.count, ?_⟩
  rw [alone.reference, alone'.reference] at reference
  rw [alone.exports, alone'.exports, Argument.register.inj reference]
  rfl

/-- Where no register runs for each packet on constants only, a feature that is applied to a direction reports of all packets
what it reports of the packets of this direction by itself. -/
theorem compile_reports_direction {limit : Nat} {json : Json} {forward : Bool} {p p' : Program Instance PacketFilter}
    (compiled : (Specification.ofFeatures [json]).compile catalog limit = .ok p)
    (compiled' : (Specification.ofFeatures [onlyDirection forward json]).compile catalog limit = .ok p')
    (unclocked : ∀ node ∈ p.nodes, p.isClocked node = false) (exporters exporters' : List Exporter) (packets : List Packet)
    (reason : EndReason) (now : Int64) {row row' : Row}
    (member : row ∈ rowsOf ⟨p, exporters⟩ (packets.filter (·.forward = forward)) reason now)
    (member' : row' ∈ rowsOf ⟨p', exporters'⟩ packets reason now) :
    ∃ value, row.values = [value] ∧ row'.values = [value] := by
  have built := compiled_of_compile compiled rfl rfl
  have built' := compiled_of_compile compiled' rfl rfl
  obtain ⟨gate, behind⟩ := behind_of_compile compiled compiled'
  have same := values_behind ⟨p, exporters⟩ ⟨p', exporters'⟩ behind
    ⟨built.ordered, built.uncontrolled, built.unfiltered, built.calm exporters⟩
    ⟨built'.ordered, built'.uncontrolled, built'.unfiltered, built'.calm exporters'⟩ unclocked packets member member'
  obtain ⟨count, -⟩ := built.reports exporters (packets.filter (·.forward = forward)) reason now member
  obtain ⟨value, shown⟩ := List.length_eq_one_iff.mp count
  exact ⟨value, shown, same.trans shown⟩

/-- The lengths of long packets and how many forward packets there are, taken apart. -/
def longLengths : Json :=
  .array [.string "subtract",
    .array [.string "apply", .array [.string "sum", .string "ipTotalLength"],
      .array [.string "select", .array [.string "greater", .string "ipTotalLength", .number (.natural 70)]]],
    .array [.string "count", .array [.string "map", .string "ipTotalLength", .string "forward"]]]

theorem compile_reports_direction_long : ∃ p p' row row',
    (Specification.ofFeatures [longLengths]).compile catalog 4096 = .ok p ∧
      (Specification.ofFeatures [onlyDirection true longLengths]).compile catalog 4096 = .ok p' ∧
      (∀ node ∈ p.nodes, p.isClocked node = false) ∧
      row ∈ rowsOf ⟨p, []⟩ (threePackets.filter (·.forward = true)) .forcedEnd 0 ∧
      row' ∈ rowsOf ⟨p', []⟩ threePackets .forcedEnd 0 ∧ row'.values.map (Option.map Value.display) = [some "78"] ∧
      ∃ value, row.values = [value] ∧ row'.values = [value] := by
  have unclocked : ((Specification.ofFeatures [longLengths]).compile catalog 4096).toOption.all
      (fun p => p.nodes.all fun node => !p.isClocked node) = true := by decide +kernel
  obtain ⟨p, row, compiled, member, -⟩ := exists_row
    (show shownRows (.ofFeatures [longLengths]) (threePackets.filter (·.forward = true)) = [[some "78"]] by decide +kernel)
  obtain ⟨p', row', compiled', member', shown⟩ := exists_row
    (show shownRows (.ofFeatures [onlyDirection true longLengths]) threePackets = [[some "78"]] by decide +kernel)
  rw [compiled] at unclocked
  have free : ∀ node ∈ p.nodes, p.isClocked node = false := by
    intro node inside
    have held := List.all_eq_true.mp unclocked node inside
    rwa [Bool.not_eq_true'] at held
  exact ⟨p, p', row, row', compiled, compiled', free, member, member', shown,
    compile_reports_direction compiled compiled' free [] [] threePackets .forcedEnd 0 member member'⟩

/-- A packet is long if its length is greater than a sum of constants. -/
def comparedLengths : Json :=
  .array [.string "apply", .array [.string "count", .string "ipTotalLength"],
    .array [.string "select", .array [.string "greater", .string "ipTotalLength", sumOfConstants]]]

/-- A feature that is restricted to the direction reports something else on all packets than the feature itself on the
packets of that direction. -/
def Misses (json : Json) (events : List Packet) : Prop :=
  ∃ p p' row row', (Specification.ofFeatures [json]).compile catalog 4096 = .ok p ∧
    (Specification.ofFeatures [onlyDirection true json]).compile catalog 4096 = .ok p' ∧
    row ∈ rowsOf ⟨p, []⟩ (events.filter (·.forward = true)) .forcedEnd 0 ∧ row' ∈ rowsOf ⟨p', []⟩ events .forcedEnd 0 ∧
    row'.values ≠ row.values

private theorem misses_of_rows {json : Json} {events : List Packet} (shown shown' : List (Option String))
    (rows : shownRows (.ofFeatures [json]) (events.filter (·.forward = true)) = [shown])
    (rows' : shownRows (.ofFeatures [onlyDirection true json]) events = [shown']) (other : shown' ≠ shown) :
    Misses json events := by
  obtain ⟨p, row, compiled, member, rfl⟩ := exists_row rows
  obtain ⟨p', row', compiled', member', rfl⟩ := exists_row rows'
  exact ⟨p, p', row, row', compiled, compiled', member, member', fun same => other (same ▸ rfl)⟩

/-- An operator on constants does not read the packets, so that no gate stands before it: it runs for the packets of both
directions, and its values are counted for every packet. The second feature differs by a slip: a predicate is meant to decide on
the packet at hand, but behind a gate the packet comes before the operator has spoken, and is lost. -/
theorem direction_misses_constants :
    Misses (.array [.string "count", sumOfConstants]) threePackets ∧ Misses comparedLengths threePackets := by
  have counted : Misses (.array [.string "count", sumOfConstants]) threePackets :=
    misses_of_rows [some "2"] [some "3"] (by decide +kernel) (by decide +kernel) (by decide)
  have compared : Misses comparedLengths threePackets :=
    misses_of_rows [some "2"] [some "0"] (by decide +kernel) (by decide +kernel) (by decide)
  exact ⟨counted, compared⟩

end Library

end FlowMetering
