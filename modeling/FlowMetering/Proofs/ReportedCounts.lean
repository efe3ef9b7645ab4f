import FlowMetering.Proofs.CountedPackets
import FlowMetering.Proofs.ReportedTypes

/-! Counts that are reported. A compiled program that exports the number of packets has a register that counts them, and
behind all others the register of the control, if there is one. -/

namespace FlowMetering.Library

open Allocation (controlNode)

variable {limit : Nat} {s : Specification} {p : Program Instance PacketFilter}

private theorem ne_controlKey {nodes : List (Node Instance)} (tidy : Allocation.Tidy catalog nodes) {node : Node Instance}
    (member : node ∈ nodes) : node.key ≠ "ctl:_tcpEnd" := by
  intro same
  obtain ⟨q, inside, rfl⟩ := List.getElem_of_mem member
  rcases tidy.held q _ (List.getElem?_eq_getElem inside) with ⟨value, scalar, refers, key⟩ | ⟨binding, args, -, -, -, -, key⟩
  · have signs := congrArg String.toList (key.symm.trans same)
    rw [Typed.constantKey, String.toList_append, String.toList_append, String.toList_append] at signs
    simp at signs
  · have signs := congrArg String.toList (key.symm.trans same)
    rw [callKey_argumentKeys] at signs
    have mark : '#' ∈ "ctl:_tcpEnd".toList := by
      rw [← signs]
      simp
    exact absurd mark (by decide)

/-- A program of the registers of some features, and that of a control behind them if there is one. -/
structure Tailed (p : Program Instance PacketFilter) (front : List (Node Instance)) (control : Option (Registered Instance)) :
    Prop where
  entry : ∀ chosen, control = some chosen → chosen.entry = controlEntry "_tcpEnd" (.tcpEnd false false)
  nodes : p.nodes = front ++ (control.map (controlNode 1)).toList
  controls : p.controls = (control.map fun _ => front.length).toList

theorem tailed_of_stages (stages : Specification.Stages catalog limit s p)
    (single : s.control = [] ∨ s.control = [.string "_tcpEnd"]) {made : Allocation Instance}
    (exported : Allocation.Exported catalog made stages.typed)
    (same : stages.allocation = stages.controls.zipIdx.foldl (fun a (control, i) => a.addControl (i + 1) control) made) :
    ∃ control : Option (Registered Instance), control.isNone = s.control.isEmpty ∧ Tailed p made.nodes control := by
  have nodes : p.nodes = stages.allocation.nodes := Allocation.program_nodes stages.finished
  have controls : p.controls = stages.allocation.controls := Allocation.program_controls stages.finished
  have named := Specification.stage_results stages.named
  have bound := Specification.stage_results stages.controlled
  rcases single with nothing | only
  · rw [nothing, List.forall₂_nil_left_iff] at named
    rw [named, List.forall₂_nil_left_iff] at bound
    rw [same, bound] at nodes controls
    refine ⟨none, by rw [nothing]; rfl, by rintro _ ⟨⟩, nodes.trans (List.append_nil _).symm, controls.trans exported.controls⟩
  · rw [only] at named
    obtain ⟨name, names, -, ended, listed⟩ := List.forall₂_cons_left_iff.mp named
    rw [List.forall₂_nil_left_iff.mp ended] at listed
    rw [listed] at bound
    obtain ⟨control, rest, -, ended, controlled⟩ := List.forall₂_cons_left_iff.mp bound
    rw [List.forall₂_nil_left_iff.mp ended] at controlled
    obtain ⟨registered, result⟩ := registered_control stages (controlled ▸ List.mem_singleton_self control)
    have entry := tcpEnd_of_control registered result
    have key : (controlNode 1 control).key = "ctl:_tcpEnd" := by
      rw [controlNode, entry]
      rfl
    have added : stages.allocation = { made with
        nodes := made.nodes ++ [controlNode 1 control], controls := made.controls ++ [made.nodes.length] } := by
      rw [same, controlled]
      change made.addControl 1 control = _
      rw [Allocation.addControl, if_neg]
      intro taken
      obtain ⟨node, member, same⟩ := List.any_eq_true.mp taken
      exact ne_controlKey exported.tidy member ((eq_of_beq same).trans key)
    rw [added] at nodes controls
    refine ⟨some control, by rw [only]; rfl, ?_, nodes, controls.trans (by rw [exported.controls]; rfl)⟩
    rintro _ ⟨⟩
    exact entry

namespace Tailed

variable {front : List (Node Instance)} {control : Option (Registered Instance)} (tailed : Tailed p front control)
include tailed

theorem isEmpty_controls : p.controls.isEmpty = control.isNone := by
  rw [tailed.controls]
  cases control <;> rfl

private theorem mem_controls {k : Nat} (member : k ∈ p.controls) : k = front.length ∧ ∃ chosen : Registered Instance,
    chosen.entry = controlEntry "_tcpEnd" (.tcpEnd false false) ∧ p.nodes[k]? = some (controlNode 1 chosen) := by
  rw [tailed.controls] at member
  rw [tailed.nodes]
  cases control with
  | none => cases member
  | some chosen =>
    rw [List.mem_singleton.mp member]
    exact ⟨rfl, chosen, tailed.entry chosen rfl, List.getElem?_concat_length⟩

private theorem node_cases {q : Nat} {node : Node Instance} (found : p.nodes[q]? = some node) :
    front[q]? = some node ∨ q ∈ p.controls := by
  rw [tailed.nodes] at found
  rw [tailed.controls]
  by_cases inside : q < front.length
  · rw [List.getElem?_append_left inside] at found
    exact .inl found
  · rw [List.getElem?_append_right (Nat.le_of_not_lt inside)] at found
    have within := (List.getElem?_eq_some_iff.mp found).1
    cases control with
    | none => exact absurd within (Nat.not_lt_zero _)
    | some chosen =>
      change q - front.length < 1 at within
      have last : q = front.length := by omega
      exact .inr (List.mem_singleton.mpr last)

private theorem front_found {q : Nat} {node : Node Instance} (found : front[q]? = some node) : p.nodes[q]? = some node := by
  rw [tailed.nodes]
  exact (List.getElem?_append_left (List.getElem?_eq_some_iff.mp found).1).trans found

end Tailed

structure Counter (node : Node Instance) : Prop where
  plain : node.isControl = false
  varies : node.constant = none
  args : node.args = [.raw]
  build : node.build? = some fun _ => .packetCount 0

private theorem counter_of_compiledTo {nodes : List (Node Instance)} {r : Nat}
    (compiledTo : CompiledTo nodes (.string "packetTotalCount") r) : ∃ node, nodes[r]? = some node ∧ Counter node := by
  obtain ⟨e, bound, read, takes, -, refers⟩ := compiledTo
  cases read
  cases takes
  cases refers with
  | call found varies entry plain count each =>
    rename_i node
    refine ⟨node, found, plain, varies, ?_, by rw [Node.build?, entry]; rfl⟩
    change node.args.length = 1 at count
    obtain ⟨arg, single⟩ := List.length_eq_one_iff.mp count
    rw [single] at each ⊢
    have only := each (arg, .raw .rawFlow) (List.mem_singleton_self _)
    cases only
    rfl

section Stages

variable (stages : Specification.Stages catalog limit s p)
variable {front : List (Node Instance)} {control : Option (Registered Instance)} (tailed : Tailed p front control)
variable {r : Nat} {node : Node Instance} (held : front[r]? = some node) (counter : Counter node)
include stages tailed held counter

private theorem counts_of_tailed (exporters : List Exporter) (full : p.template.isFull = true) : Counts ⟨p, exporters⟩ r := by
  obtain ⟨layout⟩ := stages.layout
  have found := tailed.front_found held
  have inside := (List.getElem?_eq_some_iff.mp held).1
  refine ⟨(List.getElem?_eq_some_iff.mp found).1, ?_, fun q d reads watched => ?_, fun k member => ?_, ?_, fun record sane => ?_⟩
  · refine List.mem_filter.mpr ⟨List.mem_range.mpr (List.getElem?_eq_some_iff.mp found).1, ?_⟩
    rw [Program.node?, found]
    dsimp only
    rw [counter.plain, Node.consumesRaw, counter.args]
    rfl
  · have reads := Program.mem_args_of_dependent reads
    rcases watched with rfl | member
    · rw [Program.args_of_found found, counter.args] at reads
      cases List.mem_singleton.mp reads
    · obtain ⟨-, chosen, -, found⟩ := tailed.mem_controls member
      rw [Program.args_of_found found] at reads
      cases List.mem_singleton.mp reads
  · obtain ⟨rfl, chosen, -, found⟩ := tailed.mem_controls member
    refine ⟨(List.getElem?_eq_some_iff.mp found).1, Nat.ne_of_gt inside, fun event => ?_⟩
    have called := (List.mem_filter.mp event).2
    rw [Program.node?, found] at called
    cases called
  · change p.controls.length ≤ 1
    rw [tailed.controls]
    cases control with
    | none => exact Nat.zero_le 1
    | some chosen => exact Nat.le_refl 1
  · refine TemplateTree.select_of_isFull (TemplateTree.inRange_ofSlots layout.template fun source count point => ?_) full
    rw [count_of_point stages layout (layout.points_slots point), Meter.variant]
    split
    next s held => exact (sane _ s held).1
    next => exact Nat.zero_lt_two

private theorem between_make (exporters : List Exporter) (tidy : Allocation.Tidy catalog front) :
    Between ⟨p, exporters⟩ r [] (Meter.make ⟨p, exporters⟩) := by
  obtain ⟨layout⟩ := stages.layout
  have found := tailed.front_found held
  refine ⟨rfl, rfl, fun _ => ⟨rfl, 0, (false, false), ?_, ?_, fun k member => ?_, ?_⟩, fun full => absurd rfl full⟩
  · intro q state stored
    rw [Meter.make, List.getElem?_map] at stored
    obtain ⟨node, found, started⟩ := Option.map_eq_some_iff.mp stored
    obtain ⟨build, built, rfl⟩ := Option.map_eq_some_iff.mp started
    constructor
    · obtain ⟨entry, -, serves⟩ := (safe stages layout exporters).make q node build found built
      exact serves.variant_lt_two
    · intro silent
      exact (tailed.node_cases found).resolve_left fun held => role_of_tidy tidy held built node.kind silent
  · rw [Meter.make, List.getElem?_map, found, Option.map_some, counter.build]
    rfl
  · obtain ⟨-, chosen, entry, found⟩ := tailed.mem_controls member
    rw [Meter.make, List.getElem?_map, found, Option.map_some]
    change some (chosen.entry.build.map fun build => build .control) = _
    rw [entry]
    rfl
  · exact ⟨_, (List.getElem?_map ..).trans (congrArg _ found)⟩

end Stages

/-- A record hands out the number of packets in each part of its flow: the packets that pass the filters are cut after those
that end a connection, if there is a control that notices. -/
theorem performAll_counts (compiled : s.compile catalog limit = .ok p)
    (single : s.control = [] ∨ s.control = [.string "_tcpEnd"]) (full : p.template.isFull = true) {i : Nat}
    (counted : s.features[i]? = some (.string "packetTotalCount")) (exporters : List Exporter) (packets : List Packet)
    (reason : EndReason) (now : Int64) {accepted : List Packet} (passing : packets.filter (admits p) = accepted) :
    ∃ rows : List Row, Journal.exports (Meter.performAll ⟨p, exporters⟩ (Meter.make ⟨p, exporters⟩)
          (packets.map .event ++ [.stop reason now])).2 = rows.flatMap (handed ⟨p, exporters⟩) ∧
      rows.map (fun row => row.values[i]?) = (parts (closes (!s.control.isEmpty)) [] accepted).map
        (fun part => some (some (.unsigned part.length.toUInt64))) ∧
      (packets.length < UInt64.size →
        ((parts (closes (!s.control.isEmpty)) [] accepted).map fun part => part.length.toUInt64.toNat).sum =
          accepted.length) := by
  subst passing
  obtain ⟨stages⟩ := Specification.compile_stages compiled
  obtain ⟨made, exported, same⟩ := exported_of_stages stages
  obtain ⟨control, listed, tailed⟩ := tailed_of_stages stages single exported same
  obtain ⟨e, held, compiledTo⟩ : ∃ e, made.exports[i]? = some e ∧ CompiledTo made.nodes (.string "packetTotalCount") e.register := by
    obtain ⟨inside, same⟩ := List.getElem?_eq_some_iff.mp counted
    have each := features_compiled stages exported
    have inside' : i < made.exports.length := each.length_eq ▸ inside
    exact ⟨_, List.getElem?_eq_getElem inside', same ▸ each.get inside inside'⟩
  obtain ⟨node, found, counter⟩ := counter_of_compiledTo compiledTo
  have exports : p.exports[i]? = some e.register := by
    have kept := (Allocation.addControls_controlled stages.controls.zipIdx made).exports
    rw [← same] at kept
    rw [Allocation.program_exports stages.finished, kept, List.getElem?_map, held]
    rfl
  obtain ⟨rows, handed, counts⟩ := (between_make stages tailed found counter exporters exported.tidy).reports
    (counts_of_tailed stages tailed found counter exporters full) packets reason now exports
  have controlled : p.controls.isEmpty = s.control.isEmpty := tailed.isEmpty_controls.trans listed
  rw [controlled] at counts
  refine ⟨rows, handed, counts, fun small => ?_⟩
  have whole := flatten_parts (closes (!s.control.isEmpty)) [] (packets.filter (admits p))
  have lengths := congrArg List.length whole
  rw [List.length_flatten, List.nil_append] at lengths
  rw [← lengths]
  refine congrArg List.sum (List.map_congr_left fun part member => ?_)
  have below : part.length ≤ packets.length := by
    refine Nat.le_trans ?_ (List.length_filter_le (admits p) packets)
    exact (List.sublist_flatten_of_mem member).length_le.trans (Nat.le_of_eq (congrArg List.length whole))
  exact Nat.mod_eq_of_lt (Nat.lt_of_le_of_lt below small)

def connections : Specification where
  features := [.string "sourceIPAddress", .string "packetTotalCount"]
  control := [.string "_tcpEnd"]
  filter := ["tcp"]

/-- Both sides finish, a datagram comes between them and the last acknowledgement, and one more packet follows. -/
def closing : List Packet :=
  [(Packet.ofLength 1 60).withTcp 40000 443 Packet.fin, ((Packet.ofLength 2 60).backward).withTcp 443 40000 Packet.fin,
    (Packet.ofLength 3 90).withUdp 40000 443, (Packet.ofLength 4 60).withTcp 40000 443 Packet.ack,
    (Packet.ofLength 5 60).withTcp 40000 443 Packet.syn]

theorem performAll_counts_closing : ∃ (p : Program Instance PacketFilter) (rows : List Row) (accepted : List Packet),
    connections.compile catalog 4096 = .ok p ∧ p.template.isFull = true ∧
    closing.filter (admits p) = accepted ∧ accepted.length = 4 ∧
    (parts (closes true) [] accepted).map List.length = [3, 1] ∧
    Journal.exports (Meter.performAll ⟨p, [sink]⟩ (Meter.make ⟨p, [sink]⟩)
      (closing.map .event ++ [.stop .forcedEnd 6])).2 = rows.flatMap (handed ⟨p, [sink]⟩) ∧
    rows.map (fun row => row.values[1]?) = (parts (closes true) [] accepted).map
      (fun part => some (some (.unsigned part.length.toUInt64))) ∧
    ((parts (closes true) [] accepted).map fun part => part.length.toUInt64.toNat).sum = accepted.length := by
  have facts : (connections.compile catalog 4096).toOption.any (fun p => p.template.isFull &&
      decide ((closing.filter (admits p)).length = 4) &&
      decide ((parts (closes true) [] (closing.filter (admits p))).map List.length = [3, 1])) = true := by decide +kernel
  cases compiled : connections.compile catalog 4096 with
  | error _ =>
    rw [compiled] at facts
    cases facts
  | ok p =>
    rw [compiled] at facts
    obtain ⟨⟨full, count⟩, lengths⟩ : (p.template.isFull = true ∧ _) ∧ _ := by
      simpa only [Except.toOption, Option.any_some, Bool.and_eq_true, decide_eq_true_eq] using facts
    obtain ⟨rows, handed, counts, sum⟩ := performAll_counts compiled (.inr rfl) full (i := 1) rfl [sink] closing .forcedEnd 6 rfl
    exact ⟨p, rows, _, rfl, full, rfl, count, lengths, handed, counts, sum (by decide)⟩

end FlowMetering.Library
