import FlowMetering.Proofs.AppliedSelections
import FlowMetering.Proofs.PartedFlows

/-! Packets that are chosen from a part. Whatever an argument hands on of the packets of a part, all features that read it have
had just that when the part ends: those of whole flows directly, and aggregates as values that a packet feature has read from
the same packets. -/

namespace FlowMetering.Library

variable {φ : Type} {m : Meter Instance φ} {a : Argument}

/-- Which packets of a part an argument has handed on so far, beside what the instances are then. -/
structure Picks (m : Meter Instance φ) (a : Argument) (pick : List Packet → List Packet → List (Option Instance) → Prop) :
    Prop where
  aside : ∀ part chosen instances instances', pick part chosen instances →
    (∀ q ∉ m.program.controls, instances'[q]? = instances[q]?) → pick part chosen instances'
  start : ∀ instances, Begun m.program instances → pick [] [] instances
  deliver : ∀ part chosen packet (t : Turn Instance φ), t.Shows (Fit m.program) → pick part chosen t.record.instances →
    (supplied m packet t a = [] ∧ pick (part ++ [packet]) chosen (m.deliverPacket packet t).record.instances) ∨
    (supplied m packet t a = [.packet packet a.source] ∧
      pick (part ++ [packet]) (chosen ++ [packet]) (m.deliverPacket packet t).record.instances)

/-- What reads an argument has had what it has handed on of a part. -/
structure Had (p : Program Instance φ) (a : Argument) (chosen : List Packet) (journal : Journal)
    (instances : List (Option Instance)) : Prop where
  received : ∀ {r initial gather}, Sums initial gather → Fed p r a initial → Journal.received journal r = chosen
  sums : ∀ {r initial gather}, Sums initial gather → Fed p r a initial →
    instances[r]? = some (some (initial.absorb chosen))
  reads : ∀ {d reader read}, Reads reader read → Fed p d a reader →
    ∃ reader', instances[d]? = some (some reader') ∧ Reads reader' read
  collects : ∀ {r d initial gather reader read}, Collects initial gather → Fed p r (.register d) initial →
    Reads reader read → Fed p d a reader → instances[r]? = some (some (initial.collect (chosen.filterMap read)))

/-- What reads an argument has had what it has handed on of a part, and shows the results for it. -/
structure Outcomes (p : Program Instance φ) (a : Argument) (chosen : List Packet) (reason : EndReason) (journal : Journal)
    (values : List (Option Value)) : Prop where
  received : ∀ {r initial gather}, Sums initial gather → Fed p r a initial → Journal.received journal r = chosen
  sums : ∀ {r initial gather}, Sums initial gather → Fed p r a initial → values[r]? = some (gather reason chosen)
  collects : ∀ {r d initial gather reader read}, Collects initial gather → Fed p r (.register d) initial →
    Reads reader read → Fed p d a reader → values[r]? = some (gather (chosen.filterMap read))

section Instances

variable {s : Instance}

private theorem Reads.started {read : Packet → Option Value} (reads : Reads s read) (c : Context) : Reads (s.start c) read := by
  cases reads with
  | field field => exact .field field
  | address endpoint variant => exact .address endpoint 0

private theorem Reads.finished {read : Packet → Option Value} (reads : Reads s read) : Reads s.finishEvent read := by
  cases reads <;> constructor

private theorem Reads.packet {read : Packet → Option Value} (reads : Reads s read) (packet : Packet) :
    (s.packet packet).2.emission = .value (read packet) ∧ Reads (s.packet packet).1 read := by
  cases reads with
  | field field => exact ⟨rfl, .field field⟩
  | address endpoint variant => exact ⟨rfl, .address endpoint _⟩

private theorem Reads.operation? {read : Packet → Option Value} (reads : Reads s read) : s.operation? = none := by
  cases reads <;> rfl

theorem Instance.mute_selection (role : s.role? = some .selection) : s.role? ≠ some .flow ∧ s.operation? = none := by
  refine ⟨by rw [role]; nofun, ?_⟩
  cases s with
  | operator op kind slots constant =>
    rw [role?_operator] at role
    split at role <;> cases role
  | _ => rfl

private theorem absorb_snoc (s : Instance) (packets : List Packet) (packet : Packet) :
    s.absorb (packets ++ [packet]) = ((s.absorb packets).packet packet).1 :=
  List.foldl_append

private theorem collect_snoc (s : Instance) (values : List Value) (v : Value) :
    s.collect (values ++ [v]) = ((s.collect values).value v [0]).1 :=
  List.foldl_append

end Instances

/-- A register with a role is none of a control. -/
theorem Governed.not_mem_controls (governed : Governed m) {r : Nat} {node : Node Instance} {s : Instance}
    (found : m.program.nodes[r]? = some node) (built : node.build? = some fun _ => s) (role : s.role? ≠ none) :
    r ∉ m.program.controls := by
  intro member
  obtain ⟨node', build, found', built', initial⟩ := governed.made r member
  cases found.symm.trans found'
  cases built.symm.trans built'
  exact role (congrArg Instance.role? initial)

section Fed

variable {p : Program Instance φ} {r d : Nat} {s : Instance}

private theorem Fed.begun (fed : Fed p r a s) {instances : List (Option Instance)} (begun : Begun p instances) :
    instances[r]? = some (some (s.start (footing p r))) := by
  obtain ⟨node, found, -, -, -, built⟩ := fed
  exact begun r node _ found built

private theorem Fed.sorted (fed : Fed p r a s) {s' : Instance} (sorted : Sorted p r s') :
    s'.role? = s.role? ∧ s'.operation? = s.operation? := by
  obtain ⟨node, found, -, -, -, built⟩ := fed
  obtain ⟨node', build, found', built', role, operation⟩ := sorted
  cases found.symm.trans found'
  cases built.symm.trans built'
  exact ⟨role, operation⟩

private theorem Fed.positions (fed : Fed p r (.register d) s) : (footing p r).positions (.register d) = [0] := by
  obtain ⟨node, found, args, -⟩ := fed
  have args' : (footing p r).args = [.register d] := (Program.args_of_found found).trans args
  simp [Context.positions, args']

private theorem Fed.mem_controls {m : Meter Instance φ} (governed : Governed m) (fed : Fed m.program r a s) (role : s.role? ≠ none) :
    r ∉ m.program.controls := by
  obtain ⟨node, found, -, -, -, built⟩ := fed
  exact governed.not_mem_controls found built role

end Fed

section Steps

variable {part chosen : List Packet} {instances instances' : List (Option Instance)} {past journal journal' : Journal}

private theorem Had.aside (governed : Governed m) (had : Had m.program a chosen journal instances)
    (kept : ∀ q ∉ m.program.controls, instances'[q]? = instances[q]? ∧ Journal.received journal' q = Journal.received journal q) :
    Had m.program a chosen journal' instances' where
  received sums fed := by
    rw [(kept _ (fed.mem_controls governed (sums.role ▸ nofun))).2]
    exact had.received sums fed
  sums sums fed := by
    rw [(kept _ (fed.mem_controls governed (sums.role ▸ nofun))).1]
    exact had.sums sums fed
  reads reads fed := by
    rw [(kept _ (fed.mem_controls governed (reads.role ▸ nofun))).1]
    exact had.reads reads fed
  collects collects fed reads fed' := by
    rw [(kept _ (fed.mem_controls governed (collects.role ▸ nofun))).1]
    exact had.collects collects fed reads fed'

private theorem Had.start (begun : Begun m.program instances) (nothing : ∀ q, Journal.received journal q = []) :
    Had m.program a [] journal instances where
  received _ _ := nothing _
  sums sums fed := (fed.begun begun).trans (congrArg (fun s => some (some s)) (sums.start _))
  reads reads fed := ⟨_, fed.begun begun, reads.started _⟩
  collects collects fed _ _ := (fed.begun begun).trans (congrArg (fun s => some (some s)) (collects.start _))

section Deliveries

variable (ordered : m.program.Ordered) (once : SpeaksOnce m) (free : m.program.known a = none)
variable {packet : Packet} {t : Turn Instance φ} (ready : t.Shows (Ready m.program))
variable (had : Had m.program a chosen (past ++ t.journal) t.record.instances)
include ordered once free ready had

private theorem Had.given {d : Nat} {reader : Instance} {read : Packet → Option Value} (reads : Reads reader read)
    (fed : Fed m.program d a reader) :
    (supplied m packet t a = [] → supplied m packet t (.register d) = []) ∧
      (supplied m packet t a = [.packet packet a.source] →
        supplied m packet t (.register d) = ((read packet).map (Input.value · d)).toList) := by
  obtain ⟨reader', held, reads'⟩ := had.reads reads fed
  rw [(fed.sole free).supplied ordered once ready held]
  constructor
  · intro nothing
    rw [nothing]
    rfl
  · intro handed
    rw [handed]
    change ([(reader'.packet packet).2.emission].filterMap _) = _
    rw [(reads'.packet packet).1]
    cases read packet <;> rfl

private theorem Had.skip (nothing : supplied m packet t a = []) : Had m.program a chosen (past ++ (m.deliverPacket packet t).journal)
    (m.deliverPacket packet t).record.instances where
  received sums fed := by
    rw [deliverPacket_received packet (had.sums sums fed) past, (fed.sole free).inputs ordered once ready, nothing,
      had.received sums fed]
    exact List.append_nil chosen
  sums sums fed := by
    rw [(fed.sole free).delivered ordered once ready (had.sums sums fed), nothing]
    exact congrArg (fun s => some (some s)) (sums.finish chosen)
  reads reads fed := by
    obtain ⟨reader, held, reads⟩ := had.reads reads fed
    refine ⟨_, (fed.sole free).delivered ordered once ready held, ?_⟩
    rw [nothing]
    exact reads.finished
  collects collects fed reads fed' := by
    have silent := (had.given ordered once free ready reads fed').1 nothing
    rw [(fed.sole fed'.varies).delivered ordered once ready (had.collects collects fed reads fed'), silent]
    exact congrArg (fun s => some (some s)) (collects.finish _)

private theorem Had.take (handed : supplied m packet t a = [.packet packet a.source]) : Had m.program a (chosen ++ [packet])
    (past ++ (m.deliverPacket packet t).journal) (m.deliverPacket packet t).record.instances where
  received sums fed := by
    rw [deliverPacket_received packet (had.sums sums fed) past, (fed.sole free).inputs ordered once ready, handed,
      had.received sums fed]
    rfl
  sums sums fed := by
    rw [(fed.sole free).delivered ordered once ready (had.sums sums fed), handed]
    refine congrArg (fun s => some (some s)) (Eq.trans (congrArg Instance.finishEvent ?_) (sums.finish (chosen ++ [packet])))
    rw [absorb_snoc]
    rfl
  reads reads fed := by
    obtain ⟨reader, held, reads⟩ := had.reads reads fed
    refine ⟨_, (fed.sole free).delivered ordered once ready held, ?_⟩
    rw [handed]
    exact (reads.packet packet).2.finished
  collects {r d initial gather reader read} collects fed reads fed' := by
    have given := (had.given ordered once free ready reads fed').2 handed
    rw [(fed.sole fed'.varies).delivered ordered once ready (had.collects collects fed reads fed'), given]
    refine congrArg (fun s => some (some s)) (Eq.trans (congrArg Instance.finishEvent ?_) (collects.finish _))
    cases result : read packet with
    | none => rw [List.filterMap_append, List.filterMap_cons_none result, List.filterMap_nil, List.append_nil]; rfl
    | some v =>
      rw [List.filterMap_append, List.filterMap_cons_some result, List.filterMap_nil, collect_snoc, ← fed.positions]
      rfl

end Deliveries

private theorem Had.finish (free : m.program.known a = none) (gates : Gates m.program a) {t : Turn Instance φ}
    (fit : t.Shows (Fit m.program)) (had : Had m.program a chosen (past ++ t.journal) t.record.instances) (reason : EndReason)
    (time : Int64) : ((List.range m.program.size).foldl (m.stopOne reason time) t).Plays past
      fun journal _ values => Outcomes m.program a chosen reason journal values where
  received sums fed := by
    rw [(Dry.foldl (Dry.stopOne m reason time) (List.range m.program.size) t).received]
    exact had.received sums fed
  sums sums fed := by
    have sole := fed.sole free
    refine stopSweep_value (fun q reads s sorted => ?_) reason time fit.1.1 (had.sums sums fed) (fit.2 ▸ sole.inside)
      (sums.stop reason chosen)
    exact Instance.mute_selection (gates q (sole.mem_dependents.mp reads) s sorted)
  collects collects fed reads fed' := by
    have sole := fed.sole fed'.varies
    refine stopSweep_value (fun q dependent s sorted => ?_) reason time fit.1.1 (had.collects collects fed reads fed')
      (fit.2 ▸ sole.inside) (collects.stop reason _)
    cases sole.mem_dependents.mp dependent
    obtain ⟨role, operation⟩ := fed'.sorted sorted
    rw [role, operation, reads.role, reads.operation?]
    exact ⟨nofun, rfl⟩

end Steps

private theorem Picks.tracks {pick : List Packet → List Packet → List (Option Instance) → Prop} (picks : Picks m a pick)
    (governed : Governed m) (ordered : m.program.Ordered) (once : SpeaksOnce m) (free : m.program.known a = none)
    (gates : Gates m.program a) : Tracks m
      (fun part journal instances => ∃ chosen, pick part chosen instances ∧ Had m.program a chosen journal instances)
      (fun part journal _ values => ∃ chosen reason, (∃ before, pick part chosen before) ∧
        Outcomes m.program a chosen reason journal values) where
  aside part journal journal' instances instances' := by
    rintro ⟨chosen, picked, had⟩ kept
    exact ⟨chosen, picks.aside part chosen _ _ picked fun q free => (kept q free).1, had.aside governed kept⟩
  start journal instances begun nothing := ⟨[], picks.start instances begun, .start begun nothing⟩
  deliver part past packet t fit := by
    rintro ⟨chosen, picked, had⟩
    rcases picks.deliver part chosen packet t fit picked with ⟨nothing, picked⟩ | ⟨handed, picked⟩
    · exact ⟨chosen, picked, had.skip ordered once free fit.1 nothing⟩
    · exact ⟨chosen ++ [packet], picked, had.take ordered once free fit.1 handed⟩
  finish part past reason time t fit := by
    rintro ⟨chosen, picked, had⟩
    exact ⟨chosen, reason, ⟨_, picked⟩, had.finish free gates fit reason time⟩

section Compiled

variable {limit : Nat} {s : Specification} {m : Meter Instance PacketFilter} {selections : List Json}

/-- What an attempt to export tells of the features behind some selections: the registers of those of whole flows have been given
the packets that were chosen, and a row has the values of these packets. -/
structure Recounts (s : Specification) (p : Program Instance PacketFilter) (selections : List Json) (chosen : List Packet)
    (reason : EndReason) (before : Journal) (row : Option Row) : Prop where
  selected : row = none → ∃ variant, p.template.select variant = none
  count : ∀ shown ∈ row, shown.values.length = p.exports.length
  received : ∀ {i : Nat} {name gather}, s.features[i]? = some (applied (.string name) selections) →
    flowSource? name = some gather → ∃ r, p.exports[i]? = some r ∧ Journal.received before r = chosen
  sums : ∀ {i : Nat} {name gather}, s.features[i]? = some (applied (.string name) selections) →
    flowSource? name = some gather → ∀ shown ∈ row, shown.values[i]? = some (gather reason chosen)
  collects : ∀ {i : Nat} {rule source gather read},
    s.features[i]? = some (applied (.array [.string rule, .string source]) selections) → aggregate? rule = some gather →
    packetSource? source = some read → ∀ shown ∈ row, shown.values[i]? = some (gather (chosen.filterMap read))

private theorem value_of_row {record : Record Instance PacketFilter} {time : Int64} {row : Row} (shown : row ∈ m.row? record time)
    {i r : Nat} {v : Option Value} (exported : m.program.exports[i]? = some r) (value : record.values[r]? = some v) :
    row.values[i]? = some v := by
  obtain ⟨template, -, rfl⟩ := Option.map_eq_some_iff.mp shown
  rw [List.getElem?_map, exported, Option.map_some, value]
  rfl

private theorem Outcomes.recounts {record : Record Instance PacketFilter} {a : Argument} {chosen : List Packet} {reason : EndReason}
    {before : Journal} (outcomes : Outcomes m.program a chosen reason before record.values)
    (opening : Opening s m.program selections a) (time : Int64) :
    Recounts s m.program selections chosen reason before (m.row? record time) where
  selected none := ⟨_, Option.map_eq_none_iff.mp none⟩
  count shown selected := by
    obtain ⟨template, -, rfl⟩ := Option.map_eq_some_iff.mp selected
    exact List.length_map ..
  received feature source := by
    obtain ⟨r, initial, exported, sums, fed⟩ := opening.sums feature source
    exact ⟨r, exported, outcomes.received sums fed⟩
  sums feature source row shown := by
    obtain ⟨r, initial, exported, sums, fed⟩ := opening.sums feature source
    exact value_of_row shown exported (outcomes.sums sums fed)
  collects feature gathers source row shown := by
    obtain ⟨r, d, initial, reader, exported, collects, fed, reads, fed'⟩ := opening.collects feature gathers source
    exact value_of_row shown exported (outcomes.collects collects fed reads fed')

/-- At the end of each part of a run, the features behind the same selections report of the same packets of this part, and
nothing else is handed out. -/
theorem performAll_recounts (compiled : s.compile catalog limit = .ok m.program) {a : Argument}
    (opening : Opening s m.program selections a) {pick : List Packet → List Packet → List (Option Instance) → Prop}
    (picks : Picks m a pick) (operations : List Operation) : ∃ rows : List (Option Row),
    List.Forall₂ (fun part row => ∃ before h after, (m.performAll m.make operations).2 = before ++ h :: after ∧
      h.outcome? = some row ∧ ∃ chosen reason instances, pick part chosen instances ∧
        Recounts s m.program selections chosen reason before row)
      (partsOf (admits m.program) (closes (!m.program.controls.isEmpty)) [] operations) rows ∧
    Journal.exports (m.performAll m.make operations).2 = rows.reduceOption.flatMap (handed m) := by
  have governed := governed_of_compile compiled
  have ordered := Specification.compile_ordered compiled
  have tracks := picks.tracks governed ordered (speaksOnce_of_compile compiled) opening.free opening.gates
  obtain ⟨rows, each, exports⟩ := (Carries.make governed ordered).performAll governed ordered tracks operations
  refine ⟨rows, each.imp fun part row shown => ?_, exports⟩
  obtain ⟨before, h, after, split, outcome, record, time, ⟨chosen, reason, ⟨instances, picked⟩, outcomes⟩, rfl⟩ := shown
  exact ⟨before, h, after, split, outcome, chosen, reason, instances, picked, outcomes.recounts opening time⟩

end Compiled

end FlowMetering.Library
