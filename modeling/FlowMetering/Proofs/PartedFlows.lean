import FlowMetering.Proofs.ExporterCalls
import FlowMetering.Proofs.JournalledRounds
import FlowMetering.Proofs.Liveness
import FlowMetering.Proofs.ReceivedPackets
import FlowMetering.Proofs.ReportedCounts
import FlowMetering.Proofs.SoleArguments

/-! The parts of a flow in a run. Each packet that passes the filters belongs to the part that is open, and the control closes the
part or leaves it open, whatever features there are. What the registers of features have made of the packets of a part is what
the exporters are given when the part ends. -/

namespace FlowMetering

/-- What an attempt to export comes to: a row, or none for lack of a template. -/
def Happening.outcome? : Happening → Option (Option Row)
  | .noTemplate _ => some none
  | .row _ shown => some (some shown)
  | _ => none

namespace Library

open Allocation (controlNode)

/-- The parts of the flow of a run: the packets that are accepted, cut after those that close their part. A stop ends the part
that is open, and nothing comes after it. Some packets of the first part have been seen. -/
def partsOf (accepts : Packet → Bool) (closes : List Packet → Packet → Bool) (earlier : List Packet) :
    List Operation → List (List Packet)
  | [] => []
  | .stop _ _ :: _ => if earlier.isEmpty then [] else [earlier]
  | .event packet :: operations =>
    if accepts packet then
      if closes earlier packet then (earlier ++ [packet]) :: partsOf accepts closes [] operations
      else partsOf accepts closes (earlier ++ [packet]) operations
    else partsOf accepts closes earlier operations

def packetsOf (operations : List Operation) : List Packet :=
  operations.filterMap fun
    | .event packet => some packet
    | .stop _ _ => none

private theorem packetsOf_event (packet : Packet) (operations : List Operation) :
    packetsOf (.event packet :: operations) = packet :: packetsOf operations :=
  rfl

/-- No packet is in two parts, and they are in the order of the run. -/
theorem flatten_partsOf (accepts : Packet → Bool) (closes : List Packet → Packet → Bool) (earlier : List Packet)
    (operations : List Operation) :
    (partsOf accepts closes earlier operations).flatten.Sublist (earlier ++ packetsOf operations) := by
  induction operations generalizing earlier with
  | nil => exact List.nil_sublist _
  | cons operation operations ih =>
    cases operation with
    | stop reason now =>
      rw [partsOf]
      split
      · exact List.nil_sublist _
      · rw [List.flatten_singleton]
        exact List.sublist_append_left ..
    | event packet =>
      have seen := ih (earlier ++ [packet])
      rw [List.append_assoc] at seen
      rw [partsOf, packetsOf_event]
      split
      · split
        · rw [List.flatten_cons, List.append_assoc]
          exact (List.Sublist.refl earlier).append ((List.Sublist.refl [packet]).append (ih []))
        · exact seen
      · exact (ih earlier).trans ((List.Sublist.refl earlier).append (List.sublist_cons_self ..))

variable {φ : Type} {m : Meter Instance φ}

/-- A program with one control at most, which notices the ends of connections and is given nothing but packets. -/
structure Governed (m : Meter Instance φ) : Prop where
  single : m.program.controls.length ≤ 1
  made : ∀ k ∈ m.program.controls, ∃ node build, m.program.nodes[k]? = some node ∧ node.build? = some build ∧
    build node.kind = .tcpEnd false false
  apart : ∀ k ∈ m.program.controls, k ∉ m.program.events ∧ ∀ q, k ∉ m.program.dependents q
  only : ∀ r s, Sorted m.program r s → s.role? = none → r ∈ m.program.controls

private theorem addControls_distinct (controls : List (Registered Instance × Nat)) {a : Allocation Instance}
    (distinct : (a.nodes.map (·.key)).Nodup) :
    ((controls.foldl (fun a (control, i) => a.addControl (i + 1) control) a).nodes.map (·.key)).Nodup := by
  induction controls generalizing a with
  | nil => exact distinct
  | cons control controls ih =>
    refine ih ?_
    dsimp only
    rw [Allocation.addControl]
    split
    · exact distinct
    next fresh =>
      rw [List.map_append, List.map_singleton, List.nodup_append_comm, List.singleton_append, List.nodup_cons]
      refine ⟨fun taken => fresh ?_, distinct⟩
      obtain ⟨node, member, same⟩ := List.mem_map.mp taken
      exact List.any_eq_true.mpr ⟨node, member, beq_iff_eq.mpr same⟩

theorem governed_of_compile {limit : Nat} {s : Specification} {m : Meter Instance PacketFilter}
    (compiled : s.compile catalog limit = .ok m.program) : Governed m := by
  obtain ⟨stages⟩ := Specification.compile_stages compiled
  obtain ⟨made, exported, same⟩ := exported_of_stages stages
  have controlled := Allocation.addControls_controlled stages.controls.zipIdx made
  have distinct := addControls_distinct stages.controls.zipIdx exported.tidy.distinct
  rw [← same, List.zipIdx_map_fst] at controlled
  rw [← same] at distinct
  obtain ⟨more, added, each⟩ := controlled.nodes
  have nodes : m.program.nodes = made.nodes ++ more := (Allocation.program_nodes stages.finished).trans added
  have controls : m.program.controls = List.range' made.nodes.length more.length := by
    rw [Allocation.program_controls stages.finished, controlled.controls, exported.controls, added, List.length_append,
      Nat.add_sub_cancel_left, List.nil_append]
  have tail (k : Nat) (member : k ∈ m.program.controls) : ∃ position control,
      m.program.nodes[k]? = some (controlNode position control) ∧
      control.entry = controlEntry "_tcpEnd" (.tcpEnd false false) := by
    rw [controls, List.mem_range'_1] at member
    have inside : k - made.nodes.length < more.length := by omega
    obtain ⟨position, control, held, same⟩ := each _ (List.getElem_mem inside)
    obtain ⟨registered, result⟩ := registered_control stages held
    refine ⟨position, control, ?_, tcpEnd_of_control registered result⟩
    rw [nodes, List.getElem?_append_right member.1, List.getElem?_eq_getElem inside, same]
  refine ⟨?_, fun k member => ?_, fun k member => ?_, fun r s sorted silent => ?_⟩
  · have alike : more.map (·.key) = List.replicate more.length "ctl:_tcpEnd" := by
      refine List.eq_replicate_iff.mpr ⟨List.length_map .., fun key member => ?_⟩
      obtain ⟨node, inside, rfl⟩ := List.mem_map.mp member
      obtain ⟨position, control, held, rfl⟩ := each node inside
      obtain ⟨registered, result⟩ := registered_control stages held
      rw [controlNode, tcpEnd_of_control registered result]
      rfl
    rw [added, List.map_append, alike] at distinct
    rw [controls, List.length_range']
    exact List.nodup_replicate.mp distinct.of_append_right
  · obtain ⟨position, control, found, entry⟩ := tail k member
    refine ⟨_, fun _ => .tcpEnd false false, found, ?_, rfl⟩
    change control.entry.build = _
    rw [entry]
    rfl
  · obtain ⟨position, control, found, -⟩ := tail k member
    constructor
    · intro event
      cases ((Program.mem_events found).mp event).1
    · intro q reads
      have reads := Program.mem_args_of_dependent reads
      rw [Program.args_of_found found] at reads
      cases List.mem_singleton.mp reads
  · obtain ⟨node, build, found, built, role, -⟩ := sorted
    rw [controls, List.mem_range'_1]
    have inside : r < m.program.nodes.length := (List.getElem?_eq_some_iff.mp found).1
    rw [nodes, List.length_append] at inside
    refine ⟨Nat.le_of_not_lt fun front => ?_, inside⟩
    rw [nodes, List.getElem?_append_left front] at found
    exact role_of_tidy exported.tidy found built node.kind (role.symm.trans silent)

section Exports

private theorem exports_of_endings {journal : Journal} (silent : journal.endings = []) : Journal.exports journal = [] := by
  refine List.filter_eq_nil_iff.mpr fun h member shown => ?_
  have quiet := Journal.endings_eq_nil.mp silent h member
  cases h with
  | «export» => cases quiet
  | _ => cases shown

private theorem exports_of_spares {before after : Turn Instance φ} (spares : Meter.Spares before after) :
    Journal.exports after.journal = Journal.exports before.journal := by
  obtain ⟨calls, grown, only⟩ := spares.calls
  have silent : Journal.exports calls = [] := by
    refine exports_of_endings (Journal.endings_eq_nil.mpr fun h member => ?_)
    obtain ⟨r, phase, remarks, rfl⟩ := only h member
    rfl
  rw [grown, Journal.exports_append, silent, List.append_nil]

private theorem exists_attempt (m : Meter Instance φ) (reason : EndReason) (time : Int64) (t : Turn Instance φ) : ∃ h later,
    (m.finish reason time t).journal = (m.swept ⟨reason, time, t⟩).journal ++ h :: later ∧
      h.outcome? = some (m.row? (m.swept ⟨reason, time, t⟩).record time) ∧
      Journal.exports (m.finish reason time t).journal = Journal.exports t.journal ++
        (m.row? (m.swept ⟨reason, time, t⟩).record time).toList.flatMap (handed m) := by
  have swept := exports_of_spares (Meter.Spares.foldl (m.stopOne_spares reason time) (List.range m.program.size)
    (t.log (.finish reason time)))
  have logged : Journal.exports (t.log (.finish reason time)).journal = Journal.exports t.journal :=
    (Journal.exports_append _ _).trans (List.append_nil _)
  rw [← logged, ← swept, Meter.finish, Meter.swept]
  generalize (List.range m.program.size).foldl (m.stopOne reason time) (t.log (.finish reason time)) = closed
  rw [Meter.exportRow]
  cases m.row? closed.record time with
  | none => exact ⟨.noTemplate reason, [], rfl, rfl, Journal.exports_append closed.journal [.noTemplate reason]⟩
  | some row =>
    dsimp only
    rw [Meter.foldl_log, Option.toList_some, List.flatMap_singleton]
    refine ⟨.row reason row, handed m row, List.append_assoc closed.journal _ _, rfl, ?_⟩
    refine (Journal.exports_append (closed.journal ++ [_]) (handed m row)).trans ?_
    rw [Journal.exports_append, exports_handed]
    exact congrArg (· ++ _) (List.append_nil _)

end Exports

private theorem rounds_both {σ φ : Type} [Feature σ] {m : Meter σ φ} {allowed : Packet → Prop}
    {idle live swept idle' live' swept' : Picture σ}
    (rounds : m.Rounds allowed idle live swept) (rounds' : m.Rounds allowed idle' live' swept') :
    m.Rounds allowed (fun instances values => idle instances values ∧ idle' instances values)
      (fun instances values => live instances values ∧ live' instances values)
      (fun instances values => swept instances values ∧ swept' instances values) where
  make := ⟨rounds.make, rounds'.make⟩
  start now t shown := ⟨rounds.start now t (shown.imp And.left And.left), rounds'.start now t (shown.imp And.right And.right)⟩
  control packet r t fine member shown :=
    ⟨rounds.control packet r t fine member shown.1, rounds'.control packet r t fine member shown.2⟩
  deliver packet t fine shown := ⟨rounds.deliver packet t fine shown.1, rounds'.deliver packet t fine shown.2⟩
  finish reason time t shown := ⟨rounds.finish reason time t shown.1, rounds'.finish reason time t shown.2⟩
  rest _ _ shown := ⟨rounds.rest _ _ shown.1, rounds'.rest _ _ shown.2⟩

abbrev Waiting (p : Program Instance φ) : Picture Instance := fun instances values =>
  Idle p instances values ∧ Meter.Sized p.size instances values

/-- A record that is ready for a packet, with a value for each register. -/
abbrev Fit (p : Program Instance φ) : Picture Instance := fun instances values =>
  Ready p instances values ∧ Meter.Sized p.size instances values

def Noticed (m : Meter Instance φ) (part : List Packet) (instances : List (Option Instance)) : Prop :=
  ∀ k ∈ m.program.controls, instances[k]? = some (some (.tcpEnd (finishes part).1 (finishes part).2))

namespace Governed

variable (governed : Governed m)
include governed

private theorem quiet {k : Nat} (member : k ∈ m.program.controls) {s : Instance} (sorted : Sorted m.program k s) : s.role? = none := by
  obtain ⟨node, build, found, built, initial⟩ := governed.made k member
  obtain ⟨node', build', found', built', role, -⟩ := sorted
  cases found.symm.trans found'
  cases built.symm.trans built'
  rw [role, initial]
  rfl

private theorem inside {k : Nat} (member : k ∈ m.program.controls) : k < m.program.size := by
  obtain ⟨node, build, found, -⟩ := governed.made k member
  exact (List.getElem?_eq_some_iff.mp found).1

private theorem rounds (ordered : m.program.Ordered) :
    m.Rounds (fun _ => True) (Waiting m.program) (Fit m.program) (Waiting m.program) :=
  rounds_both (ready_rounds ordered fun _ member _ => governed.quiet member) m.sized_rounds

private theorem started {instances : List (Option Instance)} (begun : Begun m.program instances) : Noticed m [] instances := by
  intro k member
  obtain ⟨node, build, found, built, initial⟩ := governed.made k member
  rw [begun k node build found built, initial]
  rfl

private theorem deliver_signals (now : Int64) (packet : Option Packet) (fuel : Nat) {q : Nat} (free : q ∉ m.program.controls)
    (input : Input) {t : Turn Instance φ} (sorted : t.Shows (Idle m.program)) :
    (m.deliver now packet fuel q input t).Shows (Idle m.program) ∧
      (m.deliver now packet fuel q input t).signals = t.signals := by
  induction fuel generalizing q input t with
  | zero => exact ⟨sorted, rfl⟩
  | succ fuel ih =>
    have told (input : Input) {t : Turn Instance φ} (sorted : t.Shows (Idle m.program)) :
        ((m.program.dependents q).foldl (fun t d => m.deliver now packet fuel d input t) t).Shows (Idle m.program) ∧
          ((m.program.dependents q).foldl (fun t d => m.deliver now packet fuel d input t) t).signals = t.signals := by
      refine List.foldlRecOn (m.program.dependents q) _
        (motive := fun t' : Turn Instance φ => t'.Shows (Idle m.program) ∧ t'.signals = t.signals) ⟨sorted, rfl⟩ ?_
      rintro t' ⟨sorted, same⟩ d reads
      obtain ⟨sorted, same'⟩ := ih (fun member => (governed.apart d member).2 q reads) input sorted
      exact ⟨sorted, same'.trans same⟩
    rw [Meter.deliver]
    rcases t.idle_or_held q with idle | ⟨s, held⟩
    · rw [Meter.call_idle idle]
      exact ⟨sorted, rfl⟩
    · have sort := sorted.1 q s held
      have silent := s.signals_event (fun control => free (governed.only q s sort control)) input (m.context t now q)
      have called : (t.setInstance q (s.called (m.context t now q) (.event input))).Shows (Idle m.program) :=
        Meter.Sound.setInstance sorted (sort.called _ _)
      rw [Meter.call_eq held]
      change (m.propagate _ packet q (((t.setInstance q (s.event input (m.context t now q)).1).raise
          (s.event input (m.context t now q)).2.signals).log _) (s.event input (m.context t now q)).2.emission).Shows _ ∧
        (m.propagate _ packet q (((t.setInstance q (s.event input (m.context t now q)).1).raise
          (s.event input (m.context t now q)).2.signals).log _) (s.event input (m.context t now q)).2.emission).signals = _
      rw [silent]
      generalize raised : ((t.setInstance q (s.event input (m.context t now q)).1).raise []).log _ = t'
      have same : t'.signals = t.signals := by
        rw [← raised]
        exact List.append_nil _
      have called : t'.Shows (Idle m.program) := by
        rw [← raised]
        exact called
      rw [← same]
      cases (s.event input (m.context t now q)).2.emission with
      | nothing => exact ⟨called, rfl⟩
      | value v =>
        have placed : (t'.setValue q v).Shows (Idle m.program) := Meter.Sound.setValue called q fun _ _ => trivial
        cases v with
        | none => exact ⟨placed, rfl⟩
        | some v => exact told (.value v q) placed
      | forward =>
        cases packet with
        | none => exact ⟨called, rfl⟩
        | some packet => exact told (.packet packet (.register q)) called

private theorem deliverPacket_signals (packet : Packet) {t : Turn Instance φ} (sorted : t.Shows (Idle m.program)) :
    (m.deliverPacket packet t).signals = t.signals := by
  have delivered := List.foldlRecOn m.program.events
    (fun t r => m.dispatch packet.time (some packet) r (.packet packet .flow) t)
    (motive := fun t' : Turn Instance φ => t'.Shows (Idle m.program) ∧ t'.signals = t.signals) ⟨sorted, rfl⟩ (by
      rintro t' ⟨sorted, same⟩ q event
      obtain ⟨sorted, same'⟩ := governed.deliver_signals packet.time (some packet) (m.program.size - q)
        (fun member => (governed.apart q member).1 event) (.packet packet .flow) sorted
      exact ⟨sorted, same'.trans same⟩)
  refine List.foldlRecOn (List.range m.program.size) Meter.finishEventOne
    (motive := fun t' : Turn Instance φ => t'.signals = t.signals) delivered.2 fun t' same q _ => ?_
  rw [Meter.finishEventOne]
  split <;> exact same

private theorem deliverPacket_noticed (ordered : m.program.Ordered) (packet : Packet) {t : Turn Instance φ} {part : List Packet}
    (noticed : Noticed m part t.record.instances) : Noticed m part (m.deliverPacket packet t).record.instances := by
  intro k member
  have nothing : Call.inputs (m.deliveryCalls packet t) k = [] := by
    refine List.eq_nil_iff_forall_not_mem.mpr fun input given => ?_
    rcases (Meter.mem_deliveryInputs ordered packet).mp given with ⟨event, -⟩ | ⟨call, -, reads, -⟩
    · exact (governed.apart k member).1 event
    · exact (governed.apart k member).2 _ reads
  rw [deliverPacket_instance (governed.inside member) (noticed k member), nothing]
  rfl

private theorem runControls_closes (packet : Packet) {t : Turn Instance φ} {part : List Packet}
    (noticed : Noticed m part t.record.instances) (silent : t.signals = []) :
    (m.runControls packet m.program.controls t).signals =
        (if closes (!m.program.controls.isEmpty) part packet then [.export .endOfFlowDetected packet.time] else []) ∧
      Noticed m (part ++ [packet]) (m.runControls packet m.program.controls t).record.instances ∧
      ∀ q ∉ m.program.controls,
        (m.runControls packet m.program.controls t).record.instances[q]? = t.record.instances[q]? ∧
          ∀ past, Journal.received (past ++ (m.runControls packet m.program.controls t).journal) q =
            Journal.received (past ++ t.journal) q := by
  have single := governed.single
  rw [Noticed, finishes_snoc]
  match listed : m.program.controls with
  | [] => exact ⟨silent, List.forall_mem_nil _, fun _ _ => ⟨rfl, fun _ => rfl⟩⟩
  | [k] =>
    have member : k ∈ m.program.controls := by rw [listed]; exact List.mem_singleton_self k
    have same : m.runControls packet [k] t = m.dispatch packet.time (some packet) k (.packet packet .flow) t := by
      rw [Meter.runControls]
      split <;> rfl
    have held := noticed k member
    rw [same, dispatch_tcpEnd packet (governed.inside member) held]
    refine ⟨congrArg (· ++ _) silent, List.forall_mem_singleton.mpr (getElem?_setInstance held _), fun q other => ?_⟩
    have apart : k ≠ q := fun same => other (List.mem_singleton.mpr same.symm)
    refine ⟨List.getElem?_set_ne apart, fun past => ?_⟩
    change Journal.received (past ++ (t.journal ++ [.call k (.event (.packet packet .flow)) []])) q = _
    rw [← List.append_assoc, Journal.received_snoc]
    exact if_neg apart
  | _ :: _ :: _ =>
    rw [listed] at single
    exact absurd single (by simp)

end Governed

private theorem settle_closes (m : Meter Instance φ) (now : Int64) {t : Turn Instance φ} {closing : Bool}
    (signals : t.signals = if closing then [.export .endOfFlowDetected now] else []) :
    (m.settle now t).2 = if closing then m.finish .endOfFlowDetected now t else t := by
  have kept (t' : Turn Instance φ) (same : t'.signals = t.signals) : Signal.restarts t'.signals = false := by
    rw [same, signals]
    cases closing <;> rfl
  rw [Meter.settle]
  cases closing with
  | false =>
    have nothing : t.signals = [] := signals
    rw [nothing]
    change (if Signal.restarts t.signals then _ else _) = _
    rw [kept t rfl]
    rfl
  | true =>
    have raised : t.signals = [.export .endOfFlowDetected now] := signals
    rw [raised]
    change (if Signal.restarts (m.finish .endOfFlowDetected now t).signals then _ else _) = _
    rw [kept (m.finish .endOfFlowDetected now t) rfl]
    rfl

/-- What the packets of a part leave of the instances of features, in view of the journal, and what the registers show once
they have been swept. -/
structure Tracks (m : Meter Instance φ) (live : List Packet → Journal → List (Option Instance) → Prop)
    (swept : List Packet → Scene Instance) : Prop where
  aside : ∀ part journal journal' instances instances', live part journal instances →
    (∀ q ∉ m.program.controls, instances'[q]? = instances[q]? ∧ Journal.received journal' q = Journal.received journal q) →
    live part journal' instances'
  start : ∀ journal instances, Begun m.program instances → (∀ q, Journal.received journal q = []) → live [] journal instances
  deliver : ∀ part past packet (t : Turn Instance φ), t.Shows (Fit m.program) →
    live part (past ++ t.journal) t.record.instances →
    live (part ++ [packet]) (past ++ (m.deliverPacket packet t).journal) (m.deliverPacket packet t).record.instances
  finish : ∀ part past reason time (t : Turn Instance φ), t.Shows (Fit m.program) →
    live part (past ++ t.journal) t.record.instances →
    ((List.range m.program.size).foldl (m.stopOne reason time) t).Plays past (swept part)

/-- A record between its packets, with what the packets of its part have left. -/
structure Carries (m : Meter Instance PacketFilter) (live : List Packet → Journal → List (Option Instance) → Prop)
    (past : Journal) (part : List Packet) (record : Record Instance PacketFilter) : Prop where
  alive : record.alive = true
  filters : record.filters = m.program.filters.map (·.2)
  recorded : Recorded m (fun _ => True) [] ⟨record, [], past⟩
  rests : Meter.Rests (Waiting m.program) (Fit m.program) record
  active : record.active = !part.isEmpty
  going : part ≠ [] → Noticed m part record.instances ∧ live part past record.instances

/-- An attempt to export at the end of a part shows a record that has been swept at this place of a journal. -/
def Shown (m : Meter Instance PacketFilter) (swept : List Packet → Scene Instance) (journal : Journal) (part : List Packet)
    (row : Option Row) : Prop :=
  ∃ before h after, journal = before ++ h :: after ∧ h.outcome? = some row ∧
    ∃ (record : Record Instance PacketFilter) (time : Int64), swept part before record.instances record.values ∧
      m.row? record time = row

section Runs

variable {m : Meter Instance PacketFilter} {live : List Packet → Journal → List (Option Instance) → Prop}
variable {swept : List Packet → Scene Instance} {past : Journal}

private theorem Shown.append {journal : Journal} {part : List Packet} {row : Option Row} (shown : Shown m swept journal part row)
    (later : Journal) : Shown m swept (journal ++ later) part row := by
  obtain ⟨before, h, after, rfl, outcome, shows⟩ := shown
  exact ⟨before, h, after ++ later, List.append_assoc .., outcome, shows⟩

private theorem isDry_of_quiet {h : Happening} (quiet : LifeCycle.Quiet h) : h.isDry = true := by
  cases quiet <;> rfl

private theorem Tracks.dry (tracks : Tracks m live swept) {part : List Packet} {instances : List (Option Instance)}
    (held : live part past instances) {later : Journal} (dry : ∀ h ∈ later, h.isDry = true) :
    live part (past ++ later) instances :=
  tracks.aside part past _ _ _ held fun q _ => ⟨rfl, Journal.received_dry dry q⟩

private theorem Tracks.exists_shown (tracks : Tracks m live swept) {part : List Packet} {t : Turn Instance PacketFilter}
    (fit : t.Shows (Fit m.program)) (held : live part (past ++ t.journal) t.record.instances) (reason : EndReason)
    (time : Int64) : ∃ row, Shown m swept (past ++ (m.finish reason time t).journal) part row ∧
      Journal.exports (m.finish reason time t).journal = Journal.exports t.journal ++ row.toList.flatMap (handed m) := by
  have logged : live part (past ++ (t.log (.finish reason time)).journal) (t.log (.finish reason time)).record.instances := by
    rw [Turn.log, ← List.append_assoc]
    exact tracks.dry held (List.forall_mem_singleton.mpr rfl)
  obtain ⟨h, later, grown, outcome, exports⟩ := exists_attempt m reason time t
  have shown := tracks.finish part past reason time (t.log (.finish reason time)) fit logged
  refine ⟨_, ⟨_, h, later, ?_, outcome, _, time, shown, rfl⟩, exports⟩
  rw [grown, List.append_assoc]
  rfl

private theorem handed_cons (row : Option Row) (rows : List (Option Row)) :
    (row :: rows).reduceOption.flatMap (handed m) = row.toList.flatMap (handed m) ++ rows.reduceOption.flatMap (handed m) := by
  cases row with
  | none => rfl
  | some row => rw [List.reduceOption_cons_of_some, List.flatMap_cons, Option.toList_some, List.flatMap_singleton]

namespace Carries

variable {part : List Packet} {record : Record Instance PacketFilter}

theorem make (governed : Governed m) (ordered : m.program.Ordered) : Carries m live [] [] m.make where
  alive := rfl
  filters := rfl
  recorded := .make m
  rests := ⟨nofun, fun _ => (governed.rounds ordered).make⟩
  active := rfl
  going full := absurd rfl full

variable (governed : Governed m) (ordered : m.program.Ordered) (tracks : Tracks m live swept)
include governed ordered tracks

omit ordered in
private theorem opened (carries : Carries m live past part record) {journal : Journal} (quiet : ∀ h ∈ journal, LifeCycle.Quiet h)
    (recorded : Recorded m (fun _ => True) past (asked record journal)) (now : Int64) : ∃ begun,
      (if (asked record journal).record.active then asked record journal else m.start now (asked record journal)) = begun ∧
      begun.signals = [] ∧ Noticed m part begun.record.instances ∧ live part (past ++ begun.journal) begun.record.instances ∧
      Journal.exports begun.journal = [] := by
  have silent : Journal.exports (asked record journal).journal = [] := Journal.exports_quiet quiet
  by_cases first : part = []
  · subst first
    have begun := begun_of_recorded (recorded.start now)
    obtain ⟨later, grown, none⟩ := m.start_endings now (asked record journal)
    refine ⟨_, if_neg ?_, rfl, governed.started begun, tracks.start _ _ begun (m.start_received now _ past), ?_⟩
    · exact fun active => Bool.false_ne_true (carries.active.symm.trans active)
    · rw [grown, Journal.exports_append, silent, exports_of_endings none, List.append_nil]
  · have active : record.active = true := by
      rw [carries.active]
      simpa using first
    obtain ⟨noticed, held⟩ := carries.going first
    exact ⟨_, if_pos active, rfl, noticed, tracks.dry held fun h member => isDry_of_quiet (quiet h member), silent⟩

private theorem delivery (carries : Carries m live past part record) {packet : Packet} (admitted : admits m.program packet = true) :
    ∃ t, m.delivery? record packet = some t ∧ t.Shows (Fit m.program) ∧ t.record.active = true ∧
      Noticed m (part ++ [packet]) t.record.instances ∧ live part (past ++ t.journal) t.record.instances ∧
      Journal.exports t.journal = [] ∧
      t.signals = if closes (!m.program.controls.isEmpty) part packet then [.export .endOfFlowDetected packet.time] else [] := by
  have rounds := governed.rounds ordered
  obtain ⟨journal, quiet, screened⟩ := screen_eq packet (.ofRecord record)
  have accepted : record.filters.all (·.accepts packet) = true := by
    rw [carries.filters, List.all_map]
    exact admitted
  have passed : Meter.screen packet (.ofRecord record) = (true, asked record journal) := by
    rw [screened]
    exact congrArg (·, _) accepted
  have stays : m.Stays (Waiting m.program) (Fit m.program) (Waiting m.program) (Meter.screen packet (.ofRecord record)).2 :=
    Meter.screen_stays ⟨carries.rests, Meter.hands_of_rows rfl⟩
  rw [passed] at stays
  have recorded := carries.recorded.begin.screen packet
  rw [passed] at recorded
  obtain ⟨begun, same, silent, noticed, held, exports⟩ := carries.opened governed tracks quiet recorded packet.time
  obtain ⟨controlled, active⟩ := rounds.controlled trivial stays
  have ran : m.controlled packet (asked record journal) = m.runControls packet m.program.controls begun := by
    rw [Meter.controlled, same]
  obtain ⟨signals, noticed, kept⟩ := governed.runControls_closes packet noticed silent
  have exports := (exports_of_spares (m.runControls_spares packet m.program.controls begun)).trans exports
  rw [← ran] at signals noticed kept exports
  have held := tracks.aside part _ (past ++ (m.controlled packet (asked record journal)).journal) _ _ held
    fun q free => ⟨(kept q free).1, (kept q free).2 past⟩
  refine ⟨_, ?_, controlled.rests.live active, active, noticed, held, exports, signals⟩
  have going : Signal.stopReason? (m.controlled packet (asked record journal)).signals = none := by
    rw [signals]
    split <;> rfl
  rw [Meter.delivery?, passed]
  dsimp only
  rw [carries.alive, going]
  rfl

omit tracks in
private theorem lasting (carries : Carries m live past part record) (packet : Packet) :
    (m.event record packet).2.1.alive = true ∧ (m.event record packet).2.1.filters = m.program.filters.map (·.2) ∧
      Recorded m (fun _ => True) [] ⟨(m.event record packet).2.1, [], past ++ (m.event record packet).2.2⟩ ∧
      Meter.Rests (Waiting m.program) (Fit m.program) (m.event record packet).2.1 := by
  obtain ⟨filters, alive⟩ := performAll_frame m carries.alive [packet]
  exact ⟨alive, filters.trans carries.filters, carries.recorded.event trivial,
    ((governed.rounds ordered).event carries.rests trivial).1⟩

private theorem refused (carries : Carries m live past part record) {packet : Packet} (rejected : admits m.program packet = false) :
    Carries m live (past ++ (m.event record packet).2.2) part (m.event record packet).2.1 ∧
      Journal.exports (m.event record packet).2.2 = [] := by
  obtain ⟨alive, filters, recorded, rests⟩ := carries.lasting governed ordered packet
  obtain ⟨journal, quiet, same⟩ := event_eq m carries.alive packet
  have turned : record.filters.all (·.accepts packet) = false := by
    rw [carries.filters, List.all_map]
    exact rejected
  rw [turned] at same
  refine ⟨⟨alive, filters, recorded, rests, ?_, fun full => ?_⟩, ?_⟩
  · rw [same]
    exact carries.active
  · rw [same]
    refine ⟨(carries.going full).1, tracks.dry (carries.going full).2 (List.forall_mem_append.mpr ⟨fun h member => ?_, ?_⟩)⟩
    · exact isDry_of_quiet (quiet h member)
    · exact List.forall_mem_singleton.mpr rfl
  · rw [same]
    exact (Journal.exports_append ..).trans (by rw [Journal.exports_quiet quiet]; rfl)

private theorem event (carries : Carries m live past part record) (packet : Packet) :
    if admits m.program packet then
      if closes (!m.program.controls.isEmpty) part packet then
        Carries m live (past ++ (m.event record packet).2.2) [] (m.event record packet).2.1 ∧
          ∃ row, Shown m swept (past ++ (m.event record packet).2.2) (part ++ [packet]) row ∧
            Journal.exports (m.event record packet).2.2 = row.toList.flatMap (handed m)
      else Carries m live (past ++ (m.event record packet).2.2) (part ++ [packet]) (m.event record packet).2.1 ∧
        Journal.exports (m.event record packet).2.2 = []
    else Carries m live (past ++ (m.event record packet).2.2) part (m.event record packet).2.1 ∧
      Journal.exports (m.event record packet).2.2 = [] := by
  obtain ⟨alive, filters, recorded, rests⟩ := carries.lasting governed ordered packet
  split
  next admitted =>
    obtain ⟨t, found, fit, active, noticed, held, exports, signals⟩ := carries.delivery governed ordered tracks admitted
    have fit' := (governed.rounds ordered).deliver packet t trivial fit
    have held' := tracks.deliver part past packet t fit held
    have noticed' := governed.deliverPacket_noticed ordered packet noticed
    have signals' := (governed.deliverPacket_signals packet fit.1.1).trans signals
    have exports' := (exports_of_spares (m.deliverPacket_spares packet t)).trans exports
    have active' := (m.deliverPacket_spares packet t).active.trans active
    have ended : (m.event record packet).2 =
        ((Meter.setLast packet.time (m.settle packet.time (m.deliverPacket packet t)).2).record,
          (m.settle packet.time (m.deliverPacket packet t)).2.journal) :=
      congrArg Prod.snd (Meter.event_of_delivery found)
    rw [settle_closes m packet.time signals'] at ended
    split
    next closing =>
      obtain ⟨row, shown, handed⟩ := tracks.exists_shown fit' held' .endOfFlowDetected packet.time
      rw [if_pos closing] at ended
      refine ⟨⟨alive, filters, recorded, rests, congrArg (fun answer => answer.1.active) ended, fun full => absurd rfl full⟩,
        row, ?_, ?_⟩
      · rw [ended]
        exact shown
      · rw [ended, handed, exports', List.nil_append]
    next going =>
      rw [if_neg going] at ended
      refine ⟨⟨alive, filters, recorded, rests, ?_, fun _ => ?_⟩, ?_⟩
      · rw [ended]
        exact active'.trans (by simp)
      · rw [ended]
        exact ⟨noticed', held'⟩
      · rw [ended]
        exact exports'
  next rejected => exact carries.refused governed ordered tracks (Bool.not_eq_true _ ▸ rejected)

omit governed ordered in
private theorem stop (carries : Carries m live past part record) (reason : EndReason) (now : Int64) :
    if part.isEmpty then Journal.exports (m.stop record reason now).2 = [] else
      ∃ row, Shown m swept (past ++ (m.stop record reason now).2) part row ∧
        Journal.exports (m.stop record reason now).2 = row.toList.flatMap (handed m) := by
  have quiet (t : Turn Instance PacketFilter) := Journal.exports_quiet (Meter.stopStarted_quiet t)
  obtain ⟨stopped, silent, same⟩ : ∃ stopped, Journal.exports stopped = [] ∧ (m.stop record reason now).2 =
      (if record.active then m.finish reason now (.ofRecord record) else .ofRecord record).journal ++ stopped := by
    rw [Meter.stop, carries.alive]
    exact ⟨_, quiet _, rfl⟩
  rw [same, carries.active, Journal.exports_append, silent, List.append_nil, ← List.append_assoc]
  cases empty : part.isEmpty with
  | true => rfl
  | false =>
    have active : record.active = true := carries.active.trans (by rw [empty]; rfl)
    have full : part ≠ [] := by simpa using empty
    have held : live part (past ++ (Turn.ofRecord record).journal) (Turn.ofRecord record).record.instances := by
      rw [Turn.ofRecord, List.append_nil]
      exact (carries.going full).2
    obtain ⟨row, shown, handed⟩ := tracks.exists_shown (t := .ofRecord record) (carries.rests.live active) held
      reason now
    exact ⟨row, shown.append stopped, handed⟩

/-- At the end of each part a record hands out what it shows then, and it hands out nothing else. -/
theorem performAll (carries : Carries m live past part record) (operations : List Operation) : ∃ rows : List (Option Row),
    List.Forall₂ (Shown m swept (past ++ (m.performAll record operations).2))
      (partsOf (admits m.program) (closes (!m.program.controls.isEmpty)) part operations) rows ∧
      Journal.exports (m.performAll record operations).2 = rows.reduceOption.flatMap (handed m) := by
  induction operations generalizing past part record with
  | nil => exact ⟨[], .nil, rfl⟩
  | cons operation operations ih =>
    rw [Meter.performAll, Journal.exports_append, ← List.append_assoc]
    cases operation with
    | stop reason now =>
      have dead : (m.stop record reason now).1.alive = false :=
        (m.stop_dead (fun dead => absurd (dead.symm.trans carries.alive) Bool.false_ne_true) reason now).1
      have ended := carries.stop tracks reason now
      rw [Meter.perform, m.performAll_stopped dead, partsOf, List.append_nil]
      split at ended
      next empty => exact ⟨[], by rw [if_pos empty]; exact .nil, by rw [ended]; rfl⟩
      next full =>
        obtain ⟨row, shown, handed⟩ := ended
        exact ⟨[row], by rw [if_neg full]; exact .cons shown .nil, by rw [handed_cons, handed]; rfl⟩
    | event packet =>
      have next := carries.event governed ordered tracks packet
      rw [partsOf, Meter.perform]
      split at next
      next admitted =>
        rw [if_pos admitted]
        split at next
        next closing =>
          obtain ⟨carries, row, shown, handed⟩ := next
          obtain ⟨rows, each, rest⟩ := ih carries
          rw [if_pos closing]
          exact ⟨row :: rows, .cons (shown.append _) each, by rw [handed, rest, handed_cons]⟩
        next going =>
          obtain ⟨rows, each, rest⟩ := ih next.1
          rw [if_neg going]
          exact ⟨rows, each, by rw [next.2, rest, List.nil_append]⟩
      next refused =>
        obtain ⟨rows, each, rest⟩ := ih next.1
        rw [if_neg refused]
        exact ⟨rows, each, by rw [next.2, rest, List.nil_append]⟩

end Carries

end Runs

end Library

end FlowMetering
