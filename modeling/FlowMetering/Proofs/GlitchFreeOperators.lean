import FlowMetering.Proofs.HeardSignals
import FlowMetering.Proofs.SingleEmissions

/-! Operators on packets are free of glitches. They speak when all of their arguments have spoken, and go by what is said
for the packet at hand: values of earlier packets and segments are never mixed in. -/

namespace FlowMetering.Library

def Operator.folded (op : Operator) : List Value → Option Value
  | [] => none
  | first :: rest => rest.foldlM op.apply first

theorem Operator.evaluate_some (op : Operator) (values : List Value) : op.evaluate (values.map some) = op.folded values := by
  cases values with
  | nil => rfl
  | cons first rest => simp [evaluate, folded, List.foldlM_map]

/-- What an argument brings to a packet: the constant that it is, or a value that its register emits in the course of the
delivery. -/
inductive Brings (p : Program Instance PacketFilter) (calls : List Call) : Argument → Value → Prop
  | constant {q : Nat} {node : Node Instance} {v : Value} (found : p.nodes[q]? = some node)
    (known : node.constant = some v) : Brings p calls (.register q) v
  | emitted {q : Nat} {node : Node Instance} {v : Value} (found : p.nodes[q]? = some node) (varies : node.constant = none)
    (said : .value (some v) ∈ Call.emissions calls q) : Brings p calls (.register q) v

section Brings

variable {p : Program Instance PacketFilter} {calls : List Call} {q : Nat} {node : Node Instance} {v : Value}

private theorem brings_of_constant {c : Value} (found : p.nodes[q]? = some node) (constant : node.constant = some c) :
    Brings p calls (.register q) v ↔ c = v := by
  constructor
  · intro brings
    cases brings with
    | constant found' known =>
      cases found.symm.trans found'
      exact Option.some.inj (constant.symm.trans known)
    | emitted found' varies said =>
      cases found.symm.trans found'
      cases varies.symm.trans constant
  · rintro rfl
    exact .constant found constant

private theorem brings_of_varying (found : p.nodes[q]? = some node) (varies : node.constant = none) :
    Brings p calls (.register q) v ↔ .value (some v) ∈ Call.emissions calls q := by
  constructor
  · intro brings
    cases brings with
    | constant found' known =>
      cases found.symm.trans found'
      cases known.symm.trans varies
    | emitted _ _ said => exact said
  · exact .emitted found varies

end Brings

variable {m : Meter Instance PacketFilter} {packet : Packet} {t : Turn Instance PacketFilter}

private theorem brings_iff (ordered : m.program.Ordered) {r : Nat} {arg : Argument} (member : arg ∈ m.program.args r)
    (distinct : ((Call.inputs (m.deliveryCalls packet t) r).map Input.source).Nodup) {v : Value} :
    Brings m.program (m.deliveryCalls packet t) arg v ↔
      Input.noted m.program.known (Call.inputs (m.deliveryCalls packet t) r) arg = some v := by
  cases arg with
  | raw =>
    rw [Input.noted_other (by rintro _ _ _ ⟨⟩)]
    constructor <;> rintro ⟨⟩
  | register q =>
    obtain ⟨reader, found', member⟩ : ∃ reader, m.program.nodes[r]? = some reader ∧ .register q ∈ reader.args := by
      rw [Program.args, Program.node?] at member
      split at member
      next reader found => exact ⟨reader, found, member⟩
      next => cases member
    have below : q < m.program.nodes.length :=
      Nat.lt_trans (ordered r reader found' _ member) (List.getElem?_eq_some_iff.mp found').1
    obtain ⟨node, found⟩ : ∃ node, m.program.nodes[q]? = some node := ⟨_, List.getElem?_eq_getElem below⟩
    have known := Program.known_of_found found
    have told {w : Value} {q' : Nat} : .value w q' ∈ Call.inputs (m.deliveryCalls packet t) r ↔
        r ∈ m.program.dependents q' ∧ .value (some w) ∈ Call.emissions (m.deliveryCalls packet t) q' :=
      Meter.value_mem_deliveryInputs ordered packet
    have unheard (silent : ∀ w, .value w q ∉ Call.inputs (m.deliveryCalls packet t) r) :
        Input.noted m.program.known (Call.inputs (m.deliveryCalls packet t) r) (.register q) = node.constant := by
      rw [← known]
      refine Input.noted_other fun w q' heard same => silent w ?_
      rwa [Argument.register.inj same]
    cases constant : node.constant with
    | some c =>
      rw [brings_of_constant found constant, unheard, constant, Option.some.injEq]
      intro w heard
      have unknown := known_of_dependent (told.mp heard).1
      rw [known, constant] at unknown
      cases unknown
    | none =>
      rw [brings_of_varying found constant]
      have waits : r ∈ m.program.dependents q := mem_dependents_of_reads found constant found' member
      refine ⟨fun said => Input.noted_of_mem distinct (told.mpr ⟨waits, said⟩), fun noted => ?_⟩
      by_contra silent
      have nothing := unheard fun w heard => by
        have heard' : Input.noted m.program.known _ (.register q) = some w := Input.noted_of_mem distinct heard
        rw [← Option.some.inj (heard'.symm.trans noted)] at silent
        exact silent (told.mp heard).2
      cases noted.symm.trans (nothing.trans constant)

private theorem exists_values {row : List (Option Value)} (full : none ∉ row) : ∃ values : List Value, row = values.map some := by
  induction row with
  | nil => exact ⟨[], rfl⟩
  | cons slot row ih =>
    rw [List.mem_cons, not_or] at full
    obtain ⟨values, rfl⟩ := ih full.2
    cases slot with
    | none => exact absurd rfl full.1
    | some v => exact ⟨v :: values, rfl⟩

private theorem evaluate_eq_some_iff (op : Operator) {args : List Argument} {known : Argument → Option Value}
    {brings : Argument → Value → Prop} (each : ∀ arg ∈ args, ∀ v, brings arg v ↔ known arg = some v) {w : Value} :
    op.evaluate (args.map known) = some w ↔
      ∃ values, List.Forall₂ brings args values ∧ op.folded values = some w := by
  have row (values : List Value) : List.Forall₂ brings args values ↔ args.map known = values.map some := by
    clear w
    induction args generalizing values with
    | nil => cases values <;> simp
    | cons arg args ih =>
      rw [List.forall_mem_cons] at each
      cases values with
      | nil => simp
      | cons v values => simp [each.1, ih each.2]
  simp only [row]
  constructor
  · intro result
    have full : none ∉ args.map known := fun missing => by
      cases (op.evaluate_missing missing).symm.trans result
    obtain ⟨values, same⟩ := exists_values full
    exact ⟨values, same, by rw [← op.evaluate_some, ← same, result]⟩
  · rintro ⟨values, same, result⟩
    rw [same, op.evaluate_some, result]

private theorem held_of_operates {r : Nat} {op : Operator} (operates : Operates m.program r op) (ready : t.Shows (Ready m.program))
    (fits : m.Fits t.record) : ∃ constant, t.record.instances[r]? =
      some (some (.operator op .packetFeature ((m.program.args r).map m.program.known) constant)) := by
  obtain ⟨node, chosen, found, kind, entered, operation⟩ := operates
  have built : node.build? = some fun kind => .operator op kind [] [] := by
    rw [Node.build?, entered, Option.bind_some, operation]
    rfl
  obtain ⟨state, held⟩ := fits.mem_built.mp (Meter.mem_built.mpr ⟨node, found, by rw [built]; rfl⟩)
  obtain ⟨node', build, found', built', role, operates⟩ := ready.1.1 r state held
  cases found.symm.trans found'
  cases built.symm.trans built'
  obtain ⟨kind', slots, constant, rfl⟩ := Instance.operator_of_operation? operates
  rw [kind, Instance.role?_operator] at role
  by_cases perPacket : kind' = .packetFeature
  · subst perPacket
    obtain ⟨rfl, -⟩ := ready.2 r op slots constant held
    exact ⟨constant, held⟩
  · rw [if_neg perPacket] at role
    cases role

/-- Every packet that the filters of a live record accept is delivered: instances hear one call after another, each as the
record holds it by then, until the packet is closed. No register emits twice in this course. An operator on packets emits a
value exactly if each of its arguments is a constant or emits a value in it, and the operation folded over these, in the order
of the arguments, has this value. -/
theorem performAll_glitchFree {limit : Nat} {s : Specification} {p : Program Instance PacketFilter}
    (compiled : s.compile catalog limit = .ok p) (exporters : List Exporter) (operations : List Operation)
    {r : Record Instance PacketFilter}
    (reached : (Meter.performAll ⟨p, exporters⟩ (Meter.make ⟨p, exporters⟩) operations).1 = r) (alive : r.alive = true)
    {packet : Packet} (accepted : admits p packet = true) :
    ∃ t heard delivered calls, Meter.delivery? ⟨p, exporters⟩ r packet = some t ∧
      Meter.event ⟨p, exporters⟩ r packet = Meter.concluded ⟨p, exporters⟩ packet t ∧
      Meter.Hears ⟨p, exporters⟩ packet.time t heard delivered ∧
      Meter.deliverPacket ⟨p, exporters⟩ packet t = (List.range p.size).foldl Meter.finishEventOne delivered ∧
      Meter.deliveryCalls ⟨p, exporters⟩ packet t = calls ∧
      heard.map (·.call) = calls.filter (Meter.answers ⟨p, exporters⟩) ∧
      (∀ q, (Call.emissions calls q).countP Emission.speaks ≤ 1) ∧
      ∀ q op, Operates p q op → ∀ v, .value (some v) ∈ Call.emissions calls q ↔
        ∃ values, List.Forall₂ (Brings p calls) (p.args q) values ∧ op.folded values = some v := by
  obtain ⟨stages⟩ := Specification.compile_stages compiled
  obtain ⟨layout⟩ := stages.layout
  obtain ⟨front, fronted⟩ := exists_front stages
  have ordered := Specification.compile_ordered compiled
  have screened : Screened ⟨p, exporters⟩ r := by
    rw [← reached]
    exact Screened.performAll (fun _ => rfl) operations
  have passes : (Meter.screen packet (.ofRecord r)).1 = true := by
    obtain ⟨journal, -, same⟩ := screen_eq packet (.ofRecord r)
    rw [same]
    exact (screened.accepts alive packet).trans accepted
  obtain ⟨t, found, ready, fits⟩ := exists_delivery (m := ⟨p, exporters⟩) ordered
    (fun k member state => fronted.quiet member) operations reached alive passes
  have once := emits_once (m := ⟨p, exporters⟩) stages layout ordered packet ready fronted
  obtain ⟨heard, hears, told⟩ := Meter.delivery_hears (m := ⟨p, exporters⟩) packet fits
  refine ⟨t, heard, _, _, found, Meter.event_of_delivery found, hears, rfl, rfl, told, once, fun q op operates v => ?_⟩
  have distinct := Meter.nodup_sources (m := ⟨p, exporters⟩) (t := t) (r := q) ordered packet fun q _ => once q
  obtain ⟨constant, held⟩ := held_of_operates (m := ⟨p, exporters⟩) operates ready fits
  obtain ⟨-, results⟩ := emissions_operator stages layout ordered packet ready fronted operates held distinct
  rw [results v]
  exact evaluate_eq_some_iff op fun arg member v => brings_iff ordered member distinct

def adding : Specification where
  features := [.array [.string "sum", .array
    [.string "add", .string "ipTotalLength", .string "sourceTransportPort", .number (.natural 1)]]]
  control := [.string "_tcpEnd"]
  filter := ["tcp"]

/-- A packet without a length comes between two others. -/
def patchy : List Packet :=
  [(Packet.ofLength 1 60).withTcp 40000 443 0, { (Packet.ofLength 2 60).withTcp 40001 443 0 with length := none }]

theorem performAll_glitchFree_adding : ∃ (p : Program Instance PacketFilter) (r : Record Instance PacketFilter)
    (t delivered : Turn Instance PacketFilter) (heard : List Heard) (calls : List Call), adding.compile catalog 4096 = .ok p ∧
    (Meter.performAll ⟨p, [sink]⟩ (Meter.make ⟨p, [sink]⟩) (patchy.map .event)).1 = r ∧ r.alive = true ∧
    admits p ((Packet.ofLength 3 80).withTcp 40002 443 0) = true ∧ Operates p 3 .add ∧
    Meter.delivery? ⟨p, [sink]⟩ r ((Packet.ofLength 3 80).withTcp 40002 443 0) = some t ∧
    Meter.Hears ⟨p, [sink]⟩ 3 t heard delivered ∧
    Meter.deliverPacket ⟨p, [sink]⟩ ((Packet.ofLength 3 80).withTcp 40002 443 0) t =
      (List.range p.size).foldl Meter.finishEventOne delivered ∧
    Meter.deliveryCalls ⟨p, [sink]⟩ ((Packet.ofLength 3 80).withTcp 40002 443 0) t = calls ∧
    heard.map (·.call) = calls.filter (Meter.answers ⟨p, [sink]⟩) ∧
    (Call.emissions calls 3).filterMap (fun e => e.value?.map Value.display) = ["40083"] ∧
    (∀ q, (Call.emissions calls q).countP Emission.speaks ≤ 1) ∧
    ∀ v, .value (some v) ∈ Call.emissions calls 3 ↔
      ∃ values, List.Forall₂ (Brings p calls) (p.args 3) values ∧ Operator.folded .add values = some v := by
  have facts : (adding.compile catalog 4096).toOption.any (fun p =>
      let r := (Meter.performAll ⟨p, [sink]⟩ (Meter.make ⟨p, [sink]⟩) (patchy.map .event)).1
      let packet := (Packet.ofLength 3 80).withTcp 40002 443 0
      decide (r.alive = true ∧ admits p packet = true ∧
        p.nodes[3]?.map (fun node => (node.kind, node.entry.map (·.entry.name))) = some (.packetFeature, some "add") ∧
        (Meter.delivery? ⟨p, [sink]⟩ r packet).map (fun t =>
          (Call.emissions (Meter.deliveryCalls ⟨p, [sink]⟩ packet t) 3).filterMap fun e => e.value?.map Value.display) =
            some ["40083"])) = true := by decide +kernel
  cases compiled : adding.compile catalog 4096 with
  | error _ =>
    rw [compiled] at facts
    cases facts
  | ok p =>
    rw [compiled] at facts
    obtain ⟨alive, accepted, node, emitted⟩ := of_decide_eq_true facts
    obtain ⟨t, heard, delivered, calls, found, -, hears, closes, rfl, told, once, results⟩ :=
      performAll_glitchFree compiled [sink] (patchy.map .event) rfl alive accepted
    rw [found] at emitted
    have operates : Operates p 3 .add := by
      obtain ⟨node, found, same⟩ := Option.map_eq_some_iff.mp node
      obtain ⟨kind, named⟩ := Prod.mk.inj same
      obtain ⟨chosen, entered, named⟩ := Option.map_eq_some_iff.mp named
      obtain ⟨stages⟩ := Specification.compile_stages compiled
      obtain ⟨layout⟩ := stages.layout
      have listed : entries.filter (·.name == "add") = [operatorEntry .add] := rfl
      exact ⟨node, chosen, found, kind, entered,
        eq_of_listed listed (represents stages layout found entered).1 (beq_iff_eq.mpr named)⟩
    exact ⟨p, _, t, delivered, heard, _, rfl, rfl, alive, accepted, operates, found, hears, closes, rfl, told,
      Option.some.inj emitted, once, results 3 .add operates⟩

end FlowMetering.Library
