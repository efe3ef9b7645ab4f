import FlowMetering.Proofs.Restarts
import FlowMetering.Proofs.ServedRegisters

/-! Packets in segments. A record that counts packets cuts its flow into parts, and hands out a row for each part with the
number of packets in it. -/

namespace FlowMetering.Library

/-- Which sides have finished: the one that sends forward, and the other. -/
def finishes (packets : List Packet) : Bool × Bool :=
  (packets.any fun packet => packet.hasFlag Packet.fin && packet.forward,
    packets.any fun packet => packet.hasFlag Packet.fin && !packet.forward)

/-- Whether a packet ends a connection: a reset does, and an acknowledgement once both sides have finished. -/
def ends (finished : Bool × Bool) (packet : Packet) : Bool :=
  packet.hasFlag Packet.rst || (finished.1 && finished.2 && packet.hasFlag Packet.ack)

/-- Whether a packet closes the part of a flow that begins with other packets. Without a control none does. -/
def closes (controlled : Bool) (earlier : List Packet) (packet : Packet) : Bool :=
  controlled && ends (finishes earlier) packet

def sees (finished : Bool × Bool) (packet : Packet) : Bool × Bool :=
  (finished.1 || packet.hasFlag Packet.fin && packet.forward, finished.2 || packet.hasFlag Packet.fin && !packet.forward)

theorem finishes_snoc (packets : List Packet) (packet : Packet) :
    finishes (packets ++ [packet]) = sees (finishes packets) packet := by
  simp [finishes, sees]

/-- The parts of a flow, cut after each packet that closes its part. Some packets of the first part have been seen. -/
def parts (closes : List Packet → Packet → Bool) (earlier : List Packet) : List Packet → List (List Packet)
  | [] => if earlier.isEmpty then [] else [earlier]
  | packet :: packets =>
    if closes earlier packet then (earlier ++ [packet]) :: parts closes [] packets
    else parts closes (earlier ++ [packet]) packets

/-- No packet is lost, and none is in two parts. -/
theorem flatten_parts (closes : List Packet → Packet → Bool) (earlier packets : List Packet) :
    (parts closes earlier packets).flatten = earlier ++ packets := by
  induction packets generalizing earlier with
  | nil => cases earlier <;> simp [parts]
  | cons packet packets ih =>
    rw [parts]
    split
    · rw [List.flatten_cons, ih, List.nil_append, List.append_assoc, List.singleton_append]
    · rw [ih, List.append_assoc, List.singleton_append]

def handed {φ : Type} (m : Meter Instance φ) (row : Row) : Journal :=
  m.exporters.map fun exporter => .export exporter.name row (exporter.fails row)

theorem exports_handed {φ : Type} (m : Meter Instance φ) (row : Row) : Journal.exports (handed m row) = handed m row := by
  refine List.filter_eq_self.mpr fun h member => ?_
  obtain ⟨exporter, -, rfl⟩ := List.mem_map.mp member
  rfl

namespace Instance

theorem role?_called (c : Context) (phase : Phase) (s : Instance) : (s.called c phase).role? = s.role? := by
  cases phase with
  | start => exact role?_start c s
  | event input => exact role?_event input c s
  | finishEvent => exact role?_finishEvent s
  | stop reason => exact role?_stop reason s

theorem variant_called (c : Context) (phase : Phase) {s : Instance} (below : s.variant < 2) :
    (s.called c phase).variant < 2 := by
  have known (address : Option Address) {otherwise : Nat} (below : otherwise < 2) :
      (address.map family).getD otherwise < 2 := by
    cases address with
    | none => exact below
    | some address => exact family_lt_two address
  cases phase with
  | start => cases s <;> exact Nat.zero_lt_two
  | event input =>
    cases input with
    | packet packet source =>
      cases s with
      | packetAddress endpoint variant => exact known (endpoint.address packet) below
      | firstAddress endpoint first => exact known _ Nat.zero_lt_two
      | _ => exact Nat.zero_lt_two
    | value v source =>
      cases s with
      | mean sum count =>
        rw [called, event, value]
        cases v.asFloat <;> exact Nat.zero_lt_two
      | packetAddress endpoint variant | firstAddress endpoint first => exact below
      | _ => exact Nat.zero_lt_two
  | finishEvent => cases s <;> exact below
  | stop reason => cases s <;> exact below

theorem called_packetCount (n : UInt64) (c : Context) (phase : Phase) :
    ∃ n', (packetCount n).called c phase = .packetCount n' := by
  cases phase with
  | event input => cases input <;> exact ⟨_, rfl⟩
  | _ => exact ⟨_, rfl⟩

theorem called_tcpEnd (finished : Bool × Bool) (c : Context) (phase : Phase) :
    ∃ finished' : Bool × Bool, (tcpEnd finished.1 finished.2).called c phase = .tcpEnd finished'.1 finished'.2 := by
  cases phase with
  | event input => cases input <;> exact ⟨(_, _), rfl⟩
  | _ => exact ⟨(_, _), rfl⟩

end Instance

variable {φ : Type} {m : Meter Instance φ} {r : Nat}

/-- Instances whose choices are within bounds and of which only controls raise signals. -/
def Sane (m : Meter Instance φ) (record : Record Instance φ) : Prop :=
  ∀ (q : Nat) s, record.instances[q]? = some (some s) → s.variant < 2 ∧ (s.role? = none → q ∈ m.program.controls)

private theorem Sane.setInstance {t : Turn Instance φ} (sane : Sane m t.record) {q : Nat} {old : Instance}
    (held : t.record.instances[q]? = some (some old)) (c : Context) (phase : Phase) :
    Sane m (t.setInstance q (old.called c phase)).record := by
  intro x s found
  by_cases here : x = q
  · subst here
    obtain rfl := Option.some.inj (Option.some.inj ((getElem?_setInstance held _).symm.trans found))
    exact ⟨Instance.variant_called c phase (sane x old held).1, Instance.role?_called c phase old ▸ (sane x old held).2⟩
  · exact sane x s ((List.getElem?_set_ne (Ne.symm here)).symm.trans found)

/-- The register that counts the packets and those of the controls, which no register hands anything on to. -/
def Watched (m : Meter Instance φ) (r q : Nat) : Prop :=
  q = r ∨ q ∈ m.program.controls

/-- A register that counts packets, in a program with one control at most. -/
structure Counts (m : Meter Instance φ) (r : Nat) : Prop where
  inside : r < m.program.size
  event : r ∈ m.program.events
  apart : ∀ q d, d ∈ m.program.dependents q → ¬Watched m r d
  controls : ∀ k ∈ m.program.controls, k < m.program.size ∧ k ≠ r ∧ k ∉ m.program.events
  single : m.program.controls.length ≤ 1
  selects : ∀ record : Record Instance φ, Sane m record →
    ∃ template, m.program.template.select (Meter.variant record) = some template

private theorem Counts.only (counts : Counts m r) {k k' : Nat} (member : k ∈ m.program.controls)
    (member' : k' ∈ m.program.controls) : k = k' := by
  have single := counts.single
  generalize m.program.controls = controls at member member' single
  match controls with
  | [] => cases member
  | [only] => rw [List.mem_singleton.mp member, List.mem_singleton.mp member']
  | _ :: _ :: _ => exact absurd single (by simp)

/-- No signal is raised, nothing is handed out, and nothing else changes in the record but instances and values. -/
structure Hushed (before after : Turn Instance φ) : Prop where
  signals : after.signals = before.signals
  exports : Journal.exports after.journal = Journal.exports before.journal
  rest : { after.record with instances := before.record.instances, values := before.record.values } = before.record

private theorem Hushed.refl (t : Turn Instance φ) : Hushed t t :=
  ⟨rfl, rfl, rfl⟩

private theorem Hushed.trans {first middle last : Turn Instance φ} (a : Hushed first middle) (b : Hushed middle last) :
    Hushed first last :=
  ⟨b.signals.trans a.signals, b.exports.trans a.exports, by rw [← a.rest, ← b.rest]⟩

private theorem Hushed.setInstance (t : Turn Instance φ) (q : Nat) (s : Instance) (phase : Phase) (remarks : List String) :
    Hushed t (((t.setInstance q s).raise []).log (.call q phase remarks)) :=
  ⟨List.append_nil _, (Journal.exports_append _ _).trans (List.append_nil _), rfl⟩

private theorem Hushed.setValue (t : Turn Instance φ) (q : Nat) (v : Option Value) : Hushed t (t.setValue q v) :=
  ⟨rfl, rfl, rfl⟩

/-- Nothing has changed for the registers that are watched. -/
structure PassesBy (m : Meter Instance φ) (r : Nat) (before after : Turn Instance φ) : Prop extends Hushed before after where
  sane : Sane m after.record
  kept : ∀ q, Watched m r q → after.record.instances[q]? = before.record.instances[q]?
  value : after.record.values[r]? = before.record.values[r]?

namespace PassesBy

variable {t first middle last : Turn Instance φ}

private theorem refl (sane : Sane m t.record) : PassesBy m r t t :=
  ⟨.refl t, sane, fun _ _ => rfl, rfl⟩

private theorem trans (a : PassesBy m r first middle) (b : PassesBy m r middle last) : PassesBy m r first last :=
  ⟨a.toHushed.trans b.toHushed, b.sane, fun q watched => (b.kept q watched).trans (a.kept q watched),
    b.value.trans a.value⟩

private theorem foldl {ι : Type} {step : Turn Instance φ → ι → Turn Instance φ} (is : List ι)
    (each : ∀ i ∈ is, ∀ t, Sane m t.record → PassesBy m r t (step t i)) (sane : Sane m t.record) :
    PassesBy m r t (is.foldl step t) :=
  List.foldlRecOn is step (motive := fun t' => PassesBy m r t t') (.refl sane) fun _ passes i member =>
    passes.trans (each i member _ passes.sane)

private theorem setValue (sane : Sane m t.record) {q : Nat} (other : q ≠ r) (v : Option Value) :
    PassesBy m r t (t.setValue q v) :=
  ⟨⟨rfl, rfl, rfl⟩, sane, fun _ _ => rfl, List.getElem?_set_ne other⟩

private theorem call (sane : Sane m t.record) {q : Nat} (free : ¬Watched m r q) (now : Int64) (phase : Phase)
    (answer : Context → Instance → Instance × Reaction) (follows : ∀ c s, (answer c s).1 = s.called c phase)
    (silent : ∀ c s, s.role? ≠ none → (answer c s).2.signals = []) :
    PassesBy m r t (m.call now q phase answer t).1 := by
  rcases t.idle_or_held q with idle | ⟨s, held⟩
  · rw [Meter.call_idle idle]
    exact .refl sane
  · have working : s.role? ≠ none := fun control => free (.inr ((sane q s held).2 control))
    rw [Meter.call_eq held, silent _ s working, follows]
    refine ⟨.setInstance t q _ phase _, sane.setInstance held _ phase, fun x watched => ?_, rfl⟩
    have other : q ≠ x := by
      rintro rfl
      exact free watched
    exact List.getElem?_set_ne other

end PassesBy

/-- A control that is given a packet has seen what the packet says of both sides, and raises a signal if it ends the connection. -/
theorem dispatch_tcpEnd (packet : Packet) {k : Nat} (inside : k < m.program.size) {finished : Bool × Bool} {t : Turn Instance φ}
    (held : t.record.instances[k]? = some (some (.tcpEnd finished.1 finished.2))) :
    m.dispatch packet.time (some packet) k (.packet packet .flow) t =
      ((t.setInstance k (.tcpEnd (sees finished packet).1 (sees finished packet).2)).raise
        (if ends finished packet then [.export .endOfFlowDetected packet.time] else [])).log
          (.call k (.event (.packet packet .flow)) []) := by
  have reaction : ((Instance.tcpEnd finished.1 finished.2).event (.packet packet .flow) (m.context t packet.time k)).2 =
      ⟨.nothing, if ends finished packet then [.export .endOfFlowDetected packet.time] else [], []⟩ := by
    change (if ends finished packet then _ else _ : Reaction) = _
    split <;> rfl
  obtain ⟨fuel, enough⟩ : ∃ fuel, m.program.size - k = fuel + 1 := ⟨m.program.size - k - 1, by omega⟩
  rw [Meter.dispatch, enough, Meter.deliver, m.call_eq held]
  change (m.propagate _ _ k (((t.setInstance k _).raise ((Instance.tcpEnd finished.1 finished.2).event _ _).2.signals).log
    (.call k _ ((Instance.tcpEnd finished.1 finished.2).event _ _).2.remarks))
    ((Instance.tcpEnd finished.1 finished.2).event _ _).2.emission) = _
  rw [reaction]
  rfl

section Deliveries

variable (counts : Counts m r)
include counts

private theorem PassesBy.propagate {next : Nat → Input → Turn Instance φ → Turn Instance φ}
    (each : ∀ d input t, ¬Watched m r d → Sane m t.record → PassesBy m r t (next d input t)) (packet : Option Packet) {q : Nat}
    (free : ¬Watched m r q) {t : Turn Instance φ} (sane : Sane m t.record) (e : Emission) :
    PassesBy m r t (m.propagate next packet q t e) := by
  have readers (input : Input) {t : Turn Instance φ} (sane : Sane m t.record) :
      PassesBy m r t ((m.program.dependents q).foldl (fun t d => next d input t) t) :=
    .foldl _ (fun d reads t sane => each d input t (counts.apart q d reads) sane) sane
  have placed (v : Option Value) : PassesBy m r t (t.setValue q v) := .setValue sane (fun same => free (.inl same)) v
  cases e with
  | nothing => exact .refl sane
  | value v =>
    cases v with
    | none => exact placed none
    | some v => exact (placed (some v)).trans (readers (.value v q) (placed (some v)).sane)
  | forward =>
    cases packet with
    | none => exact .refl sane
    | some p => exact readers (.packet p (.register q)) sane

private theorem PassesBy.deliver (now : Int64) (packet : Option Packet) (fuel : Nat) {q : Nat} (free : ¬Watched m r q) (input : Input)
    {t : Turn Instance φ} (sane : Sane m t.record) : PassesBy m r t (m.deliver now packet fuel q input t) := by
  induction fuel generalizing q input t with
  | zero => exact .refl sane
  | succ fuel ih =>
    have called : PassesBy m r t (m.call now q (.event input) (Feature.event input) t).1 :=
      .call sane free now (.event input) _ (fun _ _ => rfl) fun c s working => s.signals_event working input c
    exact called.trans (.propagate counts (fun d input t free sane => ih free input sane) packet free called.sane _)

end Deliveries

/-- The count of a record, and what its control has seen of both sides. -/
structure Counted (m : Meter Instance φ) (r : Nat) (n : UInt64) (finished : Bool × Bool) (record : Record Instance φ) :
    Prop where
  sane : Sane m record
  counter : record.instances[r]? = some (some (.packetCount n))
  closer : ∀ k ∈ m.program.controls, record.instances[k]? = some (some (.tcpEnd finished.1 finished.2))
  slot : ∃ v, record.values[r]? = some v

namespace Counted

variable {n : UInt64} {finished : Bool × Bool} {t before after : Turn Instance φ}

private theorem congr {record record' : Record Instance φ} (counted : Counted m r n finished record)
    (instances : record'.instances = record.instances) (values : record'.values = record.values) :
    Counted m r n finished record' where
  sane q s found := counted.sane q s (instances ▸ found)
  counter := instances ▸ counted.counter
  closer k member := instances ▸ counted.closer k member
  slot := values ▸ counted.slot

private theorem passes (counted : Counted m r n finished before.record) (passes : PassesBy m r before after) :
    Counted m r n finished after.record where
  sane := passes.sane
  counter := (passes.kept r (.inl rfl)).trans counted.counter
  closer k member := (passes.kept k (.inr member)).trans (counted.closer k member)
  slot := passes.value ▸ counted.slot

private theorem set (counted : Counted m r n finished t.record) (counts : Counts m r) {q : Nat} {s : Instance}
    (held : t.record.instances[q]? = some (some s)) (c : Context) (phase : Phase) :
    ∃ n' finished', Counted m r n' finished' (t.setInstance q (s.called c phase)).record ∧
      (if q = r then (Instance.packetCount n).called c phase = .packetCount n' else n' = n) ∧
      (if q ∈ m.program.controls then
        (Instance.tcpEnd finished.1 finished.2).called c phase = .tcpEnd finished'.1 finished'.2
      else finished' = finished) := by
  have sane := counted.sane.setInstance held c phase
  have placed := getElem?_setInstance held (s.called c phase)
  have moved (x : Nat) (other : q ≠ x) : (t.setInstance q (s.called c phase)).record.instances[x]? =
      t.record.instances[x]? := List.getElem?_set_ne other
  by_cases here : q = r
  · subst here
    obtain rfl := Option.some.inj (Option.some.inj (held.symm.trans counted.counter))
    obtain ⟨n', called⟩ := Instance.called_packetCount n c phase
    have free : q ∉ m.program.controls := fun member => (counts.controls q member).2.1 rfl
    refine ⟨n', finished, ⟨sane, placed.trans (congrArg _ (congrArg _ called)), fun k member => ?_, counted.slot⟩, ?_, ?_⟩
    · exact (moved k (Ne.symm (counts.controls k member).2.1)).trans (counted.closer k member)
    · rwa [if_pos rfl]
    · rw [if_neg free]
  · by_cases member : q ∈ m.program.controls
    · obtain rfl := Option.some.inj (Option.some.inj (held.symm.trans (counted.closer q member)))
      obtain ⟨finished', called⟩ := Instance.called_tcpEnd finished c phase
      refine ⟨n, finished', ⟨sane, (moved r here).trans counted.counter, fun k other => ?_, counted.slot⟩, ?_, ?_⟩
      · rw [counts.only other member]
        exact placed.trans (congrArg _ (congrArg _ called))
      · rw [if_neg here]
      · rwa [if_pos member]
    · refine ⟨n, finished, ⟨sane, (moved r here).trans counted.counter, fun k other => ?_, counted.slot⟩, ?_, ?_⟩
      · exact (moved k fun same => member (same ▸ other)).trans (counted.closer k other)
      · rw [if_neg here]
      · rw [if_neg member]

end Counted

section Segments

variable (counts : Counts m r)
include counts

variable {n : UInt64} {finished : Bool × Bool} {t : Turn Instance φ}

private theorem startOne_counted (counted : Counted m r n finished t.record) (now : Int64) (q : Nat) :
    Hushed t (m.startOne now t q) ∧ ∃ n' finished', Counted m r n' finished' (m.startOne now t q).record ∧
      (q = r ∨ n = 0 → n' = 0) ∧ (q ∈ m.program.controls ∨ finished = (false, false) → finished' = (false, false)) := by
  rcases t.idle_or_held q with idle | ⟨s, held⟩
  · have same : m.startOne now t q = t := by rw [m.startOne_eq, Meter.call_idle idle]
    rw [same]
    refine ⟨.refl t, n, finished, counted, fun either => either.resolve_left ?_, fun either => either.resolve_left ?_⟩
    · rintro rfl
      exact idle _ counted.counter
    · exact fun member => idle _ (counted.closer q member)
  · have same : m.startOne now t q =
        ((t.setInstance q (s.called (m.context t now q) .start)).raise []).log (.call q .start []) := by
      rw [m.startOne_eq, Meter.call_eq held]
      rfl
    obtain ⟨n', finished', next, counter, closer⟩ := counted.set counts held (m.context t now q) .start
    rw [same]
    refine ⟨.setInstance _ _ _ _ _, n', finished', ⟨next.sane, next.counter, next.closer, next.slot⟩, fun either => ?_,
      fun either => ?_⟩
    · split at counter
      next => exact (Instance.packetCount.inj counter).symm
      next other => exact counter.trans (either.resolve_left other)
    · split at closer
      next => exact Prod.ext (Instance.tcpEnd.inj closer).1.symm (Instance.tcpEnd.inj closer).2.symm
      next other => exact closer.trans (either.resolve_left other)

private theorem start_counted (counted : Counted m r n finished t.record) (now : Int64) :
    Counted m r 0 (false, false) (m.start now t).record ∧ (m.start now t).signals = t.signals ∧
      Journal.exports (m.start now t).journal = Journal.exports t.journal := by
  have swept (rs : List Nat) {n : UInt64} {finished : Bool × Bool} {t : Turn Instance φ}
      (counted : Counted m r n finished t.record) : Hushed t (rs.foldl (m.startOne now) t) ∧
        ∃ n' finished', Counted m r n' finished' (rs.foldl (m.startOne now) t).record ∧ (r ∈ rs ∨ n = 0 → n' = 0) ∧
          ((∃ k ∈ m.program.controls, k ∈ rs) ∨ finished = (false, false) → finished' = (false, false)) := by
    induction rs generalizing n finished t with
    | nil => exact ⟨.refl t, n, finished, counted, fun either => either.resolve_left List.not_mem_nil,
        fun either => either.resolve_left fun ⟨k, _, member⟩ => List.not_mem_nil member⟩
    | cons q rs ih =>
      obtain ⟨first, n₁, finished₁, counted₁, reset, cleared⟩ := startOne_counted counts counted now q
      obtain ⟨rest, n₂, finished₂, counted₂, reset', cleared'⟩ := ih counted₁
      refine ⟨first.trans rest, n₂, finished₂, counted₂, fun either => ?_, fun either => ?_⟩
      · rcases either with member | zero
        · rcases List.mem_cons.mp member with same | member
          · exact reset' (.inr (reset (.inl same.symm)))
          · exact reset' (.inl member)
        · exact reset' (.inr (reset (.inr zero)))
      · rcases either with ⟨k, control, member⟩ | nothing
        · rcases List.mem_cons.mp member with rfl | member
          · exact cleared' (.inr (cleared (.inl control)))
          · exact cleared' (.inl ⟨k, control, member⟩)
        · exact cleared' (.inr (cleared (.inr nothing)))
  obtain ⟨node, value⟩ : ∃ v, (m.program.nodes.map (·.constant))[r]? = some v :=
    ⟨_, List.getElem?_eq_getElem (by rw [List.length_map]; exact counts.inside)⟩
  obtain ⟨hushed, n', finished', counted', reset, cleared⟩ := swept (List.range m.program.size)
    (t := { t.log (.segment now) with record := { t.record with values := m.program.nodes.map (·.constant) } })
    ⟨counted.sane, counted.counter, counted.closer, ⟨node, value⟩⟩
  obtain rfl := reset (.inl (List.mem_range.mpr counts.inside))
  refine ⟨⟨counted'.sane, counted'.counter, fun k member => ?_, counted'.slot⟩, rfl, ?_⟩
  · rw [← cleared (.inl ⟨k, member, List.mem_range.mpr (counts.controls k member).1⟩)]
    exact counted'.closer k member
  · exact hushed.exports.trans ((Journal.exports_append _ _).trans (List.append_nil _))

private theorem dispatch_counted (counted : Counted m r n finished t.record) (packet : Packet) :
    Hushed t (m.dispatch packet.time (some packet) r (.packet packet .flow) t) ∧
      Counted m r (n + 1) finished (m.dispatch packet.time (some packet) r (.packet packet .flow) t).record := by
  obtain ⟨n', finished', next, counter, closer⟩ :=
    counted.set counts counted.counter (m.context t packet.time r) (.event (.packet packet .flow))
  rw [if_pos rfl] at counter
  rw [if_neg fun member => (counts.controls r member).2.1 rfl] at closer
  obtain rfl := Instance.packetCount.inj counter
  subst closer
  have same : m.dispatch packet.time (some packet) r (.packet packet .flow) t =
      ((t.setInstance r (.packetCount (n + 1))).raise []).log (.call r (.event (.packet packet .flow)) []) := by
    obtain ⟨fuel, enough⟩ : ∃ fuel, m.program.size - r = fuel + 1 :=
      ⟨m.program.size - r - 1, by have := counts.inside; omega⟩
    rw [Meter.dispatch, enough, Meter.deliver, m.call_eq counted.counter]
    rfl
  rw [same]
  exact ⟨.setInstance _ _ _ _ _, next.sane, next.counter, next.closer, next.slot⟩

private theorem finishEventOne_counted (counted : Counted m r n finished t.record) (q : Nat) :
    Hushed t (Meter.finishEventOne t q) ∧ Counted m r n finished (Meter.finishEventOne t q).record := by
  rcases t.idle_or_held q with idle | ⟨s, held⟩
  · have kept : Meter.finishEventOne t q = t := by
      rw [Meter.finishEventOne]
      split
      next s held => exact absurd held (idle s)
      next => rfl
    rw [kept]
    exact ⟨.refl t, counted⟩
  · have same : Meter.finishEventOne t q =
        ((t.setInstance q (s.called (m.context t 0 q) .finishEvent)).raise []).log (.call q .finishEvent []) := by
      rw [Meter.finishEventOne, held]
      exact congrArg (Turn.mk _ · _) (List.append_nil _).symm
    obtain ⟨n', finished', next, counter, closer⟩ := counted.set counts held (m.context t 0 q) .finishEvent
    obtain rfl : n' = n := by
      split at counter
      · exact (Instance.packetCount.inj counter).symm
      · exact counter
    obtain rfl : finished' = finished := by
      split at closer
      · exact Prod.ext (Instance.tcpEnd.inj closer).1.symm (Instance.tcpEnd.inj closer).2.symm
      · exact closer
    rw [same]
    exact ⟨.setInstance _ _ _ _ _, next.sane, next.counter, next.closer, next.slot⟩

private theorem deliverPacket_counted (counted : Counted m r n finished t.record) (packet : Packet) :
    Hushed t (m.deliverPacket packet t) ∧ Counted m r (n + 1) finished (m.deliverPacket packet t).record := by
  have events (rs : List Nat) (known : ∀ q ∈ rs, q ∈ m.program.events) {n : UInt64} {t : Turn Instance φ}
      (counted : Counted m r n finished t.record) (distinct : rs.Nodup) :
      Hushed t (rs.foldl (fun t q => m.dispatch packet.time (some packet) q (.packet packet .flow) t) t) ∧
        Counted m r (if r ∈ rs then n + 1 else n) finished
          (rs.foldl (fun t q => m.dispatch packet.time (some packet) q (.packet packet .flow) t) t).record := by
    induction rs generalizing n t with
    | nil => exact ⟨.refl t, counted⟩
    | cons q rs ih =>
      rw [List.forall_mem_cons] at known
      obtain ⟨absent, distinct⟩ := List.nodup_cons.mp distinct
      by_cases here : q = r
      · subst here
        obtain ⟨first, counted⟩ := dispatch_counted counts counted packet
        obtain ⟨rest, counted⟩ := ih known.2 counted distinct
        rw [if_neg absent] at counted
        rw [if_pos List.mem_cons_self]
        exact ⟨first.trans rest, counted⟩
      · have free : ¬Watched m r q := not_or.mpr ⟨here, fun member => (counts.controls q member).2.2 known.1⟩
        have passes : PassesBy m r t (m.dispatch packet.time (some packet) q (.packet packet .flow) t) :=
          .deliver counts packet.time (some packet) _ free _ counted.sane
        obtain ⟨rest, counted⟩ := ih known.2 (counted.passes passes) distinct
        have either : r ∈ q :: rs ↔ r ∈ rs := by
          rw [List.mem_cons]
          exact or_iff_right (Ne.symm here)
        simp only [either]
        exact ⟨passes.toHushed.trans rest, counted⟩
  have closed (rs : List Nat) {n : UInt64} {t : Turn Instance φ} (counted : Counted m r n finished t.record) :
      Hushed t (rs.foldl Meter.finishEventOne t) ∧ Counted m r n finished (rs.foldl Meter.finishEventOne t).record := by
    induction rs generalizing t with
    | nil => exact ⟨.refl t, counted⟩
    | cons q rs ih =>
      obtain ⟨first, counted⟩ := finishEventOne_counted counts counted q
      obtain ⟨rest, counted⟩ := ih counted
      exact ⟨first.trans rest, counted⟩
  obtain ⟨delivered, counted⟩ := events m.program.events (fun _ member => member) counted
    (List.nodup_range.filter _)
  rw [if_pos counts.event] at counted
  obtain ⟨done, counted⟩ := closed (List.range m.program.size) counted
  exact ⟨delivered.trans done, counted⟩

private theorem stopOne_counter (counted : Counted m r n finished t.record) (reason : EndReason) (time : Int64) :
    Hushed t (m.stopOne reason time t r) ∧ Counted m r n finished (m.stopOne reason time t r).record ∧
      (m.stopOne reason time t r).record.values[r]? = some (some (.unsigned n)) := by
  obtain ⟨n', finished', next, counter, closer⟩ :=
    counted.set counts counted.counter (m.context t time r) (.stop reason)
  rw [if_pos rfl] at counter
  rw [if_neg fun member => (counts.controls r member).2.1 rfl] at closer
  obtain rfl := Instance.packetCount.inj counter
  subst closer
  obtain ⟨old, slot⟩ := counted.slot
  have placed : (t.record.values.set r (some (.unsigned n)))[r]? = some (some (.unsigned n)) :=
    List.getElem?_set_self (List.getElem?_eq_some_iff.mp slot).1
  have hushed := (Hushed.setInstance t r (.packetCount n) (.stop reason) []).trans
    (.setValue _ r (some (.unsigned n)))
  have valued : Counted m r n finished' ((((t.setInstance r (.packetCount n)).raise []).log
      (.call r (.stop reason) [])).setValue r (some (.unsigned n))).record :=
    ⟨next.sane, next.counter, next.closer, some (.unsigned n), placed⟩
  have hand {t : Turn Instance φ} (d : Nat) (input : Input) (free : ¬Watched m r d) (sane : Sane m t.record) :
      PassesBy m r t (m.dispatch time none d input t) := .deliver counts time none _ free input sane
  have told := PassesBy.foldl (m.program.dependents r)
    (fun d reads t sane => hand d (.value (.unsigned n) r) (counts.apart r d reads) sane) valued.sane
  have same : m.stopOne reason time t r = (m.program.dependents r).foldl
      (fun t d => m.dispatch time none d (.value (.unsigned n) r) t)
      ((((t.setInstance r (.packetCount n)).raise []).log (.call r (.stop reason) [])).setValue r (some (.unsigned n))) := by
    rw [Meter.stopOne, m.call_eq counted.counter]
    rfl
  rw [same]
  exact ⟨hushed.trans told.toHushed, valued.passes told, told.value.trans placed⟩

private theorem stopOne_closer (counted : Counted m r n finished t.record) (reason : EndReason) (time : Int64) {k : Nat}
    (member : k ∈ m.program.controls) :
    Hushed t (m.stopOne reason time t k) ∧ Counted m r n finished (m.stopOne reason time t k).record ∧
      (m.stopOne reason time t k).record.values[r]? = t.record.values[r]? := by
  obtain ⟨n', finished', next, counter, closer⟩ :=
    counted.set counts (counted.closer k member) (m.context t time k) (.stop reason)
  rw [if_neg (counts.controls k member).2.1] at counter
  rw [if_pos member] at closer
  obtain rfl : finished' = finished :=
    Prod.ext (Instance.tcpEnd.inj closer).1.symm (Instance.tcpEnd.inj closer).2.symm
  subst counter
  have same : m.stopOne reason time t k =
      ((t.setInstance k (.tcpEnd finished'.1 finished'.2)).raise []).log (.call k (.stop reason) []) := by
    rw [Meter.stopOne, m.call_eq (counted.closer k member)]
    rfl
  rw [same]
  exact ⟨.setInstance _ _ _ _ _, ⟨next.sane, next.counter, next.closer, next.slot⟩, rfl⟩

private theorem stopOne_counted (counted : Counted m r n finished t.record) (reason : EndReason) (time : Int64) (q : Nat) :
    Hushed t (m.stopOne reason time t q) ∧ Counted m r n finished (m.stopOne reason time t q).record ∧
      (m.stopOne reason time t q).record.values[r]? =
        if q = r then some (some (.unsigned n)) else t.record.values[r]? := by
  by_cases here : q = r
  · rw [here, if_pos rfl]
    exact stopOne_counter counts counted reason time
  · rw [if_neg here]
    by_cases member : q ∈ m.program.controls
    · exact stopOne_closer counts counted reason time member
    · have free : ¬Watched m r q := not_or.mpr ⟨here, member⟩
      have called : PassesBy m r t (m.call time q (.stop reason) (Feature.stop reason) t).1 :=
        .call counted.sane free time (.stop reason) _ (fun _ _ => rfl) fun _ s _ => s.signals_stop reason
      have told : PassesBy m r t (m.stopOne reason time t q) :=
        called.trans (.propagate counts (fun d input t free sane => .deliver counts time none _ free input sane) none free
          called.sane _)
      exact ⟨told.toHushed, counted.passes told, told.value⟩

private theorem finish_counted (counted : Counted m r n finished t.record) (reason : EndReason) (time : Int64) :
    ∃ row : Row, (∀ i : Nat, m.program.exports[i]? = some r → row.values[i]? = some (some (.unsigned n))) ∧
      Journal.exports (m.finish reason time t).journal = Journal.exports t.journal ++ handed m row ∧
      Counted m r n finished (m.finish reason time t).record := by
  have swept (rs : List Nat) {t : Turn Instance φ} (counted : Counted m r n finished t.record) :
      Hushed t (rs.foldl (m.stopOne reason time) t) ∧ Counted m r n finished (rs.foldl (m.stopOne reason time) t).record ∧
        (r ∈ rs ∨ t.record.values[r]? = some (some (.unsigned n)) →
          (rs.foldl (m.stopOne reason time) t).record.values[r]? = some (some (.unsigned n))) := by
    induction rs generalizing t with
    | nil => exact ⟨.refl t, counted, fun either => either.resolve_left List.not_mem_nil⟩
    | cons q rs ih =>
      obtain ⟨first, counted, value⟩ := stopOne_counted counts counted reason time q
      obtain ⟨rest, counted, last⟩ := ih counted
      refine ⟨first.trans rest, counted, fun either => last ?_⟩
      rw [value]
      by_cases here : q = r
      · exact .inr (if_pos here)
      · rw [if_neg here]
        exact either.imp_left fun member => (List.mem_cons.mp member).resolve_left (Ne.symm here)
  obtain ⟨hushed, counted, value⟩ := swept (List.range m.program.size) (t := t.log (.finish reason time))
    ⟨counted.sane, counted.counter, counted.closer, counted.slot⟩
  have value := value (.inl (List.mem_range.mpr counts.inside))
  rw [Meter.finish]
  generalize (List.range m.program.size).foldl (m.stopOne reason time) (t.log (.finish reason time)) = closed at *
  obtain ⟨template, selected⟩ := counts.selects closed.record counted.sane
  have found : m.row? closed.record time =
      some ⟨template, m.program.exports.map fun e => (closed.record.values[e]?).join, time⟩ := by
    rw [Meter.row?, selected]
    rfl
  refine ⟨⟨template, m.program.exports.map fun e => (closed.record.values[e]?).join, time⟩, fun i held => ?_, ?_, ?_⟩
  · change (m.program.exports.map fun e => (closed.record.values[e]?).join)[i]? = _
    rw [List.getElem?_map, held, Option.map_some, value]
    rfl
  · have before : Journal.exports closed.journal = Journal.exports t.journal :=
      hushed.exports.trans ((Journal.exports_append _ _).trans (List.append_nil _))
    rw [Meter.exportRow, found]
    dsimp only
    rw [Meter.foldl_log, ← before]
    refine (Journal.exports_append (closed.journal ++ [_]) (handed m _)).trans ?_
    rw [Journal.exports_append, exports_handed]
    exact congrArg (· ++ _) (List.append_nil _)
  · rw [Meter.exportRow, found]
    dsimp only
    rw [Meter.foldl_log]
    exact ⟨counted.sane, counted.counter, counted.closer, counted.slot⟩

private theorem control_counted (counted : Counted m r n finished t.record) (packet : Packet) {k : Nat}
    (member : k ∈ m.program.controls) (silent : t.signals = []) :
    (m.dispatch packet.time (some packet) k (.packet packet .flow) t).signals =
        (if ends finished packet then [.export .endOfFlowDetected packet.time] else []) ∧
      Journal.exports (m.dispatch packet.time (some packet) k (.packet packet .flow) t).journal =
        Journal.exports t.journal ∧
      Counted m r n (sees finished packet) (m.dispatch packet.time (some packet) k (.packet packet .flow) t).record := by
  obtain ⟨n', finished', next, counter, closer⟩ := counted.set counts (counted.closer k member)
    (m.context t packet.time k) (.event (.packet packet .flow))
  rw [if_neg (counts.controls k member).2.1] at counter
  rw [if_pos member] at closer
  obtain rfl : finished' = sees finished packet :=
    Prod.ext (Instance.tcpEnd.inj closer).1.symm (Instance.tcpEnd.inj closer).2.symm
  subst counter
  rw [dispatch_tcpEnd packet (counts.controls k member).1 (counted.closer k member)]
  refine ⟨?_, (Journal.exports_append _ _).trans (List.append_nil _), next.sane, next.counter, next.closer, next.slot⟩
  exact congrArg (· ++ _) silent

private theorem runControls_counted (counted : Counted m r n finished t.record) (packet : Packet) (silent : t.signals = []) :
    (m.runControls packet m.program.controls t).signals =
        (if !m.program.controls.isEmpty && ends finished packet then [.export .endOfFlowDetected packet.time] else []) ∧
      Journal.exports (m.runControls packet m.program.controls t).journal = Journal.exports t.journal ∧
      Counted m r n (sees finished packet) (m.runControls packet m.program.controls t).record := by
  have single := counts.single
  match listed : m.program.controls with
  | [] =>
    refine ⟨silent, rfl, counted.sane, counted.counter, fun k member => ?_, counted.slot⟩
    rw [listed] at member
    cases member
  | [k] =>
    have same : m.runControls packet [k] t = m.dispatch packet.time (some packet) k (.packet packet .flow) t := by
      rw [Meter.runControls]
      split <;> rfl
    rw [same]
    exact control_counted counts counted packet (listed ▸ List.mem_singleton_self k) silent
  | _ :: _ :: _ =>
    rw [listed] at single
    exact absurd single (by simp)

private theorem run_counted (packet : Packet) {begun : Turn Instance φ}
    (same : (if t.record.active then t else m.start packet.time t) = begun)
    (counted : Counted m r n finished begun.record) (silent : begun.signals = []) (active : begun.record.active = true) :
    if !m.program.controls.isEmpty && ends finished packet then
      (m.run packet t).2.record.active = false ∧
        (∃ finished', Counted m r (n + 1) finished' (m.run packet t).2.record) ∧
        ∃ row : Row, (∀ i : Nat, m.program.exports[i]? = some r → row.values[i]? = some (some (.unsigned (n + 1)))) ∧
          Journal.exports (m.run packet t).2.journal = Journal.exports begun.journal ++ handed m row
    else
      (m.run packet t).2.record.active = true ∧
        Counted m r (n + 1) (sees finished packet) (m.run packet t).2.record ∧
        Journal.exports (m.run packet t).2.journal = Journal.exports begun.journal := by
  obtain ⟨signals, exports, controlled⟩ := runControls_counted counts counted packet silent
  have still := (m.runControls_spares packet m.program.controls begun).active.trans active
  generalize ran : m.runControls packet m.program.controls begun = t₁ at signals exports controlled still
  obtain ⟨hushed, delivered⟩ := deliverPacket_counted counts controlled packet
  have awake := (m.deliverPacket_spares packet t₁).active.trans still
  generalize passed : m.deliverPacket packet t₁ = t₂ at hushed delivered awake
  have exports₂ := hushed.exports.trans exports
  have signals₂ := hushed.signals.trans signals
  have on : Signal.stopReason? t₁.signals = none := by
    rw [signals]
    split <;> rfl
  have result : (m.run packet t).2 = Meter.setLast packet.time (m.settle packet.time t₂).2 := by
    rw [Meter.run]
    dsimp only
    rw [same, ran, on, passed]
  rw [result]
  split at signals₂
  next closing =>
    have settled : (m.settle packet.time t₂).2 = m.finish .endOfFlowDetected packet.time t₂ := by
      rw [Meter.settle, signals₂]
      change (if Signal.restarts (m.finish .endOfFlowDetected packet.time t₂).signals then _ else _) = _
      rw [show (m.finish .endOfFlowDetected packet.time t₂).signals = t₂.signals from rfl, signals₂]
      rfl
    obtain ⟨row, values, handed, ended⟩ := finish_counted counts delivered .endOfFlowDetected packet.time
    rw [settled, if_pos closing]
    exact ⟨rfl, ⟨_, ended.sane, ended.counter, ended.closer, ended.slot⟩, row, values, handed.trans (congrArg (· ++ _) exports₂)⟩
  next going =>
    have settled : (m.settle packet.time t₂).2 = t₂ := by
      rw [Meter.settle, signals₂]
      change (if Signal.restarts t₂.signals then _ else _) = _
      rw [signals₂]
      rfl
    rw [settled, if_neg going]
    exact ⟨awake, ⟨delivered.sane, delivered.counter, delivered.closer, delivered.slot⟩, exports₂⟩

end Segments

/-- A record between its packets: it is inactive before a part of its flow begins, and has counted what it has had of the
part since. -/
structure Between (m : Meter Instance PacketFilter) (r : Nat) (part : List Packet) (record : Record Instance PacketFilter) :
    Prop where
  alive : record.alive = true
  filters : record.filters = m.program.filters.map (·.2)
  idle : part = [] → record.active = false ∧ ∃ n finished, Counted m r n finished record
  going : part ≠ [] → record.active = true ∧ Counted m r part.length.toUInt64 (finishes part) record

def admits (p : Program Instance PacketFilter) (packet : Packet) : Bool :=
  p.filters.all fun filter => filter.2.accepts packet

section Flows

variable {m : Meter Instance PacketFilter} (counts : Counts m r)
include counts

private theorem Between.begun {part : List Packet} {record : Record Instance PacketFilter} (between : Between m r part record)
    {journal : Journal} (quiet : ∀ h ∈ journal, LifeCycle.Quiet h) (now : Int64) : ∃ begun,
    (if (asked record journal).record.active then asked record journal else m.start now (asked record journal)) = begun ∧
      Counted m r part.length.toUInt64 (finishes part) begun.record ∧ begun.signals = [] ∧ begun.record.active = true ∧
      Journal.exports begun.journal = [] := by
  by_cases first : part = []
  · subst first
    obtain ⟨inactive, n, finished, counted⟩ := between.idle rfl
    have waiting : Counted m r n finished (asked record journal).record := counted.congr rfl rfl
    obtain ⟨started, silent, exports⟩ := start_counted counts waiting now
    refine ⟨_, if_neg ?_, started, silent, rfl, exports.trans (Journal.exports_quiet quiet)⟩
    exact fun active => Bool.false_ne_true (inactive.symm.trans active)
  · obtain ⟨active, counted⟩ := between.going first
    exact ⟨_, if_pos active, counted.congr rfl rfl, rfl, active, Journal.exports_quiet quiet⟩

private theorem Between.event {part : List Packet} {record : Record Instance PacketFilter} (between : Between m r part record)
    (packet : Packet) :
    if admits m.program packet then
      if closes (!m.program.controls.isEmpty) part packet then
        Between m r [] (m.event record packet).2.1 ∧ ∃ row : Row,
          (∀ i : Nat, m.program.exports[i]? = some r →
            row.values[i]? = some (some (.unsigned (part ++ [packet]).length.toUInt64))) ∧
          Journal.exports (m.event record packet).2.2 = handed m row
      else Between m r (part ++ [packet]) (m.event record packet).2.1 ∧ Journal.exports (m.event record packet).2.2 = []
    else Between m r part (m.event record packet).2.1 ∧ Journal.exports (m.event record packet).2.2 = [] := by
  obtain ⟨journal, quiet, same⟩ := event_eq m between.alive packet
  have accepted : record.filters.all (·.accepts packet) = admits m.program packet := by
    rw [between.filters, List.all_map]
    rfl
  rw [accepted] at same
  rw [same]
  split
  next =>
    obtain ⟨begun, begins, counted, silent, active, exports⟩ := between.begun counts quiet packet.time
    have ran := run_counted counts packet begins counted silent active
    have frame := m.run_frame packet (asked record journal)
    have alive : (m.run packet (asked record journal)).2.record.alive = true :=
      (congrArg (fun frame => frame.2.2) frame : _).trans between.alive
    have filters : (m.run packet (asked record journal)).2.record.filters = m.program.filters.map (·.2) :=
      (congrArg Prod.fst frame : _).trans between.filters
    have count : part.length.toUInt64 + 1 = (part ++ [packet]).length.toUInt64 := by
      rw [List.length_append, List.length_singleton]
      exact (UInt64.ofNat_add _ _).symm
    rw [exports, count] at ran
    rw [closes]
    split
    next closing =>
      rw [if_pos closing] at ran
      obtain ⟨inactive, ⟨finished, counted⟩, row, values, handed⟩ := ran
      exact ⟨⟨alive, filters, fun _ => ⟨inactive, _, finished, counted⟩, fun full => absurd rfl full⟩, row, values, handed⟩
    next going =>
      rw [if_neg going, ← finishes_snoc] at ran
      obtain ⟨active, counted, exports⟩ := ran
      refine ⟨⟨alive, filters, fun empty => ?_, fun _ => ⟨active, counted⟩⟩, exports⟩
      exact absurd empty (List.append_ne_nil_of_right_ne_nil part (List.cons_ne_nil packet []))
  next =>
    refine ⟨⟨between.alive, between.filters, fun empty => ?_, fun full => ?_⟩, ?_⟩
    · obtain ⟨inactive, n, finished, counted⟩ := between.idle empty
      exact ⟨inactive, n, finished, counted.congr rfl rfl⟩
    · exact ⟨(between.going full).1, (between.going full).2.congr rfl rfl⟩
    · rw [Journal.exports_append, Journal.exports_quiet quiet]
      rfl

private theorem Between.stop {part : List Packet} {record : Record Instance PacketFilter} (between : Between m r part record)
    (reason : EndReason) (now : Int64) : if part.isEmpty then Journal.exports (m.stop record reason now).2 = [] else
      ∃ row : Row, (∀ i : Nat, m.program.exports[i]? = some r →
          row.values[i]? = some (some (.unsigned part.length.toUInt64))) ∧
        Journal.exports (m.stop record reason now).2 = handed m row := by
  have stopped (t : Turn Instance PacketFilter) := Journal.exports_quiet (Meter.stopStarted_quiet t)
  have same : Journal.exports (m.stop record reason now).2 = Journal.exports
      (if record.active then m.finish reason now (.ofRecord record) else .ofRecord record).journal := by
    rw [Meter.stop, between.alive]
    simp only [Bool.not_true, Bool.false_eq_true, if_false]
    rw [Journal.exports_append, stopped, List.append_nil]
  rw [same]
  split
  next empty =>
    rw [(between.idle (List.isEmpty_iff.mp empty)).1]
    rfl
  next full =>
    obtain ⟨active, counted⟩ := between.going fun empty => full (List.isEmpty_iff.mpr empty)
    obtain ⟨row, values, handed, -⟩ := finish_counted counts (t := .ofRecord record) counted reason now
    rw [if_pos active]
    exact ⟨row, values, handed⟩

/-- A record hands out a row for each part of the packets that pass the filters, with the number of packets in it. -/
theorem Between.reports {part : List Packet} {record : Record Instance PacketFilter} (between : Between m r part record)
    (packets : List Packet) (reason : EndReason) (now : Int64) {i : Nat} (exported : m.program.exports[i]? = some r) :
    ∃ rows : List Row, Journal.exports (m.performAll record (packets.map .event ++ [.stop reason now])).2 =
        rows.flatMap (handed m) ∧
      rows.map (fun row => row.values[i]?) =
        (parts (closes (!m.program.controls.isEmpty)) part (packets.filter (admits m.program))).map
          fun part => some (some (.unsigned part.length.toUInt64)) := by
  induction packets generalizing part record with
  | nil =>
    have ended := between.stop counts reason now
    change ∃ rows : List Row, Journal.exports ((m.stop record reason now).2 ++ []) = _ ∧ _
    rw [List.append_nil, List.filter_nil, parts]
    split at ended
    next empty => exact ⟨[], ended, by rw [if_pos empty]; rfl⟩
    next full =>
      obtain ⟨row, values, handed⟩ := ended
      refine ⟨[row], handed.trans (List.flatMap_singleton _ _).symm, ?_⟩
      rw [if_neg full, List.map_singleton, List.map_singleton, values i exported]
  | cons packet packets ih =>
    have next := between.event counts packet
    change ∃ rows : List Row, Journal.exports ((m.event record packet).2.2 ++
      (m.performAll (m.event record packet).2.1 (packets.map .event ++ [.stop reason now])).2) = _ ∧ _
    rw [Journal.exports_append]
    split at next
    next accepted =>
      rw [List.filter_cons_of_pos accepted, parts]
      split at next
      next closing =>
        obtain ⟨between, row, values, handed⟩ := next
        obtain ⟨rows, exports, counted⟩ := ih between
        refine ⟨row :: rows, by rw [handed, exports, List.flatMap_cons], ?_⟩
        rw [if_pos closing, List.map_cons, List.map_cons, counted, values i exported]
      next going =>
        obtain ⟨rows, exports, counted⟩ := ih next.1
        exact ⟨rows, by rw [next.2, List.nil_append, exports], by rw [if_neg going, counted]⟩
    next refused =>
      obtain ⟨rows, exports, counted⟩ := ih next.1
      exact ⟨rows, by rw [next.2, List.nil_append, exports], by rw [List.filter_cons_of_neg refused, counted]⟩

end Flows

end FlowMetering.Library
