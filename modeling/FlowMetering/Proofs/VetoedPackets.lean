import FlowMetering.Proofs.ReportedCounts

/-! Packets that the filters refuse. A record that meets one stays as it is, so the exporters get what they would get if
nobody had asked the filters and only the packets that pass had come. -/

namespace FlowMetering

def Program.unfiltered {σ φ : Type} (p : Program σ φ) : Program σ φ :=
  { p with filters := [] }

/-- Filters are the last thing a compilation looks at. -/
private theorem Specification.compile_unfiltered {σ φ : Type} {catalog : Catalog σ φ} {limit : Nat} {s : Specification}
    {p : Program σ φ} (compiled : s.compile catalog limit = .ok p) :
    { s with filter := [] }.compile catalog limit = .ok p.unfiltered := by
  obtain ⟨fields, controls, filters, allocation, prepared, controlled, -, allocated, finished⟩ :=
    compile_eq_ok_iff.mp compiled
  refine compile_eq_ok_iff.mpr ⟨fields, controls, [], allocation, prepared, controlled, .nil, allocated, ?_⟩
  obtain ⟨template, built, rest⟩ := bind_eq_ok.mp finished
  exact bind_eq_ok.mpr ⟨template, built, Except.ok.inj rest ▸ rfl⟩

namespace Meter

variable {σ φ : Type} (m : Meter σ φ)

private def unfiltered : Meter σ φ :=
  ⟨m.program.unfiltered, m.exporters⟩

variable [Feature σ]

private theorem deliver_unfiltered (now : Int64) (packet : Option Packet) (fuel : Nat) :
    m.unfiltered.deliver now packet fuel = m.deliver now packet fuel := by
  induction fuel with
  | zero => rfl
  | succ fuel ih =>
    funext r input t
    rw [deliver, deliver, ih]
    rfl

private theorem dispatch_unfiltered : m.unfiltered.dispatch = m.dispatch := by
  funext now packet r input t
  rw [dispatch, dispatch, deliver_unfiltered]
  rfl

private theorem start_unfiltered : m.unfiltered.start = m.start := rfl

private theorem finish_unfiltered : m.unfiltered.finish = m.finish := by
  have stopOne : m.unfiltered.stopOne = m.stopOne := by
    funext reason time t r
    rw [Meter.stopOne, Meter.stopOne, dispatch_unfiltered]
    rfl
  funext reason time t
  rw [finish, finish, stopOne]
  rfl

private theorem runControls_unfiltered (packet : Packet) (controls : List Nat) :
    m.unfiltered.runControls packet controls = m.runControls packet controls := by
  induction controls with
  | nil => rfl
  | cons control controls ih =>
    funext t
    rw [runControls, runControls, ih, dispatch_unfiltered]

private theorem deliverPacket_unfiltered : m.unfiltered.deliverPacket = m.deliverPacket := by
  funext packet t
  rw [deliverPacket, deliverPacket, dispatch_unfiltered]
  rfl

private theorem run_unfiltered : m.unfiltered.run = m.run := by
  have settle : m.unfiltered.settle = m.settle := by
    funext now t
    rw [Meter.settle, Meter.settle, finish_unfiltered, start_unfiltered]
  funext packet t
  rw [run, run, runControls_unfiltered, deliverPacket_unfiltered, settle, finish_unfiltered, start_unfiltered]
  rfl

variable [Filter φ]

private theorem event_unfiltered : m.unfiltered.event = m.event := by
  funext r packet
  rw [event, event, run_unfiltered]

private theorem stop_unfiltered : m.unfiltered.stop = m.stop := by
  funext r reason now
  rw [stop, stop, finish_unfiltered]

private theorem performAll_unfiltered (operations : List Operation) (r : Record σ φ) :
    m.unfiltered.performAll r operations = m.performAll r operations := by
  induction operations generalizing r with
  | nil => rfl
  | cons operation operations ih =>
    have step : m.unfiltered.perform r operation = m.perform r operation := by
      cases operation with
      | event packet => rw [perform, perform, event_unfiltered]
      | stop reason now => rw [perform, perform, stop_unfiltered]
    rw [performAll, performAll, step, ih]

end Meter

namespace Library

variable {m : Meter Instance PacketFilter} {r r' : Record Instance PacketFilter} {t t' : Turn Instance PacketFilter}

private theorem Alike.ofRecord (alike : Alike t t') : Alike (.ofRecord t.record) (.ofRecord t'.record) :=
  ⟨⟨alike.active, alike.alive, rfl, rfl⟩, alike.instances, alike.values⟩

private theorem Alike.run (alike : Alike t t') (m : Meter Instance PacketFilter) (packet : Packet) :
    Alike (m.run packet t).2 (m.run packet t').2 :=
  alike.toAbreast.run m packet (fun _ => alike) fun _ => alike.start m packet.time

def Screened (m : Meter Instance PacketFilter) (r : Record Instance PacketFilter) : Prop :=
  r.alive = true → r.filters = m.program.filters.map (·.2)

theorem Screened.accepts (screened : Screened m r) (alive : r.alive = true) (packet : Packet) :
    r.filters.all (·.accepts packet) = admits m.program packet := by
  rw [screened alive, List.all_map]
  rfl

private theorem event_refused (m : Meter Instance PacketFilter) (alive : r.alive = true) {packet : Packet}
    (refused : r.filters.all (·.accepts packet) = false) :
    (m.event r packet).1 = .filtered ∧ (m.event r packet).2.1 = { r with filtersAlive := true } ∧
      Journal.exports (m.event r packet).2.2 = [] := by
  obtain ⟨journal, quiet, screen⟩ := screen_eq packet (.ofRecord r)
  have some : r.filters.isEmpty = false := by
    cases filters : r.filters with
    | nil => simp [filters] at refused
    | cons => rfl
  have done : m.event r packet = (.filtered, { r with filtersAlive := true }, journal ++ [.veto]) := by
    rw [Meter.event, alive, screen]
    simp [Turn.ofRecord, Turn.log, refused, some, alive]
  rw [done]
  refine ⟨rfl, rfl, ?_⟩
  rw [Journal.exports_append, Journal.exports_quiet quiet]
  rfl

private theorem Screened.perform (screened : Screened m r) (operation : Operation) : Screened m (m.perform r operation).1 := by
  intro alive
  by_cases before : r.alive = true
  · cases operation with
    | event packet =>
      obtain ⟨filters, -⟩ := performAll_frame m before [packet]
      exact filters.trans (screened before)
    | stop reason now =>
      rw [Meter.perform, Meter.stop, before] at alive
      cases alive
  · have same : (m.perform r operation).1 = r := by
      cases operation <;> simp [Meter.perform, Meter.event, Meter.stop, before]
    rw [same] at alive ⊢
    exact screened alive

theorem Screened.performAll (screened : Screened m r) (operations : List Operation) :
    Screened m (m.performAll r operations).1 := by
  induction operations generalizing r with
  | nil => exact screened
  | cons operation operations ih => exact ih (screened.perform operation)

/-- A live record, and another one without filters that is in the same state. -/
structure Spared (m : Meter Instance PacketFilter) (r r' : Record Instance PacketFilter) : Prop where
  alive : r.alive = true
  screened : Screened m r
  unfiltered : r'.filters = []
  alike : Alike (.ofRecord r) (.ofRecord r')

namespace Spared

private theorem admitted (spared : Spared m r r') {packet : Packet} (passes : admits m.program packet = true) :
    Spared m (m.event r packet).2.1 (m.event r' packet).2.1 ∧
      Journal.exports (m.event r packet).2.2 = Journal.exports (m.event r' packet).2.2 := by
  have alive' : r'.alive = true := spared.alike.alive.symm.trans spared.alive
  obtain ⟨filters, alive⟩ := performAll_frame m spared.alive [packet]
  obtain ⟨filters', -⟩ := performAll_frame m alive' [packet]
  obtain ⟨journal, quiet, same⟩ := event_eq m spared.alive packet
  obtain ⟨journal', quiet', same'⟩ := event_eq m alive' packet
  rw [spared.screened.accepts spared.alive, passes, if_pos rfl] at same
  rw [spared.unfiltered, List.all_nil, if_pos rfl] at same'
  have alike : Alike (asked r journal) (asked r' journal') :=
    { spared.alike with exports := (Journal.exports_quiet quiet).trans (Journal.exports_quiet quiet').symm }
  have ran := alike.run m packet
  refine ⟨⟨alive, fun _ => filters.trans (spared.screened spared.alive), filters'.trans spared.unfiltered, ?_⟩, ?_⟩
  · rw [same, same']
    exact ran.ofRecord
  · rw [same, same']
    exact ran.exports

private theorem refused (spared : Spared m r r') {packet : Packet} (vetoed : admits m.program packet = false) :
    Spared m (m.event r packet).2.1 r' ∧ Journal.exports (m.event r packet).2.2 = [] := by
  obtain ⟨-, same, silent⟩ := event_refused m spared.alive ((spared.screened.accepts spared.alive packet).trans vetoed)
  rw [same]
  exact ⟨⟨spared.alive, spared.screened, spared.unfiltered, { spared.alike with }⟩, silent⟩

private theorem exports (spared : Spared m r r') (packets : List Packet) (reason : EndReason) (now : Int64) :
    Journal.exports (m.performAll r (packets.map .event ++ [.stop reason now])).2 =
      Journal.exports (m.performAll r' ((packets.filter (admits m.program)).map .event ++ [.stop reason now])).2 := by
  induction packets generalizing r r' with
  | nil =>
    change Journal.exports ((m.stop r reason now).2 ++ []) = Journal.exports ((m.stop r' reason now).2 ++ [])
    rw [List.append_nil, List.append_nil]
    exact exports_stop m spared.alike.active spared.alike.alive (fun _ => spared.alike) reason now
  | cons packet packets ih =>
    change Journal.exports ((m.event r packet).2.2 ++ _) = _
    rw [Journal.exports_append]
    cases passes : admits m.program packet with
    | true =>
      obtain ⟨next, same⟩ := spared.admitted passes
      rw [List.filter_cons_of_pos passes]
      change _ = Journal.exports ((m.event r' packet).2.2 ++ _)
      rw [Journal.exports_append, same]
      exact congrArg _ (ih next)
    | false =>
      obtain ⟨next, silent⟩ := spared.refused passes
      rw [List.filter_cons_of_neg (Bool.eq_false_iff.mp passes), silent, List.nil_append]
      exact ih next

end Spared

/-- Packets that a filter refuses leave no trace. What the exporters get is what a record of the same features and controls
without filters makes of the packets that pass, and a refused packet changes nothing in the record but that its filters
have been asked. -/
theorem performAll_spares {limit : Nat} {s : Specification} {p : Program Instance PacketFilter}
    (compiled : s.compile catalog limit = .ok p) (exporters : List Exporter) :
    { s with filter := [] }.compile catalog limit = .ok p.unfiltered ∧
    (∀ (packets : List Packet) reason now,
      Journal.exports (Meter.performAll ⟨p, exporters⟩ (Meter.make ⟨p, exporters⟩)
          (packets.map .event ++ [.stop reason now])).2 =
        Journal.exports (Meter.performAll ⟨p.unfiltered, exporters⟩ (Meter.make ⟨p.unfiltered, exporters⟩)
          ((packets.filter (admits p)).map .event ++ [.stop reason now])).2) ∧
    ∀ operations packet r, (Meter.performAll ⟨p, exporters⟩ (Meter.make ⟨p, exporters⟩) operations).1 = r →
      r.alive = true → admits p packet = false →
      (Meter.event ⟨p, exporters⟩ r packet).1 = .filtered ∧
        (Meter.event ⟨p, exporters⟩ r packet).2.1 = { r with filtersAlive := true } := by
  have fresh : Screened ⟨p, exporters⟩ (Meter.make ⟨p, exporters⟩) := fun _ => rfl
  refine ⟨Specification.compile_unfiltered compiled, fun packets reason now => ?_, ?_⟩
  · have spared : Spared ⟨p, exporters⟩ (Meter.make ⟨p, exporters⟩) (Meter.make ⟨p.unfiltered, exporters⟩) :=
      ⟨rfl, fresh, rfl, ⟨⟨rfl, rfl, rfl, rfl⟩, rfl, rfl⟩⟩
    rw [spared.exports packets reason now]
    exact congrArg (fun done => Journal.exports done.2) (Meter.performAll_unfiltered ⟨p, exporters⟩ _ _).symm
  · rintro operations packet r rfl alive vetoed
    have screened := fresh.performAll operations
    obtain ⟨outcome, same, -⟩ := event_refused ⟨p, exporters⟩ alive ((screened.accepts alive packet).trans vetoed)
    exact ⟨outcome, same⟩

/-- A datagram comes while a connection is being closed, and is refused. -/
theorem performAll_spares_closing : ∃ (p : Program Instance PacketFilter) (r : Record Instance PacketFilter),
    connections.compile catalog 4096 = .ok p ∧
    { connections with filter := [] }.compile catalog 4096 = .ok p.unfiltered ∧
    (closing.filter (admits p)).length = 4 ∧
    Journal.exports (Meter.performAll ⟨p, [sink]⟩ (Meter.make ⟨p, [sink]⟩)
        (closing.map .event ++ [.stop .forcedEnd 6])).2 =
      Journal.exports (Meter.performAll ⟨p.unfiltered, [sink]⟩ (Meter.make ⟨p.unfiltered, [sink]⟩)
        ((closing.filter (admits p)).map .event ++ [.stop .forcedEnd 6])).2 ∧
    (Meter.performAll ⟨p, [sink]⟩ (Meter.make ⟨p, [sink]⟩) ((closing.take 2).map .event)).1 = r ∧ r.active = true ∧
    admits p ((Packet.ofLength 3 90).withUdp 40000 443) = false ∧
    (Meter.event ⟨p, [sink]⟩ r ((Packet.ofLength 3 90).withUdp 40000 443)).1 = .filtered ∧
    (Meter.event ⟨p, [sink]⟩ r ((Packet.ofLength 3 90).withUdp 40000 443)).2.1 = { r with filtersAlive := true } := by
  have facts : (connections.compile catalog 4096).toOption.any (fun p =>
      let r := (Meter.performAll ⟨p, [sink]⟩ (Meter.make ⟨p, [sink]⟩) ((closing.take 2).map .event)).1
      decide ((closing.filter (admits p)).length = 4 ∧ r.alive = true ∧ r.active = true ∧
        admits p ((Packet.ofLength 3 90).withUdp 40000 443) = false)) = true := by decide +kernel
  cases compiled : connections.compile catalog 4096 with
  | error _ =>
    rw [compiled] at facts
    cases facts
  | ok p =>
    rw [compiled] at facts
    obtain ⟨count, alive, active, vetoed⟩ := of_decide_eq_true facts
    obtain ⟨compiled', exports, refused⟩ := performAll_spares compiled [sink]
    exact ⟨p, _, rfl, compiled', count, exports closing .forcedEnd 6, rfl, active, vetoed,
      refused ((closing.take 2).map .event) _ _ rfl alive vetoed⟩

end Library

end FlowMetering
