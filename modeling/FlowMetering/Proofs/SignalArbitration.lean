import FlowMetering.Proofs.ControlRegisters
import FlowMetering.Proofs.HeardSignals

/-! The arbitration of signals. Controls come first, and the first of them that raises a stop ends the segment and the event.
Otherwise the packet is delivered, and then the first stop, the last export and any restart that have been heard decide what
becomes of the segment. Signals of the sweeps that begin and end segments count for nothing. -/

namespace FlowMetering.Meter

open LifeCycle Signal

variable {σ φ : Type} {m : Meter σ φ} [Feature σ]

def opened (m : Meter σ φ) (packet : Packet) (t : Turn σ φ) : Turn σ φ :=
  if t.record.active then t else m.start packet.time t

/-- The controls in a list are given the packet, one after another as far as they have instances, and nothing else is given to
anyone. -/
def Asked (m : Meter σ φ) (packet : Packet) (controls : List Nat) (heard : List Heard) : Prop :=
  heard.map (·.call.arrival) = (controls.filter (· ∈ m.built)).map (·, .packet packet .flow)

/-- What is told of the beginning of a segment, if none was open. -/
inductive Opens (m : Meter σ φ) (now : Int64) : Bool → Journal → Prop
  | already : Opens m now true []
  | begun {sweep : Journal} (starts : Starts m.built sweep) : Opens m now false (.segment now :: sweep)

/-- What becomes of the segment for the signals that have been heard in the order of the calls: the outcome, whether a segment
is open in the end, and what is told of it. -/
inductive Settled (m : Meter σ φ) (now : Int64) (signals : List Signal) : Outcome → Bool → Journal → Prop
  | stop {reason : EndReason} {sweep attempt : Journal} (first : FirstStop signals reason) (stops : Stops reason m.built sweep)
    (attempted : Attempt m.exporters reason attempt) :
    Settled m now signals .exported false (.finish reason now :: sweep ++ attempt)
  | export {reason : EndReason} {time : Int64} {sweep attempt : Journal} (unstopped : ∀ reason, .stop reason ∉ signals)
    (last : LastExport signals reason time) (settled : .restart ∉ signals) (stops : Stops reason m.built sweep)
    (attempted : Attempt m.exporters reason attempt) :
    Settled m now signals .exported false (.finish reason time :: sweep ++ attempt)
  | exportAndRestart {reason : EndReason} {time : Int64} {sweep attempt started : Journal}
    (unstopped : ∀ reason, .stop reason ∉ signals) (last : LastExport signals reason time) (restarts : .restart ∈ signals)
    (stops : Stops reason m.built sweep) (attempted : Attempt m.exporters reason attempt) (starts : Starts m.built started) :
    Settled m now signals .exported true (.finish reason time :: sweep ++ attempt ++ .segment now :: started)
  | restart {started : Journal} (unstopped : ∀ reason, .stop reason ∉ signals)
    (unexported : ∀ reason time, .export reason time ∉ signals) (restarts : .restart ∈ signals)
    (starts : Starts m.built started) : Settled m now signals .processed true (.segment now :: started)
  | nothing (unstopped : ∀ reason, .stop reason ∉ signals) (unexported : ∀ reason time, .export reason time ∉ signals)
    (settled : .restart ∉ signals) : Settled m now signals .processed true []

/-- What comes of a packet that has been accepted: either the first control that raises a stop ends it all, and no later
control, no data register and no end of the packet is called; or all controls have been asked, the packet is delivered and
closed, and the signals are settled. -/
inductive Arbitrated (m : Meter σ φ) (packet : Packet) (t : Turn σ φ) : Outcome × Record σ φ × Journal → Prop
  | stopped {opening sweep attempt : Journal} {before after : List Nat} {control : Nat} {asked : List Heard} {last : Heard}
    {turn : Turn σ φ} {reason : EndReason} {r : Record σ φ} (opens : Opens m packet.time t.record.active opening)
    (order : m.program.controls = before ++ control :: after)
    (hears : m.Hears packet.time (m.opened packet t) (asked ++ [last]) turn) (earlier : m.Asked packet before asked)
    (unstopped : ∀ reason, .stop reason ∉ Heard.signals asked) (stopping : m.Asked packet [control] [last])
    (first : FirstStop last.reaction.signals reason) (stops : Stops reason m.built sweep)
    (attempted : Attempt m.exporters reason attempt) (inactive : r.active = false) (time : r.last = packet.time) :
    Arbitrated m packet t (.stopped, r, t.journal ++ opening ++ (asked ++ [last]).map (·.happening) ++
      .controlStop reason :: .finish reason packet.time :: sweep ++ attempt)
  | delivered {opening closing ending : Journal} {asked delivered : List Heard} {controlled turn : Turn σ φ} {outcome : Outcome}
    {r : Record σ φ} (opens : Opens m packet.time t.record.active opening)
    (hears : m.Hears packet.time (m.opened packet t) asked controlled) (controls : m.Asked packet m.program.controls asked)
    (unstopped : ∀ reason, .stop reason ∉ Heard.signals asked) (delivers : m.Hears packet.time controlled delivered turn)
    (calls : delivered.map (·.call) = (m.deliveryCalls packet controlled).filter m.answers)
    (closes : List.Forall₂ (fun q h => ∃ remarks, h = Happening.call q .finishEvent remarks) m.built closing)
    (settled : m.Settled packet.time (Heard.signals (asked ++ delivered)) outcome r.active ending)
    (time : r.last = packet.time) :
    Arbitrated m packet t (outcome, r, t.journal ++ opening ++ (asked ++ delivered).map (·.happening) ++ closing ++ ending)

section Controls

variable {packet : Packet}

omit [Feature σ] in
private theorem Asked.append {controls others : List Nat} {one other : List Heard} (first : m.Asked packet controls one)
    (rest : m.Asked packet others other) : m.Asked packet (controls ++ others) (one ++ other) := by
  simp only [Asked] at first rest ⊢
  simp [first, rest]

omit [Feature σ] in
private theorem Asked.single {control : Nat} {heard : List Heard} (asked : m.Asked packet [control] heard) :
    heard = [] ∨ ∃ last, heard = [last] := by
  have count := congrArg List.length asked
  have few := List.length_filter_le (· ∈ m.built) [control]
  cases heard with
  | nil => exact .inl rfl
  | cons last rest =>
    simp only [List.length_map, List.length_cons, List.length_nil] at count few
    obtain rfl : rest = [] := List.eq_nil_of_length_eq_zero (by omega)
    exact .inr ⟨last, rfl⟩

private theorem control_hears (packet : Packet) {control : Nat} (unread : m.program.dependents control = []) {t : Turn σ φ}
    (fits : m.Fits t.record) :
    ∃ heard, m.Hears packet.time t heard (m.dispatch packet.time (some packet) control (.packet packet .flow) t) ∧
      m.Asked packet [control] heard := by
  obtain ⟨heard, hears, told⟩ := deliver_hears packet (m.program.size - control) control (.packet packet .flow) fits
  refine ⟨heard, hears, ?_⟩
  rw [Asked, ← Function.comp_def Call.arrival, ← List.map_map, told]
  have silent (e : Emission) : m.sent packet control e = [] := by
    rw [sent, unread]
    cases e.input? packet control <;> rfl
  cases fuel : m.program.size - control with
  | zero =>
    have absent : control ∉ m.built := by
      intro member
      obtain ⟨node, found, -⟩ := mem_built.mp member
      have inside : control < m.program.size := (List.getElem?_eq_some_iff.mp found).1
      omega
    simp [calls, absent]
  | succ fuel =>
    rw [calls]
    simp only [silent, along]
    by_cases present : control ∈ m.built <;> simp [answers, present, Call.arrival]

/-- Either no control raises a stop and all of them are asked, or the first that does is the last to be asked. -/
private theorem runControls_hears (packet : Packet) {controls : List Nat}
    (unread : ∀ control ∈ controls, m.program.dependents control = []) {t : Turn σ φ} (fits : m.Fits t.record)
    (unstopped : ∀ reason, .stop reason ∉ t.signals) :
    (∃ asked, m.Hears packet.time t asked (m.runControls packet controls t) ∧ m.Asked packet controls asked ∧
      ∀ reason, .stop reason ∉ Heard.signals asked) ∨
    ∃ before control after asked last reason, controls = before ++ control :: after ∧
      m.Hears packet.time t (asked ++ [last]) (m.runControls packet controls t) ∧ m.Asked packet before asked ∧
      (∀ reason, .stop reason ∉ Heard.signals asked) ∧ m.Asked packet [control] [last] ∧
      FirstStop last.reaction.signals reason := by
  induction controls generalizing t with
  | nil => exact .inl ⟨[], .done t, rfl, by simp [Heard.signals]⟩
  | cons control controls ih =>
    rw [List.forall_mem_cons] at unread
    obtain ⟨heard, hears, asked⟩ := control_hears packet unread.1 fits
    have grown := hears.signals
    rw [runControls]
    generalize m.dispatch packet.time (some packet) control (.packet packet .flow) t = next at hears grown ⊢
    split
    next stopped =>
      refine .inr ?_
      obtain ⟨reason, found⟩ := Option.isSome_iff_exists.mp stopped
      obtain ⟨front, back, split, -⟩ := stopReason?_eq_some.mp found
      have raised : Signal.stop reason ∈ Heard.signals heard := by
        have member : Signal.stop reason ∈ next.signals := by simp [split]
        rw [grown] at member
        exact (List.mem_append.mp member).resolve_left (unstopped reason)
      rcases asked.single with rfl | ⟨last, rfl⟩
      · cases raised
      · have own : Heard.signals [last] = last.reaction.signals := List.append_nil _
        rw [own] at raised
        cases first : stopReason? last.reaction.signals with
        | none => exact absurd raised (stopReason?_eq_none.mp first reason)
        | some reason =>
          exact ⟨[], control, controls, [], last, reason, rfl, hears, rfl, by simp [Heard.signals], asked,
            stopReason?_eq_some.mp first⟩
    next going =>
      have silent : ∀ reason, .stop reason ∉ next.signals := by
        rw [Option.not_isSome_iff_eq_none] at going
        exact stopReason?_eq_none.mp going
      have quiet : ∀ reason, .stop reason ∉ Heard.signals heard := by
        intro reason member
        apply silent reason
        rw [grown]
        exact List.mem_append_right _ member
      rcases ih unread.2 (hears.fits fits) silent with
        ⟨others, rest, asked', quiet'⟩ | ⟨before, stopping, after, others, last, reason, rfl, rest, asked', quiet', stops, first⟩
      · refine .inl ⟨heard ++ others, hears.trans rest, asked.append asked', ?_⟩
        simpa [not_or] using fun reason => ⟨quiet reason, quiet' reason⟩
      · refine .inr ⟨control :: before, stopping, after, heard ++ others, last, reason, rfl, ?_, asked.append asked', ?_, stops,
          first⟩
        · rw [List.append_assoc]
          exact hears.trans rest
        · simpa [not_or] using fun reason => ⟨quiet reason, quiet' reason⟩

end Controls

private theorem finishEvents_closes (rs : List Nat) {t : Turn σ φ} (fits : m.Fits t.record) :
    ∃ closing, (rs.foldl finishEventOne t).journal = t.journal ++ closing ∧
      List.Forall₂ (fun q h => ∃ remarks, h = Happening.call q .finishEvent remarks) (rs.filter (· ∈ m.built)) closing ∧
      (rs.foldl finishEventOne t).signals = t.signals ∧ m.Fits (rs.foldl finishEventOne t).record ∧
      (rs.foldl finishEventOne t).record.active = t.record.active := by
  induction rs generalizing t with
  | nil => exact ⟨[], by simp, .nil, rfl, fits, rfl⟩
  | cons r rs ih =>
    rw [List.foldl_cons]
    rcases t.idle_or_held r with idle | ⟨s, held⟩
    · have same : finishEventOne t r = t := by
        rw [finishEventOne]
        split
        next s held => exact absurd held (idle s)
        next => rfl
      rw [same, List.filter_cons_of_neg (by simpa using fits.not_mem_built idle)]
      exact ih fits
    · have present : r ∈ m.built := fits.mem_built.mpr ⟨s, held⟩
      have same : finishEventOne t r =
          (t.setInstance r (Feature.finishEvent s).1).log (.call r .finishEvent (Feature.finishEvent s).2) := by
        rw [finishEventOne, held]
      rw [same, List.filter_cons_of_pos (by simpa using present)]
      obtain ⟨closing, journal, closes, signals, fits', active⟩ :=
        ih (t := (t.setInstance r (Feature.finishEvent s).1).log (.call r .finishEvent (Feature.finishEvent s).2))
          (fits.setInstance _ held)
      refine ⟨.call r .finishEvent (Feature.finishEvent s).2 :: closing, ?_, .cons ⟨_, rfl⟩ closes, signals, fits', active⟩
      rw [journal]
      simp [Turn.log, Turn.setInstance]

private theorem settle_settles (ordered : m.program.Ordered) (now : Int64) {t : Turn σ φ} (fits : m.Fits t.record)
    (active : t.record.active = true) :
    ∃ ending, (m.settle now t).2.journal = t.journal ++ ending ∧
      m.Settled now t.signals (m.settle now t).1 (m.settle now t).2.record.active ending := by
  rw [settle]
  cases stopped : stopReason? t.signals with
  | some reason =>
    obtain ⟨sweep, attempt, journal, stops, attempted, -⟩ := finish_sweeps ordered reason now t fits
    refine ⟨.finish reason now :: sweep ++ attempt, ?_, .stop (stopReason?_eq_some.mp stopped) stops attempted⟩
    rw [journal, List.append_assoc]
  | none =>
    have unstopped := stopReason?_eq_none.mp stopped
    cases exported : export? t.signals with
    | some raised =>
      obtain ⟨reason, time⟩ := raised
      have last := export?_eq_some.mp exported
      obtain ⟨sweep, attempt, journal, stops, attempted, fits'⟩ := finish_sweeps ordered reason time t fits
      have kept : (m.finish reason time t).signals = t.signals := rfl
      dsimp only
      rw [kept]
      cases restarts : Signal.restarts t.signals with
      | true =>
        obtain ⟨started, journal', starts, -⟩ := m.start_sweeps now (m.finish reason time t) fits'
        refine ⟨.finish reason time :: sweep ++ attempt ++ .segment now :: started, ?_,
          .exportAndRestart unstopped last (restarts_iff.mp restarts) stops attempted starts⟩
        rw [if_pos rfl, journal', journal]
        simp
      | false =>
        refine ⟨.finish reason time :: sweep ++ attempt, ?_,
          .export unstopped last (fun member => ?_) stops attempted⟩
        · rw [if_neg Bool.false_ne_true, journal, List.append_assoc]
        · rw [restarts_iff.mpr member] at restarts
          cases restarts
    | none =>
      have unexported := export?_eq_none.mp exported
      dsimp only
      cases restarts : Signal.restarts t.signals with
      | true =>
        obtain ⟨started, journal, starts, -⟩ := m.start_sweeps now t fits
        refine ⟨.segment now :: started, ?_, .restart unstopped unexported (restarts_iff.mp restarts) starts⟩
        rw [if_pos rfl, journal]
      | false =>
        refine ⟨[], by simp, ?_⟩
        rw [if_neg Bool.false_ne_true, active]
        refine .nothing unstopped unexported fun member => ?_
        rw [restarts_iff.mpr member] at restarts
        cases restarts

private theorem opened_opens (packet : Packet) {t : Turn σ φ} (fits : m.Fits t.record) :
    ∃ opening, (m.opened packet t).journal = t.journal ++ opening ∧ m.Opens packet.time t.record.active opening ∧
      (m.opened packet t).signals = t.signals ∧ (m.opened packet t).record.active = true ∧
      m.Fits (m.opened packet t).record := by
  rw [opened]
  cases active : t.record.active with
  | true => exact ⟨[], by simp, .already, rfl, active, fits⟩
  | false =>
    obtain ⟨sweep, journal, starts, fits'⟩ := m.start_sweeps packet.time t fits
    exact ⟨.segment packet.time :: sweep, journal, .begun starts, rfl, rfl, fits'⟩

private theorem delivery_settles (ordered : m.program.Ordered) (packet : Packet) {t : Turn σ φ} (fits : m.Fits t.record)
    (active : t.record.active = true) : ∃ delivered turn closing ending, m.Hears packet.time t delivered turn ∧
      delivered.map (·.call) = (m.deliveryCalls packet t).filter m.answers ∧
      List.Forall₂ (fun q h => ∃ remarks, h = Happening.call q .finishEvent remarks) m.built closing ∧
      (m.settle packet.time (m.deliverPacket packet t)).2.journal =
        t.journal ++ delivered.map (·.happening) ++ closing ++ ending ∧
      m.Settled packet.time (t.signals ++ Heard.signals delivered) (m.settle packet.time (m.deliverPacket packet t)).1
        (m.settle packet.time (m.deliverPacket packet t)).2.record.active ending := by
  obtain ⟨delivered, delivers, calls⟩ := delivery_hears packet fits
  obtain ⟨closing, journal, closes, signals, fits', active'⟩ := finishEvents_closes (List.range m.program.size) (delivers.fits fits)
  rw [range_built] at closes
  have still := active'.trans (delivers.active.trans active)
  obtain ⟨ending, journal', settled⟩ := settle_settles ordered packet.time fits' still
  rw [signals, delivers.signals] at settled
  refine ⟨delivered, _, closing, ending, delivers, calls, closes, ?_, settled⟩
  change (m.settle packet.time ((List.range m.program.size).foldl finishEventOne _)).2.journal = _
  rw [journal', journal, delivers.journal]

private theorem run_arbitrates (ordered : m.program.Ordered) (unread : ∀ control ∈ m.program.controls, m.program.dependents control = [])
    (packet : Packet) {t : Turn σ φ} (fits : m.Fits t.record) (silent : t.signals = []) :
    m.Arbitrated packet t ((m.run packet t).1, (m.run packet t).2.record, (m.run packet t).2.journal) := by
  obtain ⟨opening, journal, opens, signals, active, fits'⟩ := opened_opens packet fits
  rw [silent] at signals
  have unstopped : ∀ reason, .stop reason ∉ (m.opened packet t).signals := by simp [signals]
  have begun : (if t.record.active then t else m.start packet.time t) = m.opened packet t := rfl
  unfold run
  simp only [begun]
  rcases runControls_hears packet unread fits' unstopped with
    ⟨asked, hears, asks, quiet⟩ | ⟨before, control, after, asked, last, reason, order, hears, asks, quiet, stops, first⟩
  · generalize m.runControls packet m.program.controls (m.opened packet t) = controlled at hears ⊢
    have heard : controlled.signals = Heard.signals asked := by rw [hears.signals, signals, List.nil_append]
    rw [heard, stopReason?_eq_none.mpr quiet]
    obtain ⟨delivered, turn, closing, ending, delivers, calls, closes, told, settled⟩ :=
      delivery_settles ordered packet (hears.fits fits') (hears.active.trans active)
    rw [heard, ← Heard.signals_append] at settled
    have arbitrated := Arbitrated.delivered (r := (setLast packet.time
      (m.settle packet.time (m.deliverPacket packet controlled)).2).record) opens hears asks quiet delivers calls closes settled rfl
    rw [hears.journal, journal] at told
    simpa [setLast, told] using arbitrated
  · generalize m.runControls packet m.program.controls (m.opened packet t) = controlled at hears ⊢
    have heard : controlled.signals = Heard.signals asked ++ last.reaction.signals := by
      simp [hears.signals, signals, Heard.signals]
    rw [heard, stopReason?_eq_some.mpr (first.append_left quiet)]
    obtain ⟨sweep, attempt, told, stops', attempted, -⟩ :=
      finish_sweeps ordered reason packet.time (controlled.log (.controlStop reason)) (hears.fits fits')
    have arbitrated := Arbitrated.stopped (r := (setLast packet.time (m.finish reason packet.time
      (controlled.log (.controlStop reason)))).record) opens order hears asks quiet stops first stops' attempted rfl rfl
    change _ = controlled.journal ++ [.controlStop reason] ++ _ ++ _ at told
    rw [hears.journal, journal] at told
    simpa [setLast, told] using arbitrated

variable [Filter φ] {packet : Packet}

/-- Whatever its features do and whatever has been done with a record, the signals of a packet that it accepts are arbitrated by
one rule. -/
theorem event_arbitrates {catalog : Catalog σ φ} {limit : Nat} {s : Specification}
    (compiled : s.compile catalog limit = .ok m.program) {operations : List Operation} {r : Record σ φ}
    (reached : (m.performAll m.make operations).1 = r) (alive : r.alive = true)
    (accepted : (screen packet (.ofRecord r)).1 = true) :
    m.Arbitrated packet (screen packet (.ofRecord r)).2 (m.event r packet) := by
  have ordered := Specification.compile_ordered compiled
  have fits : m.Fits r := reached ▸ performAll_fits ordered operations m.make m.make_fits
  have fits' : m.Fits (screen packet (.ofRecord r)).2.record := (screen_follows packet (.ofRecord r) fits).fits
  have arbitrated := run_arbitrates ordered (fun control member => Specification.compile_unread compiled member) packet fits' rfl
  rw [event, alive]
  generalize screen packet (.ofRecord r) = screened at accepted arbitrated
  obtain ⟨verdict, t⟩ := screened
  cases accepted
  exact arbitrated

/-- The control notices that the connection is reset, and has the first segment exported once the packet is delivered. -/
theorem event_arbitrates_segmented : ∃ m : Meter Library.Instance Library.PacketFilter,
    segmented.compile Library.catalog 4096 = .ok m.program ∧
    (screen ((Packet.ofLength 1 60).withTcp 40000 443 Packet.rst) (.ofRecord m.make)).1 = true ∧
    m.Arbitrated ((Packet.ofLength 1 60).withTcp 40000 443 Packet.rst)
      (screen ((Packet.ofLength 1 60).withTcp 40000 443 Packet.rst) (.ofRecord m.make)).2
      (m.event m.make ((Packet.ofLength 1 60).withTcp 40000 443 Packet.rst)) ∧
    (m.event m.make ((Packet.ofLength 1 60).withTcp 40000 443 Packet.rst)).1 = .exported := by
  have facts : (segmented.compile Library.catalog 4096).toOption.any (fun p => decide (
      (screen ((Packet.ofLength 1 60).withTcp 40000 443 Packet.rst) (.ofRecord (make ⟨p, []⟩))).1 = true ∧
      (event ⟨p, []⟩ (make ⟨p, []⟩) ((Packet.ofLength 1 60).withTcp 40000 443 Packet.rst)).1 = .exported)) = true := by
    decide +kernel
  obtain ⟨p, compiled, accepted, outcome⟩ := ok_of_any facts
  have reached : (performAll ⟨p, []⟩ (make ⟨p, []⟩) []).1 = make ⟨p, []⟩ := rfl
  exact ⟨⟨p, []⟩, compiled, accepted, event_arbitrates (m := ⟨p, []⟩) compiled reached rfl accepted, outcome⟩

end FlowMetering.Meter
