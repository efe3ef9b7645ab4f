import FlowMetering.Proofs.CompiledRegisters
import FlowMetering.Proofs.FilterCalls
import FlowMetering.Proofs.LifeCycleRuns

/-! Liveness of records. A record that has been stopped is at rest for good, one with an open segment keeps its filters
alive, and constants are never lost. -/

namespace FlowMetering

variable {σ φ : Type}

private def Program.Inert (p : Program σ φ) : Prop :=
  ∀ (r : Nat) node v, p.nodes[r]? = some node → node.constant = some v → node.build? = none

private theorem Specification.compile_inert {catalog : Catalog σ φ} {limit : Nat} {s : Specification} {p : Program σ φ}
    (compiled : s.compile catalog limit = .ok p) : p.Inert := by
  intro r node v found known
  obtain ⟨stages⟩ := compile_stages compiled
  obtain ⟨layout⟩ := stages.layout
  rcases layout.node_cases found with ⟨position, control, -, rfl⟩ | ⟨tree, -, -, made⟩
  · cases known
  · cases made with
    | constant plain type known args entry key => rw [Node.build?, entry, Option.bind_none]
    | call plain type varies entry key each => cases varies.symm.trans known

namespace Meter

variable {m : Meter σ φ}

def Holds (r : Nat) (v : Value) : Picture σ := fun instances values =>
  instances[r]? = some none ∧ values[r]? = some (some v)

private theorem Rests.always {picture : Picture σ} {record : Record σ φ} (rests : Rests picture picture record) :
    picture record.instances record.values := by
  cases active : record.active with
  | false => exact rests.idle active
  | true => exact rests.live active

section Constants

variable {r : Nat} {v : Value} {t : Turn σ φ}

private theorem Holds.setInstance (held : t.Shows (Holds r v)) {q : Nat} {old : σ} (found : t.record.instances[q]? = some (some old))
    (s : σ) : (t.setInstance q s).Shows (Holds r v) := by
  have other : q ≠ r := by
    rintro rfl
    cases held.1.symm.trans found
  exact ⟨(List.getElem?_set_ne other).trans held.1, held.2⟩

private theorem Holds.setValue (held : t.Shows (Holds r v)) {q : Nat} (other : q ≠ r) (w : Option Value) :
    (t.setValue q w).Shows (Holds r v) :=
  ⟨held.1, (List.getElem?_set_ne other).trans held.2⟩

private theorem Holds.call (held : t.Shows (Holds r v)) (m : Meter σ φ) (now : Int64) (q : Nat) (phase : Phase)
    (answer : Context → σ → σ × Reaction) : (m.call now q phase answer t).1.Shows (Holds r v) ∧
      (q = r → (m.call now q phase answer t).2 = .nothing) := by
  rw [Meter.call]
  split
  next s found =>
    refine ⟨Holds.setInstance held found _, ?_⟩
    rintro rfl
    cases held.1.symm.trans found
  next => exact ⟨held, fun _ => rfl⟩

private theorem Holds.propagate (held : t.Shows (Holds r v)) (m : Meter σ φ) {next : Nat → Input → Turn σ φ → Turn σ φ}
    (each : ∀ d input t, t.Shows (Holds r v) → (next d input t).Shows (Holds r v)) (packet : Option Packet) (q : Nat)
    {emission : Emission} (silent : q = r → emission = .nothing) : (m.propagate next packet q t emission).Shows (Holds r v) := by
  cases emission with
  | nothing => exact held
  | value w =>
    have placed := Holds.setValue held (fun same => nomatch silent same) w
    cases w with
    | none => exact placed
    | some w => exact Turn.shows_foldl (fun d _ => each d (.value w q)) placed
  | forward =>
    cases packet with
    | none => exact held
    | some p => exact Turn.shows_foldl (fun d _ => each d (.packet p (.register q))) held

variable [Feature σ]

private theorem Holds.deliver (held : t.Shows (Holds r v)) (m : Meter σ φ) (now : Int64) (packet : Option Packet) (fuel q : Nat)
    (input : Input) : (m.deliver now packet fuel q input t).Shows (Holds r v) := by
  induction fuel generalizing q input t with
  | zero => exact held
  | succ fuel ih =>
    obtain ⟨called, silent⟩ := Holds.call held m now q (.event input) (Feature.event input)
    exact Holds.propagate called m (fun d input t held => ih held d input) packet q silent

private theorem Holds.startOne (held : t.Shows (Holds r v)) (m : Meter σ φ) (now : Int64) (q : Nat) :
    (m.startOne now t q).Shows (Holds r v) := by
  obtain ⟨called, silent⟩ := Holds.call held m now q .start Feature.start
  rw [Meter.startOne]
  split
  next t' w same =>
    rw [same] at called silent
    refine Holds.setValue called (fun same => ?_) w
    cases silent same
  next t' emission same =>
    rw [same] at called
    exact called

private theorem Holds.stopOne (held : t.Shows (Holds r v)) (m : Meter σ φ) (reason : EndReason) (time : Int64) (q : Nat) :
    (m.stopOne reason time t q).Shows (Holds r v) := by
  obtain ⟨called, silent⟩ := Holds.call held m time q (.stop reason) (Feature.stop reason)
  exact Holds.propagate called m (fun d input t held => Holds.deliver held m time none _ d input) none q silent

private theorem Holds.finishEventOne (held : t.Shows (Holds r v)) (q : Nat) : (finishEventOne t q).Shows (Holds r v) := by
  rw [Meter.finishEventOne]
  split
  next s found => exact Holds.setInstance held found _
  next => exact held

private theorem Holds.rounds {node : Node σ} (found : m.program.nodes[r]? = some node) (known : node.constant = some v)
    (unbuilt : node.build? = none) : m.Rounds (fun _ => True) (Holds r v) (Holds r v) (Holds r v) where
  make := by simp [Holds, Meter.make, found, known, unbuilt]
  start now t shown := by
    refine Turn.shows_foldl (fun q _ t held => Holds.startOne held m now q) ⟨(shown.elim id id).1, ?_⟩
    simp [found, known]
  control packet q t _ _ held := Holds.deliver held m packet.time (some packet) _ q _
  deliver packet t _ held :=
    shows_deliverPacket (fun q _ t held => Holds.deliver held m packet.time (some packet) _ q _)
      (fun q t held => Holds.finishEventOne held q) held
  finish reason time t held := Turn.shows_foldl (fun q _ t held => Holds.stopOne held m reason time q) held
  rest _ _ held := held

end Constants

/-- What holds of a record and of the journal that it has kept. Each filter has been started at most once, then asked about
packets, and then stopped at most once. -/
structure Live (m : Meter σ φ) (r : Record σ φ) (journal : Journal) : Prop where
  filters : r.filters.length = m.program.filters.length
  dead : r.alive = false → r.active = false ∧ r.filtersAlive = false
  awake : r.active = true → r.filtersAlive = true ∨ m.program.filters = []
  constants : ∀ (q : Nat) node v, m.program.nodes[q]? = some node → node.constant = some v → Holds q v r.instances r.values
  fresh : r.alive = true → r.filtersAlive = false → ∀ i < m.program.filters.length, callsTo i journal.filterCalls = []
  asked : r.filtersAlive = true → ∀ i < m.program.filters.length,
    ∃ answers : List Bool, callsTo i journal.filterCalls = .start :: answers.map .ask
  ended : r.alive = false → ∀ i < m.program.filters.length, callsTo i journal.filterCalls = [] ∨
    ∃ answers : List Bool, callsTo i journal.filterCalls = .start :: answers.map .ask ++ [.stop]

variable [Feature σ] [Filter φ]

private theorem perform_stopped (m : Meter σ φ) {r : Record σ φ} (stopped : r.alive = false) (operation : Operation) :
    m.perform r operation = (r, []) := by
  cases operation <;> simp [perform, event, stop, stopped]

theorem performAll_stopped (m : Meter σ φ) {r : Record σ φ} (stopped : r.alive = false) (operations : List Operation) :
    m.performAll r operations = (r, []) := by
  induction operations with
  | nil => rfl
  | cons operation operations ih => simp [performAll, m.perform_stopped stopped, ih]

theorem stop_dead (m : Meter σ φ) {r : Record σ φ} (dead : r.alive = false → r.active = false ∧ r.filtersAlive = false)
    (reason : EndReason) (now : Int64) : (m.stop r reason now).1.alive = false ∧ (m.stop r reason now).1.active = false ∧
      (m.stop r reason now).1.filtersAlive = false := by
  cases alive : r.alive with
  | false => simp [stop, alive, dead alive]
  | true =>
    have ended : (if r.active then m.finish reason now (.ofRecord r) else .ofRecord r).record.active = false := by
      split
      · rfl
      next idle => exact Bool.eq_false_iff.mpr idle
    simp [stop, alive, ended]

namespace Live

variable {r : Record σ φ} {journal : Journal}

omit [Filter φ] in
private theorem make {m : Meter σ φ} (inert : m.program.Inert) : m.Live m.make [] where
  filters := List.length_map _
  dead := nofun
  awake := nofun
  constants q node v found known := (Holds.rounds found known (inert q node v found known)).make
  fresh _ _ _ _ := rfl
  asked := nofun
  ended := nofun

omit [Feature σ] [Filter φ] in
private theorem rests (live : m.Live r journal) {q : Nat} {node : Node σ} {v : Value} (found : m.program.nodes[q]? = some node)
    (known : node.constant = some v) : Rests (Holds q v) (Holds q v) r :=
  ⟨fun _ => live.constants q node v found known, fun _ => live.constants q node v found known⟩

private theorem event (live : m.Live r journal) (alive : r.alive = true) (packet : Packet) (inert : m.program.Inert) :
    m.Live (m.event r packet).2.1 (journal ++ (m.event r packet).2.2) := by
  obtain ⟨accepted, within, calls, -, count, awake, still⟩ := m.event_filterCalls alive packet
  rw [live.filters] at calls count
  have none : r.filters.isEmpty = true ↔ m.program.filters = [] := by
    rw [List.isEmpty_iff_length_eq_zero, live.filters, List.length_eq_zero_iff]
  refine ⟨count, by simp [still], fun _ => ?_, fun q node v found known => ?_, ?_, ?_, by simp [still]⟩
  · cases empty : r.filters.isEmpty with
    | true => exact .inr (none.mp empty)
    | false => exact .inl (by rw [awake, empty]; rfl)
  · have rounds := Holds.rounds found known (inert q node v found known)
    have rested : Rests (Holds q v) (Holds q v) (m.event r packet).2.1 :=
      (rounds.event (live.rests found known) trivial).1
    exact rested.always
  · intro _ asleep i inside
    have empty := none.mp (by simpa [awake] using asleep)
    simp [empty] at inside
  · intro _ i inside
    obtain ⟨answers, -, asked⟩ := callsTo_questions m.program.filters.length accepted i
    rw [Journal.filterCalls_append, callsTo_append, calls, callsTo_append, asked]
    cases started : r.filtersAlive with
    | true =>
      obtain ⟨before, history⟩ := live.asked started i inside
      exact ⟨before ++ answers, by simp [history]⟩
    | false =>
      have history := live.fresh alive started i inside
      exact ⟨answers, by simp [history, callsTo_callEach, inside]⟩

private theorem stop (live : m.Live r journal) (alive : r.alive = true) (reason : EndReason) (now : Int64) (inert : m.program.Inert) :
    m.Live (m.stop r reason now).1 (journal ++ (m.stop r reason now).2) := by
  obtain ⟨gone, idle, asleep⟩ := m.stop_dead live.dead reason now
  obtain ⟨calls, count⟩ := m.stop_filterCalls alive reason now
  rw [live.filters] at calls count
  refine ⟨count, fun _ => ⟨idle, asleep⟩, by simp [idle], fun q node v found known => ?_, by simp [gone], by simp [asleep],
    fun _ i inside => ?_⟩
  · have rounds := Holds.rounds found known (inert q node v found known)
    exact (rounds.stop (live.rests found known) reason now).1.always
  · rw [Journal.filterCalls_append, callsTo_append, calls]
    cases started : r.filtersAlive with
    | true =>
      obtain ⟨answers, history⟩ := live.asked started i inside
      exact .inr ⟨answers, by simp [history, callsTo_callEach, inside]⟩
    | false => exact .inl (by simp [live.fresh alive started i inside])

private theorem perform (live : m.Live r journal) (operation : Operation) (inert : m.program.Inert) :
    m.Live (m.perform r operation).1 (journal ++ (m.perform r operation).2) := by
  cases alive : r.alive with
  | false =>
    rw [m.perform_stopped alive, List.append_nil]
    exact live
  | true =>
    cases operation with
    | event packet => exact live.event alive packet inert
    | stop reason now => exact live.stop alive reason now inert

private theorem performAll (live : m.Live r journal) (operations : List Operation) (inert : m.program.Inert) :
    m.Live (m.performAll r operations).1 (journal ++ (m.performAll r operations).2) := by
  induction operations generalizing r journal with
  | nil =>
    rw [Meter.performAll, List.append_nil]
    exact live
  | cons operation operations ih =>
    rw [Meter.performAll, ← List.append_assoc]
    exact ih (live.perform operation inert)

end Live

/-- What a record has done and what it will do next. Packets are put to the filters in order, filters are stopped with the
record, and once it has been stopped nothing happens any more. -/
structure Orderly (m : Meter σ φ) (r : Record σ φ) (journal : Journal) : Prop extends m.Live r journal where
  screens : r.alive = true → ∀ packet, ∃ accepted ≤ m.program.filters.length,
    Journal.filterCalls (m.event r packet).2.2 =
      (if r.filtersAlive then [] else callEach .start m.program.filters.length) ++
        questions m.program.filters.length accepted ∧
    ((m.event r packet).1 = .filtered ↔ accepted < m.program.filters.length)
  stops : ∀ reason now, Journal.filterCalls (m.stop r reason now).2 =
    if r.filtersAlive then callEach .stop m.program.filters.length else []
  reclaimable : ∀ reason now, (m.stop r reason now).1.isReclaimable = true
  terminal : ∀ reason now operations,
    m.performAll (m.stop r reason now).1 operations = ((m.stop r reason now).1, [])
  stopped : ∀ reason now packet,
    m.event (m.stop r reason now).1 packet = (.stopped, (m.stop r reason now).1, [])

/-- Whatever is done with a record of a compiled program, and whatever features, filters and exporters do, its flags agree
with what its filters have been called for, its constants stay, and a stop is the end. -/
theorem performAll_orderly {catalog : Catalog σ φ} {limit : Nat} {s : Specification} {m : Meter σ φ}
    (compiled : s.compile catalog limit = .ok m.program) (operations : List Operation) :
    m.Orderly (m.performAll m.make operations).1 (m.performAll m.make operations).2 := by
  have inert := Specification.compile_inert compiled
  have live := (Live.make inert).performAll operations inert
  rw [List.nil_append] at live
  generalize (m.performAll m.make operations).1 = r at live
  have gone := m.stop_dead live.dead
  refine ⟨live, fun alive packet => ?_, fun reason now => ?_, fun reason now => ?_, fun reason now operations => ?_,
    fun reason now packet => ?_⟩
  · obtain ⟨accepted, within, calls, outcome, -⟩ := m.event_filterCalls alive packet
    rw [live.filters] at within calls outcome
    exact ⟨accepted, within, calls, outcome⟩
  · cases alive : r.alive with
    | false => simp [Meter.stop, alive, live.dead alive, Journal.filterCalls]
    | true => rw [(m.stop_filterCalls alive reason now).1, live.filters]
  · simp [Record.isReclaimable, gone reason now]
  · exact m.performAll_stopped (gone reason now).1 operations
  · simp [Meter.event, (gone reason now).1]

theorem performAll_orderly_segmented :
    ∃ m : Meter Library.Instance Library.PacketFilter, segmented.compile Library.catalog 4096 = .ok m.program ∧
      (m.performAll m.make (twoSegments.take 2)).1.active = true ∧
      callsTo 0 (m.performAll m.make (twoSegments.take 2)).2.filterCalls = [.start, .ask true, .ask true] ∧
      m.Orderly (m.performAll m.make (twoSegments.take 2)).1 (m.performAll m.make (twoSegments.take 2)).2 := by
  have facts : (segmented.compile Library.catalog 4096).toOption.any (fun p =>
      let m : Meter Library.Instance Library.PacketFilter := ⟨p, []⟩
      decide ((m.performAll m.make (twoSegments.take 2)).1.active = true ∧
        callsTo 0 (m.performAll m.make (twoSegments.take 2)).2.filterCalls = [.start, .ask true, .ask true])) = true := by
    decide +kernel
  cases compiled : segmented.compile Library.catalog 4096 with
  | error _ =>
    rw [compiled] at facts
    cases facts
  | ok p =>
    rw [compiled] at facts
    obtain ⟨active, calls⟩ := of_decide_eq_true facts
    exact ⟨⟨p, []⟩, rfl, active, calls, performAll_orderly compiled _⟩

end Meter

end FlowMetering
