import FlowMetering.Proofs.Deliveries
import FlowMetering.Proofs.LifeCycleRuns
import FlowMetering.Proofs.RecordRounds

/-! Whole packets in circuits. After a packet every instance of a circuit is that of the tree that the packet has been
pulled through. -/

namespace FlowMetering.Library

variable {φ : Type} {p : Program Instance φ} {m : Meter Instance φ} {lives : Nat → Live} {good : Nat → Prop}

def Live.nexts (packet : Packet) (lives : Nat → Live) (r : Nat) : Live :=
  (lives r).next packet

private theorem Live.at_nexts (packet : Packet) (lives : Nat → Live) (arg : Argument) :
    Live.at (nexts packet lives) arg = (Live.at lives arg).next packet := by
  cases arg <;> rfl

private theorem slotsOn_nexts (packet : Packet) (lives : Nat → Live) (args : List Argument) :
    slotsOn (Live.nexts packet lives) args = slotsOn lives args := by
  refine List.map_congr_left fun arg _ => ?_
  rw [Live.at_nexts, Live.constant?_next]

private theorem slotsOn_eq (lives : Nat → Live) (args : List Argument) :
    slotsOn lives args = Live.slots (args.map (Live.at lives)) := by
  rw [slotsOn, Live.slots, List.map_map]
  rfl

/-- An instance after a packet for which it has got all that its arguments emit. -/
private def nextInstance (packet : Packet) (lives : Nat → Live) (s : Instance) (args : List Argument) : Instance :=
  (Instance.feed packet 0 (args.map (emitted packet lives)) (s, .nothing)).1.finishEvent

private theorem next_wired (packet : Packet) (s : Instance) (args : List Argument) :
    Live.next packet (.call (some s) (args.map (Live.at lives))) =
      .call (some (nextInstance packet lives s args)) (args.map (Live.at (Live.nexts packet lives))) := by
  rw [Live.next_call, List.map_map, List.map_map, nextInstance]
  congr 1
  exact List.map_congr_left fun arg _ => (Live.at_nexts packet lives arg).symm

private theorem Wiring.next {s : Instance} {args : List Argument} (wiring : Wiring p lives s args) (packet : Packet) :
    Wiring p (Live.nexts packet lives) (nextInstance packet lives s args) args := by
  cases wiring with
  | single before role known has other =>
    refine .single before role (fun arg member => ?_) ?_ other
    · rw [Live.at_nexts, Live.constant?_next]
      exact known arg member
    · rw [Live.at_nexts]
      exact has.next packet
  | packetOperator has varies =>
    rename_i op
    have same : nextInstance packet lives
        (.operator op .packetFeature (slotsOn lives args) ((slotsOn lives args).map Option.isSome)) args =
          .operator op .packetFeature (slotsOn lives args) ((slotsOn lives args).map Option.isSome) := by
      obtain ⟨-, rest⟩ := Live.operator_packet op (args.map (Live.at lives)) (List.forall_mem_map.mpr has) (by
        obtain ⟨arg, member, unknown⟩ := varies
        exact ⟨_, List.mem_map_of_mem member, unknown⟩) packet
      rw [← slotsOn_eq, next_wired] at rest
      injection rest with same
      exact Option.some.inj same
    rw [same, ← slotsOn_nexts packet lives args]
    refine .packetOperator (fun arg member => ?_) ?_
    · rw [Live.at_nexts]
      exact (has arg member).next packet
    · obtain ⟨arg, member, unknown⟩ := varies
      exact ⟨arg, member, by rw [Live.at_nexts, Live.constant?_next, unknown]⟩
  | flowOperator has =>
    rename_i op
    have same : nextInstance packet lives
        (.operator op .flowFeature (slotsOn lives args) ((slotsOn lives args).map Option.isSome)) args =
          .operator op .flowFeature (slotsOn lives args) ((slotsOn lives args).map Option.isSome) := by
      have silent : ∀ e ∈ args.map (emitted packet lives), e = .nothing :=
        List.forall_mem_map.mpr fun arg member => (has arg member).emission_flow packet
      rw [nextInstance, Instance.feed_nothing packet 0 silent]
      rfl
    rw [same, ← slotsOn_nexts packet lives args]
    refine .flowOperator fun arg member => ?_
    rw [Live.at_nexts]
    exact (has arg member).next packet
  | predicate has inside within =>
    rename_i known condition source
    have same : nextInstance packet lives (.predicate known none) [condition, source] = .predicate known none := by
      rw [nextInstance]
      have kept (position : Nat) (e : Emission) (current : Option Bool) (answer : Emission) :
          ∃ current' answer', Instance.take packet position e (.predicate known current, answer) =
            (.predicate known current', answer') := by
        cases e with
        | nothing | forward => exact ⟨_, _, rfl⟩
        | value v => cases v <;> exact ⟨_, _, rfl⟩
      obtain ⟨current, answer, first⟩ := kept 0 (emitted packet lives condition) none .nothing
      obtain ⟨current', answer', second⟩ := kept 1 (emitted packet lives source) current answer
      rw [List.map_cons, List.map_singleton, Instance.feed, Instance.feed, Instance.feed, first, second]
      rfl
    rw [same]
    refine .predicate ?_ ?_ within
    · rw [Live.at_nexts]
      exact has.next packet
    · rw [Live.at_nexts]
      exact inside.next packet

private theorem Circuit.next (circuit : Circuit p lives good) (packet : Packet) : Circuit p (Live.nexts packet lives) good where
  ordered := circuit.ordered
  placed r held := by
    cases circuit.placed r held with
    | constant found known args shown idle => exact .constant found known args (by rw [Live.nexts, shown]; rfl) idle
    | call found varies shown wiring closed free plain =>
      exact .call found varies (by rw [Live.nexts, shown, next_wired]) (wiring.next packet) closed free plain

def Rests (p : Program Instance φ) (lives : Nat → Live) (good : Nat → Prop) (instances : List (Option Instance)) : Prop :=
  ∀ r node s, good r → p.nodes[r]? = some node → lives r = .call (some s) (node.args.map (Live.at lives)) →
    instances[r]? = some (some s)

private theorem Rests.wave (circuit : Circuit p lives good) {instances : List (Option Instance)}
    (rests : Rests p lives good instances) (packet : Packet) : Wave p lives good packet [] [] instances where
  held r node s held found shown := by
    rw [Instance.feed_nothing packet 0 (List.forall_mem_map.mpr fun arg _ => arrived_of_not_mem List.not_mem_nil)]
    exact rests r node s held found shown
  order r node held found condition source args selects used := absurd used List.not_mem_nil
  passed r node held found outside d reader _ _ _ := by
    refine iff_of_false List.not_mem_nil ?_
    rintro ⟨complete, heard⟩
    obtain ⟨arg, member, sounds⟩ := circuit.heard_argument held found heard
    exact absurd (complete arg member sounds) List.not_mem_nil

private theorem Wave.complete (circuit : Circuit p lives good) {packet : Packet} {wires : List (Argument × Nat)}
    {instances : List (Option Instance)} (wave : Wave p lives good packet wires [] instances)
    (used : ∀ d reader, good d → p.nodes[d]? = some reader → .raw ∈ reader.args → (.raw, d) ∈ wires) (r : Nat)
    (node : Node Instance) (held : good r) (found : p.nodes[r]? = some node) :
    Complete (emitted packet lives) wires r node.args := by
  induction r using Nat.strongRecOn generalizing node with
  | ind r ih =>
    intro arg member heard
    cases arg with
    | raw => exact used r node held found member
    | register q =>
      have held' := circuit.closed held found member
      obtain ⟨node', found'⟩ := circuit.node held'
      exact (wave.passed q node' held' found' List.not_mem_nil r node held found member).mpr
        ⟨ih q (circuit.ordered r node found _ member) node' held' found', heard⟩

theorem finishEventOne_instances (t : Turn Instance φ) (r q : Nat) :
    (Meter.finishEventOne t r).record.instances[q]? =
      if q = r then (t.record.instances[q]?).map (Option.map Instance.finishEvent) else t.record.instances[q]? := by
  rw [Meter.finishEventOne]
  split
  next s held =>
    by_cases same : q = r
    · subst same
      rw [if_pos rfl, held]
      exact getElem?_setInstance held s.finishEvent
    · rw [if_neg same]
      exact List.getElem?_set_ne (Ne.symm same)
  next idle =>
    by_cases same : q = r
    · subst same
      rw [if_pos rfl, Turn.map_of_idle idle]
    · rw [if_neg same]

private theorem finishEventOne_keeps (still : Nat → Prop) {t : Turn Instance φ} (calm : Calm t.record) (r : Nat) :
    Keeps still t (Meter.finishEventOne t r) := by
  rw [Meter.finishEventOne]
  split
  next s held =>
    refine ⟨rfl, Journal.rows_call, rfl, ?_, List.length_set, fun _ _ => rfl⟩
    intro q s' found
    by_cases same : q = r
    · subst same
      obtain rfl : s.finishEvent = s' :=
        Option.some.inj (Option.some.inj ((getElem?_setInstance held s.finishEvent).symm.trans found))
      rw [Instance.role?_finishEvent]
      exact calm q s held
    · exact calm q s' ((List.getElem?_set_ne (Ne.symm same)).symm.trans found)
  next idle => exact .refl calm

private theorem sweep_keeps (step : Turn Instance φ → Nat → Turn Instance φ) (change : Nat → Instance → Instance)
    (still : Nat → Prop) (invariant : Turn Instance φ → Prop)
    (each : ∀ t r, invariant t → Calm t.record → invariant (step t r) ∧ Keeps still t (step t r) ∧
      ∀ q, (step t r).record.instances[q]? =
        if q = r then (t.record.instances[q]?).map (Option.map (change r)) else t.record.instances[q]?)
    {rs : List Nat} (distinct : rs.Nodup) {t : Turn Instance φ} (begun : invariant t) (calm : Calm t.record) :
    invariant (rs.foldl step t) ∧ Keeps still t (rs.foldl step t) ∧
      ∀ q, (rs.foldl step t).record.instances[q]? =
        if q ∈ rs then (t.record.instances[q]?).map (Option.map (change q)) else t.record.instances[q]? := by
  induction rs generalizing t with
  | nil => exact ⟨begun, .refl calm, fun q => (if_neg List.not_mem_nil).symm⟩
  | cons r rs ih =>
    obtain ⟨absent, distinct⟩ := List.nodup_cons.mp distinct
    obtain ⟨going, first, placed⟩ := each t r begun calm
    obtain ⟨done, rest, others⟩ := ih distinct going first.calm
    refine ⟨done, first.trans rest, fun q => ?_⟩
    rw [List.foldl_cons, others, placed]
    by_cases here : q = r
    · subst here
      rw [if_neg absent, if_pos rfl, if_pos List.mem_cons_self]
    · rw [if_neg here]
      by_cases later : q ∈ rs
      · rw [if_pos later, if_pos (List.mem_cons_of_mem _ later)]
      · rw [if_neg later, if_neg fun member => (List.mem_cons.mp member).elim here later]

private theorem deliverPacket_next (circuit : Circuit m.program lives good) (packet : Packet) {t : Turn Instance φ}
    (rests : Rests m.program lives good t.record.instances) (calm : Calm t.record) :
    Rests m.program (Live.nexts packet lives) good (m.deliverPacket packet t).record.instances ∧
      Keeps (Steady lives good) t (m.deliverPacket packet t) := by
  have raw_event : ∀ d, good d → ∀ node, m.program.nodes[d]? = some node →
      (d ∈ m.program.events ↔ .raw ∈ node.args) := by
    intro d held node found
    rw [Program.mem_events found]
    cases circuit.placed d held with
    | constant found' known args shown =>
      obtain rfl := Option.some.inj (found.symm.trans found')
      simp [Program.isClocked, args]
    | call found' varies shown wiring closed free plain =>
      obtain rfl := Option.some.inj (found.symm.trans found')
      simp [free, plain]
  obtain ⟨wires, wave, -, -, used, keeps⟩ := spread circuit (m.dispatch packet.time (some packet)) .raw
    (.packet packet .flow) [] [] (t := t) (show m.program.events.Pairwise (· < ·) from List.pairwise_lt_range.filter _)
    (fun d member held => by
      obtain ⟨node, found⟩ := circuit.node held
      exact ⟨node, found, (raw_event d held node found).mp member⟩)
    (fun d _ => deliver_inside circuit packet.time _ d (Nat.le_refl _))
    (fun d input t outside calm => deliver_outside circuit packet.time (some packet) outside calm)
    .raw (by rintro _ ⟨⟩) (by rintro _ ⟨⟩) (fun d _ _ => List.not_mem_nil)
    (fun d reader held found reads missing => absurd ((raw_event d held reader found).mpr reads) missing)
    (rests.wave circuit packet) calm
  obtain ⟨-, finished, ended⟩ := sweep_keeps _ (fun _ => Instance.finishEvent) _ (fun _ => True)
    (fun t r _ calm => ⟨trivial, finishEventOne_keeps (Steady lives good) calm r, finishEventOne_instances t r⟩)
    (List.nodup_range (n := m.program.size)) trivial keeps.calm
  refine ⟨?_, keeps.trans finished⟩
  intro r node s' held found shown
  cases circuit.placed r held with
  | constant found' known args shown' =>
    rw [Live.nexts, shown'] at shown
    cases shown
  | call found' varies shown' wiring closed free plain =>
    rename_i node' s
    obtain rfl := Option.some.inj (found.symm.trans found')
    rw [Live.nexts, shown', next_wired] at shown
    injection shown with same
    obtain rfl := Option.some.inj same
    have inside : r ∈ List.range m.program.size := List.mem_range.mpr (List.getElem?_eq_some_iff.mp found).1
    refine (ended r).trans ?_
    rw [if_pos inside, wave.held r node s held found shown', (wave.complete circuit used r node held found).feed_eq]
    rfl

/-- An instance starts alike wherever its arguments have the same values. -/
theorem Instance.start_congr {c c' : Context} (count : c.args.length = c'.args.length)
    (same : ∀ i, c.argument i = c'.argument i) (s : Instance) : s.start c = s.start c' := by
  cases s with
  | operator op kind slots constant =>
    have slots : (List.range c.args.length).map c.argument = (List.range c'.args.length).map c'.argument := by
      rw [count]
      exact List.map_congr_left fun i _ => same i
    rw [start, start, slots]
  | predicate constant current => rw [start, start, same]
  | slice first last index => rw [start, start, same, same]
  | _ => rfl

theorem Instance.startOn_argument (constants : List (Option Value)) (i : Nat) :
    Context.argument ⟨0, (List.range constants.length).map .register, constants, 0, 0⟩ i = (constants[i]?).join := by
  rw [Context.argument]
  dsimp only
  rw [List.getElem?_map]
  by_cases inside : i < constants.length
  · rw [List.getElem?_range inside]
    rfl
  · rw [List.getElem?_eq_none (by rw [List.length_range]; omega), List.getElem?_eq_none (by omega)]
    rfl

def Built (p : Program Instance φ) (lives : Nat → Live) (good : Nat → Prop) : Prop :=
  ∀ r node s, good r → p.nodes[r]? = some node → lives r = .call (some s) (node.args.map (Live.at lives)) →
    ∃ initial, (node.build?.map fun build => build node.kind) = some initial ∧
      s = initial.startOn (slotsOn lives node.args)

private theorem Circuit.constant_eq (circuit : Circuit p lives good) {r : Nat} {node : Node Instance} (held : good r)
    (found : p.nodes[r]? = some node) : constant? (lives r) = node.constant := by
  cases circuit.placed r held with
  | constant found' known args shown =>
    obtain rfl := Option.some.inj (found.symm.trans found')
    rw [shown, known]
    rfl
  | call found' varies shown wiring closed free plain =>
    obtain rfl := Option.some.inj (found.symm.trans found')
    rw [shown, varies]
    rfl

private theorem Circuit.start_eq (circuit : Circuit m.program lives good) {r : Nat} {node : Node Instance} (held : good r)
    (found : m.program.nodes[r]? = some node) {t : Turn Instance φ} (cleared : t.record.values = m.program.nodes.map (·.constant))
    (now : Int64) (s : Instance) : s.start (m.context t now r) = s.startOn (slotsOn lives node.args) := by
  have args : (m.context t now r).args = node.args := by
    rw [Meter.context, Program.args, Program.node?, found]
  refine Instance.start_congr ?_ (fun i => ?_) s
  · rw [args, List.length_map, List.length_range, slotsOn, List.length_map]
  · rw [Instance.startOn_argument, Context.argument, args, slotsOn, List.getElem?_map]
    cases held' : node.args[i]? with
    | none => rfl
    | some arg =>
      cases arg with
      | raw => rfl
      | register q =>
        have good' := circuit.closed held found (List.mem_iff_getElem?.mpr ⟨i, held'⟩)
        obtain ⟨node', found'⟩ := circuit.node good'
        change (t.record.values[q]?).join = constant? (lives q)
        rw [circuit.constant_eq good' found', cleared, List.getElem?_map, found']
        rfl

private theorem startOne_keeps (t : Turn Instance φ) (calm : Calm t.record) (now : Int64) (r : Nat) :
    Keeps (fun _ => True) t (m.startOne now t r) ∧
      ∀ q, (m.startOne now t r).record.instances[q]? =
        if q = r then (t.record.instances[q]?).map (Option.map (Instance.start (m.context t now r)))
        else t.record.instances[q]? := by
  obtain ⟨keeps, others⟩ := m.call_keeps (fun _ => True) now r .start Feature.start calm
    (fun c s _ => rfl) (fun c s => s.role?_start c)
  rw [m.startOne_eq]
  refine ⟨keeps, fun q => ?_⟩
  by_cases here : q = r
  · subst here
    rw [if_pos rfl]
    rcases t.idle_or_held q with idle | ⟨s, held⟩
    · rw [Meter.call_idle idle, Turn.map_of_idle idle]
    · rw [m.call_eq held, held]
      exact getElem?_setInstance held _
  · rw [if_neg here]
    exact others q here

/-- A record in the middle of a segment, with the instances of a circuit as its trees have them. -/
structure Running (m : Meter Instance φ) (lives : Nat → Live) (good : Nat → Prop) (r : Record Instance φ) : Prop where
  rests : Rests m.program lives good r.instances
  fits : m.Fits r
  calm : Calm r
  active : r.active = true
  alive : r.alive = true
  unfiltered : r.filters = []
  values : ∀ q, Steady lives good q → r.values[q]? = some (constant? (lives q))

/-- A start leaves the constants for values and starts every instance on them. -/
theorem start_begins (m : Meter Instance φ) (now : Int64) {t : Turn Instance φ} (calm : Calm t.record) :
    (m.start now t).record.values = m.program.nodes.map (·.constant) ∧ Calm (m.start now t).record ∧
      (m.start now t).journal.rows = t.journal.rows ∧
        ∀ q, (m.start now t).record.instances[q]? =
          if q ∈ List.range m.program.size then
            (t.record.instances[q]?).map (Option.map
              (Instance.start ⟨q, m.program.args q, m.program.nodes.map (·.constant), now, t.record.last⟩))
          else t.record.instances[q]? := by
  obtain ⟨⟨values, -⟩, keeps, instances⟩ := sweep_keeps (m.startOne now)
    (fun r => Instance.start ⟨r, m.program.args r, m.program.nodes.map (·.constant), now, t.record.last⟩) (fun _ => True)
    (fun t' => t'.record.values = m.program.nodes.map (·.constant) ∧ t'.record.last = t.record.last)
    (fun t' r known calm => by
      obtain ⟨keeps, placed⟩ := startOne_keeps t' calm now r
      have last : (m.startOne now t' r).record.last = t'.record.last := (congrArg Record.last keeps.rest :)
      refine ⟨⟨?_, last.trans known.2⟩, keeps, ?_⟩
      · rw [← known.1]
        exact List.ext_getElem? fun q => keeps.values q trivial
      · rw [Meter.context, known.1, known.2] at placed
        exact placed)
    (List.nodup_range (n := m.program.size))
    (t := { t.log (.segment now) with record := { t.record with values := m.program.nodes.map (·.constant) } })
    ⟨rfl, rfl⟩ calm
  refine ⟨values, keeps.calm, keeps.rows.trans ?_, instances⟩
  rw [Turn.log, Journal.rows, List.filterMap_append]
  exact List.append_nil _

private theorem start_running (circuit : Circuit m.program lives good) (built : Built m.program lives good) (now : Int64)
    {t : Turn Instance φ} (fresh : t.record.instances = m.make.instances) (calm : Calm t.record)
    (fits : m.Fits t.record) (alive : t.record.alive = true) (unfiltered : t.record.filters = []) :
    Running m lives good (m.start now t).record ∧ (m.start now t).signals = t.signals ∧
      (m.start now t).journal.rows = t.journal.rows := by
  obtain ⟨values, calm', rows, instances⟩ := start_begins m now calm
  have frame := m.start_frame now t
  refine ⟨⟨?_, (Meter.start_follows m now t fits).fits, calm', rfl, ?_, ?_, ?_⟩, rfl, rows⟩
  · intro r node s held found shown
    obtain ⟨initial, build, rfl⟩ := built r node s held found shown
    refine (instances r).trans ?_
    have inside : r ∈ List.range m.program.size := List.mem_range.mpr (List.getElem?_eq_some_iff.mp found).1
    rw [if_pos inside, fresh, Meter.make, List.getElem?_map, found, Option.map_some, Option.map_some, build, Option.map_some]
    have begun := circuit.start_eq held found (t := { t with record :=
      { t.record with values := m.program.nodes.map (·.constant) } }) rfl now initial
    exact congrArg (some ∘ some) begun
  · exact (congrArg (·.2.2) frame).trans alive
  · exact (congrArg (·.1) frame).trans unfiltered
  · intro q steady
    obtain ⟨node, found⟩ := circuit.node steady.1
    rw [values, List.getElem?_map, found, circuit.constant_eq steady.1 found]
    rfl

/-- A packet that is given to a running record without controls is delivered, and nothing else comes of it. -/
theorem run_eq (circuit : Circuit m.program lives good) (uncontrolled : m.program.controls = []) (packet : Packet)
    {t begun : Turn Instance φ} (same : (if t.record.active then t else m.start packet.time t) = begun)
    (running : Running m lives good begun.record) (silent : begun.signals = []) :
    m.run packet t = (.processed, Meter.setLast packet.time (m.deliverPacket packet begun)) := by
  obtain ⟨-, keeps⟩ := deliverPacket_next circuit packet running.rests running.calm
  have quiet : (m.deliverPacket packet begun).signals = [] := keeps.signals.trans silent
  have settled : m.settle packet.time (m.deliverPacket packet begun) = (.processed, m.deliverPacket packet begun) := by
    simp [Meter.settle, quiet, Signal.stopReason?, Signal.export?, Signal.restarts]
  rw [Meter.run]
  dsimp only
  rw [same, uncontrolled, Meter.runControls, silent, settled]
  rfl

/-- A packet that is given to a running record is pulled through its trees. -/
theorem run_next (circuit : Circuit m.program lives good) (uncontrolled : m.program.controls = []) (packet : Packet)
    {t begun : Turn Instance φ} (same : (if t.record.active then t else m.start packet.time t) = begun)
    (running : Running m lives good begun.record) (silent : begun.signals = []) :
    Running m (Live.nexts packet lives) good (m.run packet t).2.record ∧
      (m.run packet t).2.journal.rows = begun.journal.rows := by
  obtain ⟨rests, keeps⟩ := deliverPacket_next circuit packet running.rests running.calm
  rw [run_eq circuit uncontrolled packet same running silent]
  have rest := keeps.rest
  have fits := (Meter.deliverPacket_follows circuit.ordered packet begun running.fits running.active).1.fits
  refine ⟨⟨rests, fits, keeps.calm, ?_, ?_, ?_, ?_⟩, keeps.rows⟩
  · exact (congrArg Record.active rest : _).trans running.active
  · exact (congrArg Record.alive rest : _).trans running.alive
  · exact (congrArg Record.filters rest : _).trans running.unfiltered
  · intro q steady
    have before : Steady lives good q := ⟨steady.1, Live.hasRole_next.mp steady.2⟩
    rw [Live.nexts, Live.constant?_next]
    exact (keeps.values q before).trans (running.values q before)

private theorem screen_unfiltered [Filter φ] (packet : Packet) {t : Turn Instance φ} (unfiltered : t.record.filters = []) :
    Meter.screen packet t =
      (true, { t with record := { t.record with filters := [], filtersAlive := false } }) := by
  rw [Meter.screen, unfiltered]
  dsimp only
  split <;> simp [Meter.startFilters, Meter.askFilters]

def Live.afters (packets : List Packet) (lives : Nat → Live) (r : Nat) : Live :=
  (lives r).after packets

theorem Circuit.after (circuit : Circuit m.program lives good) (packets : List Packet) :
    Circuit m.program (Live.afters packets lives) good := by
  induction packets generalizing lives with
  | nil => exact circuit
  | cons packet packets ih => exact ih (circuit.next packet)

theorem Journal.rows_append (one other : Journal) : Journal.rows (one ++ other) = one.rows ++ other.rows := by
  rw [Journal.rows, List.filterMap_append]
  rfl

variable [Filter φ]

theorem event_unfiltered {r : Record Instance φ} (packet : Packet) (alive : r.alive = true) (unfiltered : r.filters = []) :
    (m.event r packet).2 =
      ((m.run packet (.ofRecord { r with filters := [], filtersAlive := false })).2.record,
        (m.run packet (.ofRecord { r with filters := [], filtersAlive := false })).2.journal) := by
  have awake : (!r.alive) = false := by rw [alive]; rfl
  rw [Meter.event, awake, screen_unfiltered packet unfiltered]
  rfl

private theorem event_running (circuit : Circuit m.program lives good) (uncontrolled : m.program.controls = []) (packet : Packet)
    {r : Record Instance φ} (running : Running m lives good r) :
    Running m (Live.nexts packet lives) good (m.event r packet).2.1 ∧ (m.event r packet).2.2.rows = [] := by
  rw [event_unfiltered packet running.alive running.unfiltered]
  have active : ({ r with filters := [], filtersAlive := false } : Record Instance φ).active = true := running.active
  exact run_next circuit uncontrolled packet (t := .ofRecord { r with filters := [], filtersAlive := false }) (if_pos active)
    ⟨running.rests, running.fits, running.calm, running.active, running.alive, rfl, running.values⟩ rfl

private theorem event_make (circuit : Circuit m.program lives good) (built : Built m.program lives good)
    (uncontrolled : m.program.controls = []) (unfiltered : m.program.filters = []) (calm : Calm m.make) (packet : Packet) :
    Running m (Live.nexts packet lives) good (m.event m.make packet).2.1 ∧ (m.event m.make packet).2.2.rows = [] := by
  rw [event_unfiltered packet rfl (show m.make.filters = [] by rw [Meter.make, unfiltered]; rfl)]
  obtain ⟨running, silent, rows⟩ := start_running circuit built packet.time
    (t := .ofRecord { m.make with filters := [], filtersAlive := false }) rfl calm m.make_fits rfl rfl
  obtain ⟨next, same⟩ := run_next circuit uncontrolled packet
    (t := .ofRecord { m.make with filters := [], filtersAlive := false }) (if_neg Bool.false_ne_true) running silent
  exact ⟨next, same.trans rows⟩

private theorem events_running (circuit : Circuit m.program lives good) (uncontrolled : m.program.controls = [])
    (packets : List Packet) {r : Record Instance φ} (running : Running m lives good r) (operations : List Operation) :
    ∃ r', Running m (Live.afters packets lives) good r' ∧
      (m.performAll r (packets.map .event ++ operations)).2.rows = (m.performAll r' operations).2.rows := by
  induction packets generalizing lives r with
  | nil => exact ⟨r, running, rfl⟩
  | cons packet packets ih =>
    obtain ⟨next, quiet⟩ := event_running circuit uncontrolled packet running
    obtain ⟨r', running', same⟩ := ih (circuit.next packet) next
    refine ⟨r', running', ?_⟩
    rw [← same, List.map_cons, List.cons_append, Meter.performAll]
    change Journal.rows ((m.event r packet).2.2 ++ _) = _
    rw [Journal.rows_append, quiet]
    rfl

/-- A fresh record is running after the first of some packets. -/
theorem events_make (circuit : Circuit m.program lives good) (built : Built m.program lives good)
    (uncontrolled : m.program.controls = []) (unfiltered : m.program.filters = []) (calm : Calm m.make)
    (packet : Packet) (packets : List Packet) (operations : List Operation) :
    ∃ r', Running m (Live.afters (packet :: packets) lives) good r' ∧
      (m.performAll m.make ((packet :: packets).map .event ++ operations)).2.rows =
        (m.performAll r' operations).2.rows := by
  obtain ⟨next, quiet⟩ := event_make circuit built uncontrolled unfiltered calm packet
  obtain ⟨r', running, same⟩ := events_running (circuit.next packet) uncontrolled packets next operations
  refine ⟨r', running, ?_⟩
  rw [← same, List.map_cons, List.cons_append, Meter.performAll]
  change Journal.rows ((m.event m.make packet).2.2 ++ _) = _
  rw [Journal.rows_append, quiet]
  rfl

end FlowMetering.Library
