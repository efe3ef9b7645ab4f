import FlowMetering.Proofs.OperatorSlots
import FlowMetering.Proofs.VetoedPackets

/-! Records that are poised for a packet. In an open segment the operators on packets hold constants and nothing else,
whatever packets and segments have come before. -/

namespace FlowMetering.Library

variable {φ : Type} {p : Program Instance φ} {m : Meter Instance φ}

namespace Instance

def operation? : Instance → Option Operator
  | .operator op _ _ _ => some op
  | _ => none

theorem operation?_called (c : Context) (phase : Phase) (s : Instance) :
    (s.called c phase).operation? = s.operation? := by
  cases phase with
  | start => cases s <;> rfl
  | event input =>
    cases input with
    | packet p source => cases s <;> rfl
    | value v q =>
      cases s with
      | mean sum count =>
        rw [called, event, value]
        cases v.asFloat <;> rfl
      | _ => rfl
  | finishEvent => cases s <;> rfl
  | stop reason => cases s <;> rfl

theorem operation?_after (c : Context) (s : Instance) (inputs : List Input) :
    (s.after c inputs).operation? = s.operation? := by
  induction inputs generalizing s with
  | nil => rfl
  | cons input inputs ih => exact (ih _).trans (s.operation?_called c (.event input))

theorem role?_after (c : Context) (s : Instance) (inputs : List Input) : (s.after c inputs).role? = s.role? := by
  induction inputs generalizing s with
  | nil => rfl
  | cons input inputs ih => exact (ih _).trans (s.role?_event input c)

theorem operator_of_operation? {s : Instance} {op : Operator} (found : s.operation? = some op) :
    ∃ kind slots constant, s = .operator op kind slots constant := by
  cases s with
  | operator op kind slots constant =>
    cases found
    exact ⟨kind, slots, constant, rfl⟩
  | _ => cases found

/-- The closing of a packet and what has come before it leave an operator on packets what it is. -/
theorem operator_of_finishEvent {s : Instance} {c : Context} {inputs : List Input} {op : Operator}
    {slots : List (Option Value)} {constant : List Bool}
    (closed : (s.after c inputs).finishEvent = .operator op .packetFeature slots constant) :
    ∃ slots' constant', s = .operator op .packetFeature slots' constant' := by
  have operation : s.operation? = some op := by
    rw [← operation?_after c s inputs, ← operation?_called c .finishEvent, called, closed]
    rfl
  have role : s.role? = some .packet := by
    rw [← role?_after c s inputs, ← role?_finishEvent, closed]
    rfl
  obtain ⟨kind, slots', constant', rfl⟩ := operator_of_operation? operation
  rw [role?_operator] at role
  split at role
  next same => exact ⟨slots', constant', by rw [same]⟩
  next => cases role

theorem no_stop (s : Instance) (input : Input) (c : Context) (reason : EndReason) :
    .stop reason ∉ (s.event input c).2.signals := by
  by_cases working : s.role? = none
  · cases s with
    | tcpEnd finForward finBackward =>
      cases input with
      | value v q => exact List.not_mem_nil
      | packet p source =>
        rw [event, packet]
        dsimp only
        split <;> simp [Reaction.silent]
    | _ => cases working
  · rw [s.signals_event working input c]
    exact List.not_mem_nil

end Instance

/-- An instance is of the sort that its register asks for. -/
def Sorted (p : Program Instance φ) (r : Nat) (s : Instance) : Prop :=
  ∃ node build, p.nodes[r]? = some node ∧ node.build? = some build ∧ s.role? = (build node.kind).role? ∧
    s.operation? = (build node.kind).operation?

theorem Sorted.called {r : Nat} {s : Instance} (sorted : Sorted p r s) (c : Context) (phase : Phase) :
    Sorted p r (s.called c phase) := by
  obtain ⟨node, build, found, built, role, operation⟩ := sorted
  exact ⟨node, build, found, built, (s.role?_called c phase).trans role, (s.operation?_called c phase).trans operation⟩

private theorem sorted_safe (m : Meter Instance φ) : m.Safe (fun _ => True) (Sorted m.program) (fun _ _ => True) where
  make _ node build found built := ⟨node, build, found, built, rfl, rfl⟩
  constant _ _ _ _ _ := trivial
  start c _ _ sorted := ⟨sorted.called c .start, fun _ _ => trivial⟩
  packet p source c _ _ _ sorted := ⟨sorted.called c (.event (.packet p source)), fun _ _ => trivial⟩
  value v q c _ _ _ _ sorted := ⟨sorted.called c (.event (.value v q)), fun _ _ => trivial⟩
  finishEvent r _ sorted := sorted.called (footing m.program r) .finishEvent
  stop reason c _ _ sorted := ⟨sorted.called c (.stop reason), fun _ _ => trivial⟩

abbrev Idle (p : Program Instance φ) : Picture Instance :=
  Meter.Sound (Sorted p) fun _ _ => True

/-- The operators on packets hold the constants among their arguments. -/
def Poised (p : Program Instance φ) (instances : List (Option Instance)) : Prop :=
  ∀ r op slots constant, instances[r]? = some (some (.operator op .packetFeature slots constant)) →
    slots = (p.args r).map p.known ∧ constant = slots.map Option.isSome

def Ready (p : Program Instance φ) : Picture Instance := fun instances values =>
  Idle p instances values ∧ Poised p instances

private theorem dispatch_control (packet : Packet) {k : Nat} {t : Turn Instance φ}
    (silent : ∀ s, t.record.instances[k]? = some (some s) → s.role? = none) (now : Int64) {q : Nat} (other : k ≠ q) :
    (m.dispatch now (some packet) k (.packet packet .flow) t).record.instances[q]? = t.record.instances[q]? := by
  rw [Meter.dispatch]
  cases m.program.size - k with
  | zero => rfl
  | succ fuel =>
    rw [Meter.deliver]
    rcases t.idle_or_held k with idle | ⟨s, held⟩
    · rw [Meter.call_idle idle]
      rfl
    · have quiet := s.allowed_packet packet
      rw [silent s held] at quiet
      have nothing : (Feature.event (.packet packet .flow) (m.context t now k) s).2.emission = .nothing := quiet
      rw [Meter.call_eq held, nothing]
      exact List.getElem?_set_ne other

theorem closed_instances (t : Turn Instance φ) (count q : Nat) :
    ((List.range count).foldl Meter.finishEventOne t).record.instances[q]? =
      if q < count then (t.record.instances[q]?).map (Option.map Instance.finishEvent) else t.record.instances[q]? := by
  induction count with
  | zero => rfl
  | succ count ih =>
    rw [List.range_succ, List.foldl_append, List.foldl_cons, List.foldl_nil, finishEventOne_instances, ih]
    by_cases here : q = count
    · simp [here]
    · by_cases below : q < count
      · rw [if_neg here, if_pos below, if_pos (by omega)]
      · rw [if_neg here, if_neg below, if_neg (by omega)]

/-- At the start an argument has a value if it is a constant. -/
theorem argument_of_constants {c : Context} {r : Nat} (args : c.args = p.args r) (values : c.values = p.nodes.map (·.constant))
    (i : Nat) : c.argument i = ((p.args r)[i]?).bind p.known := by
  rw [Context.argument, args, values]
  cases (p.args r)[i]? with
  | none => rfl
  | some arg => cases arg <;> rfl

private theorem slots_of_start {c : Context} {r : Nat} (args : c.args = p.args r) (values : c.values = p.nodes.map (·.constant)) :
    (List.range c.args.length).map c.argument = (p.args r).map p.known := by
  apply List.ext_getElem?
  intro i
  rw [List.getElem?_map, List.getElem?_map, ← args]
  cases found : c.args[i]? with
  | none => rw [List.getElem?_eq_none (by simpa using found)]; rfl
  | some arg =>
    rw [List.getElem?_range (List.getElem?_eq_some_iff.mp found).1, Option.map_some, Option.map_some,
      argument_of_constants args values, ← args, found, Option.bind_some]

private theorem start_poised (m : Meter Instance φ) (now : Int64) (t : Turn Instance φ)
    (sorted : (m.start now t).Shows (Idle m.program)) : Poised m.program (m.start now t).record.instances := by
  obtain ⟨-, started⟩ := start_sweep (m := m) now
    { t.log (.segment now) with record := { t.record with values := m.program.nodes.map (·.constant) } } m.program.size
  intro r op slots constant found
  obtain ⟨node, build, inside, -⟩ := sorted.1 r _ found
  obtain ⟨c, s, args, values, same⟩ := started r (List.getElem?_eq_some_iff.mp inside).1 _ found
  cases s with
  | operator op' kind slots' constant' =>
    obtain ⟨rfl, rfl, rfl, rfl⟩ := Instance.operator.inj same
    exact ⟨slots_of_start args values, rfl⟩
  | _ => cases same

/-- Where constants are known, no dependent is told anything else. -/
theorem known_of_dependent {q r : Nat} (reads : r ∈ p.dependents q) : p.known (.register q) = none := by
  obtain ⟨varies, -, -⟩ := Program.mem_dependents.mp reads
  rw [Program.known, List.getElem?_map]
  rw [Program.isConstant, Program.node?] at varies
  cases found : p.nodes[q]? with
  | none => rfl
  | some node =>
    rw [found] at varies
    exact Option.not_isSome_iff_eq_none.mp (Bool.not_eq_true _ ▸ varies)

private theorem deliverPacket_poised (ordered : m.program.Ordered) (packet : Packet) {t : Turn Instance φ}
    (ready : t.Shows (Ready m.program)) : Poised m.program (m.deliverPacket packet t).record.instances := by
  intro r op slots constant found
  have follows := deliveryCalls_follows m packet t
  rw [Meter.deliverPacket, closed_instances] at found
  rcases t.idle_or_held r with idle | ⟨s, held⟩
  · rw [(follows.idle r idle).1] at found
    split at found
    · obtain ⟨held, same, closed⟩ := Option.map_eq_some_iff.mp found
      obtain ⟨s, rfl, -⟩ := Option.map_eq_some_iff.mp closed
      exact absurd same (idle s)
    · exact absurd found (idle _)
  · obtain ⟨node, build, inside, -⟩ := ready.1.1 r s held
    have below : r < m.program.size := (List.getElem?_eq_some_iff.mp inside).1
    rw [(follows.held r s held).1, if_pos below, Option.map_some, Option.map_some] at found
    have closed := Option.some.inj (Option.some.inj found)
    obtain ⟨slots', constant', rfl⟩ := Instance.operator_of_finishEvent closed
    obtain ⟨rfl, rfl⟩ := ready.2 r op slots' constant' held
    have filled := Instance.after_operator (footing m.program r) op .packetFeature m.program.known
      (((m.program.args r).map m.program.known).map Option.isSome) (Call.inputs (m.deliveryCalls packet t) r)
    replace closed := (congrArg Instance.finishEvent filled).symm.trans closed
    have cleared : clear ((m.program.args r).map (Input.noted m.program.known (Call.inputs (m.deliveryCalls packet t) r)))
        (((m.program.args r).map m.program.known).map Option.isSome) = (m.program.args r).map m.program.known := by
      refine clear_noted fun arg _ fixed => Input.noted_other fun v q member => ?_
      rintro rfl
      exact fixed (known_of_dependent ((Meter.value_mem_deliveryInputs ordered packet).mp member).1)
    obtain ⟨-, -, rfl, rfl⟩ := Instance.operator.inj closed
    rw [if_pos rfl]
    exact ⟨cleared, (congrArg (List.map Option.isSome) cleared).symm⟩

/-- Whatever has been done with a record, in an open segment it is poised for the next packet. -/
theorem ready_rounds (ordered : m.program.Ordered)
    (quiet : ∀ k ∈ m.program.controls, ∀ s, Sorted m.program k s → s.role? = none) :
    m.Rounds (fun _ => True) (Idle m.program) (Ready m.program) (Idle m.program) := by
  have rounds := (sorted_safe m).rounds
  refine ⟨rounds.make, fun now t shown => ?_, fun packet k t fine member ready => ?_, fun packet t fine ready => ?_,
    fun reason time t ready => rounds.finish reason time t ready.1, fun _ _ => id⟩
  · have sorted := rounds.start now t (.inl (shown.elim id And.left))
    exact ⟨sorted, start_poised m now t sorted⟩
  · refine ⟨rounds.control packet k t fine member ready.1, fun r op slots constant found => ?_⟩
    have sorted := rounds.control packet k t fine member ready.1
    have other : k ≠ r := by
      rintro rfl
      cases quiet k member _ (sorted.1 k _ found)
    refine ready.2 r op slots constant ((dispatch_control packet (fun s held => ?_) packet.time other).symm.trans found)
    exact quiet k member s (ready.1.1 k s held)
  · exact ⟨rounds.deliver packet t fine ready.1, deliverPacket_poised ordered packet ready⟩

private theorem deliver_goes_on (m : Meter Instance φ) (packet : Packet) (fuel r : Nat) (input : Input) (t : Turn Instance φ)
    {reason : EndReason} (going : .stop reason ∉ t.signals) :
    .stop reason ∉ (m.deliver packet.time (some packet) fuel r input t).signals := by
  induction fuel generalizing r input t with
  | zero => exact going
  | succ fuel ih =>
    have called : .stop reason ∉ (m.call packet.time r (.event input) (Feature.event input) t).1.signals := by
      rcases t.idle_or_held r with idle | ⟨s, held⟩
      · rwa [Meter.call_idle idle]
      · rw [Meter.call_eq held]
        exact List.not_mem_append going (s.no_stop input _ reason)
    rw [Meter.deliver]
    generalize m.call packet.time r (.event input) (Feature.event input) t = answer at called
    obtain ⟨t', e⟩ := answer
    have stored : .stop reason ∉ (t'.store r e).signals := by cases e <;> exact called
    dsimp only
    rw [Meter.propagate_eq]
    exact List.foldlRecOn (m.sent packet r e) _ (motive := fun t : Turn Instance φ => .stop reason ∉ t.signals) stored
      fun t going w _ => ih w.1 w.2 t going

private theorem runControls_goes_on (m : Meter Instance φ) (packet : Packet) (controls : List Nat) (t : Turn Instance φ)
    {reason : EndReason} (going : .stop reason ∉ t.signals) :
    .stop reason ∉ (m.runControls packet controls t).signals := by
  induction controls generalizing t with
  | nil => exact going
  | cons control controls ih =>
    have next := deliver_goes_on m packet (m.program.size - control) control (.packet packet .flow) t going
    rw [Meter.runControls]
    split
    · exact next
    · exact ih _ next

private theorem Recorded.fits {allowed : Packet → Prop} {past : Journal} {t : Turn Instance φ}
    (recorded : Recorded m allowed past t) : m.Fits t.record := by
  refine (List.ext_getElem? fun r => ?_).trans m.make_fits
  rw [List.getElem?_map, List.getElem?_map, recorded.instances, recalled, Option.map_map]
  refine congrArg (fun kept => m.make.instances[r]?.map kept) (funext fun found => ?_)
  cases found <;> rfl

/-- A packet that the filters accept is delivered to a record that is poised for it. -/
theorem exists_delivery [Filter φ] (ordered : m.program.Ordered)
    (quiet : ∀ k ∈ m.program.controls, ∀ s, Sorted m.program k s → s.role? = none) (operations : List Operation)
    {r : Record Instance φ} (reached : (m.performAll m.make operations).1 = r) (alive : r.alive = true) {packet : Packet}
    (accepted : (Meter.screen packet (.ofRecord r)).1 = true) :
    ∃ t, m.delivery? r packet = some t ∧ t.Shows (Ready m.program) ∧ m.Fits t.record := by
  subst reached
  have rounds := ready_rounds ordered quiet
  have every : ∀ packet, .event packet ∈ operations → True := fun _ _ => trivial
  obtain ⟨rests, -⟩ := rounds.performAll every (r := m.make) ⟨nofun, fun _ => rounds.make⟩
  have stays : m.Stays (Idle m.program) (Ready m.program) (Idle m.program) (.ofRecord (m.performAll m.make operations).1) :=
    ⟨rests, Meter.hands_of_rows rfl⟩
  have screened : m.Stays (Idle m.program) (Ready m.program) (Idle m.program)
      (Meter.screen packet (.ofRecord (m.performAll m.make operations).1)).2 := Meter.screen_stays stays
  have recorded := ((Recorded.make m).performAll every).begin.screen packet
  have unsignalled : (Meter.screen packet (.ofRecord (m.performAll m.make operations).1)).2.signals = [] := rfl
  rw [Meter.delivery?]
  generalize Meter.screen packet (.ofRecord (m.performAll m.make operations).1) = answer at accepted screened recorded unsignalled
  obtain ⟨passed, t⟩ := answer
  subst accepted
  -- the controls find a segment open, and they let the packet pass
  obtain ⟨begun, same, stays, active, silent, recorded⟩ : ∃ begun,
      (if t.record.active then t else m.start packet.time t) = begun ∧
      m.Stays (Idle m.program) (Ready m.program) (Idle m.program) begun ∧ begun.record.active = true ∧ begun.signals = [] ∧
      ∃ past, Recorded m (fun _ => True) past begun := by
    by_cases active : t.record.active = true
    · exact ⟨t, if_pos active, screened, active, unsignalled, _, recorded⟩
    · exact ⟨_, if_neg active, rounds.begins screened packet.time, rfl, unsignalled, _, recorded.start packet.time⟩
  obtain ⟨past, recorded⟩ := recorded
  have run : m.Stays (Idle m.program) (Ready m.program) (Idle m.program) (m.runControls packet m.program.controls begun) ∧
      (m.runControls packet m.program.controls begun).record.active = true :=
    rounds.controls trivial m.program.controls (fun _ => id) stays active
  obtain ⟨controlled, still⟩ := run
  have ran : m.controlled packet t = m.runControls packet m.program.controls begun := by rw [Meter.controlled, same]
  have going : Signal.stopReason? (m.controlled packet t).signals = none := by
    refine List.findSome?_eq_none_iff.mpr fun signal member => ?_
    rw [ran] at member
    cases signal with
    | stop reason =>
      exact absurd member (runControls_goes_on m packet m.program.controls begun (by rw [silent]; exact List.not_mem_nil))
    | «export» reason time | restart => rfl
  refine ⟨m.controlled packet t, ?_, ran ▸ controlled.rests.live still, ran ▸ (recorded.runControls trivial _).fits⟩
  dsimp only
  rw [alive, going]
  rfl

end FlowMetering.Library
