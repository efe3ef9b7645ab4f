import FlowMetering.Proofs.GatedPrograms
import FlowMetering.Proofs.UncontrolledRuns

/-! Runs behind a gate. A record of a program behind a gate does on all packets what a record of the program itself does on
the packets that the gate lets through. -/

namespace FlowMetering

/-- An input that brings the same from where it comes from behind a gate. -/
inductive Input.Mirrored (gate : Option Nat) : Input → Input → Prop
  | packet (packet : Packet) (source source' : Source) : Mirrored gate (.packet packet source) (.packet packet source')
  | value (v : Value) (r : Nat) : Mirrored gate (.value v r) (.value v (shift gate r))

namespace Library

variable {φ : Type} {gate : Option Nat} {forward : Bool} {m m' : Meter Instance φ} {t t' : Turn Instance φ}

private theorem positions_behind {c c' : Context} (args : c'.args = c.args.map (Argument.behind gate)) (q : Nat) :
    c'.positions (.register (shift gate q)) = c.positions (.register q) := by
  rw [positions_register, positions_register, args, List.length_map]
  refine List.filter_congr fun i _ => decide_eq_decide.mpr ?_
  rw [List.getElem?_map, show Argument.register (shift gate q) = Argument.behind gate (.register q) from rfl]
  exact Option.map_injective (fun _ _ => Argument.behind_inj.mp) |>.eq_iff' rfl

private theorem event_mirrored (c c' : Context) (args : c'.args = c.args.map (Argument.behind gate)) {input input' : Input}
    (mirrored : Input.Mirrored gate input input') (s : Instance) : s.event input' c' = s.event input c := by
  cases mirrored with
  | packet packet source source' => rfl
  | value v r => rw [Instance.event, Instance.event, positions_behind args]

theorem Instance.finishEvent_finishEvent (s : Instance) : s.finishEvent.finishEvent = s.finishEvent := by
  have cleared (slots : List (Option Value)) (constant : List Bool) :
      clear (clear slots constant) constant = clear slots constant := by
    refine List.ext_getElem? fun i => ?_
    rw [clear, clear, List.getElem?_zipWith, List.getElem?_zipWith]
    cases slots[i]? with
    | none => rfl
    | some slot =>
      cases constant[i]? with
      | none => rfl
      | some constant => cases constant <;> rfl
  cases s with
  | operator op kind slots constant =>
    rw [finishEvent, finishEvent]
    split
    · rw [cleared]
    · rfl
  | _ => rfl

theorem Instance.finishEvent_start (c : Context) (s : Instance) : (s.start c).finishEvent = s.start c := by
  have kept (slots : List (Option Value)) : clear slots (slots.map Option.isSome) = slots := by
    refine List.ext_getElem? fun i => ?_
    rw [clear, List.getElem?_zipWith, List.getElem?_map]
    cases slots[i]? with
    | none => rfl
    | some slot => cases slot <;> rfl
  cases s with
  | operator op kind slots constant =>
    rw [start, finishEvent, kept, ite_self]
  | _ => rfl

/-- The instances of a record have nothing of a packet left to forget. -/
def Rested (r : Record Instance φ) : Prop :=
  ∀ (q : Nat) s, r.instances[q]? = some (some s) → s.finishEvent = s

private theorem rested_start (m : Meter Instance φ) (now : Int64) (fits : m.Fits t.record) (calm : Calm t.record) :
    Rested (m.start now t).record := by
  intro q s held
  have inside := List.mem_range.mpr ((Meter.start_follows m now t fits).fits.inside held)
  obtain ⟨-, -, -, instances⟩ := start_begins m now calm
  rw [instances, if_pos inside] at held
  obtain ⟨old, -, same⟩ := Option.map_eq_some_iff.mp held
  obtain ⟨s', -, rfl⟩ := Option.map_eq_some_iff.mp same
  exact s'.finishEvent_start _

private theorem rested_finishEvents (rs : List Nat) {q : Nat}
    (settled : q ∉ rs → ∀ s, t.record.instances[q]? = some (some s) → s.finishEvent = s) (s : Instance)
    (held : (rs.foldl Meter.finishEventOne t).record.instances[q]? = some (some s)) : s.finishEvent = s := by
  induction rs generalizing t with
  | nil => exact settled List.not_mem_nil s held
  | cons r rs ih =>
    refine ih (fun absent s held => ?_) held
    rw [finishEventOne_instances] at held
    by_cases here : q = r
    · rw [if_pos here] at held
      obtain ⟨old, -, same⟩ := Option.map_eq_some_iff.mp held
      obtain ⟨s', -, rfl⟩ := Option.map_eq_some_iff.mp same
      exact s'.finishEvent_finishEvent
    · rw [if_neg here] at held
      exact settled (fun member => (List.mem_cons.mp member).elim here absent) s held

private theorem rested_deliverPacket (ordered : m.program.Ordered) (packet : Packet) (fits : m.Fits t.record)
    (active : t.record.active = true) : Rested (m.deliverPacket packet t).record := by
  intro q s held
  have inside := List.mem_range.mpr ((Meter.deliverPacket_follows ordered packet t fits active).1.fits.inside held)
  exact rested_finishEvents _ (fun absent => absurd inside absent) s held

private theorem setInstance_self {r : Nat} {s : Instance} (held : t.record.instances[r]? = some (some s)) :
    (t.setInstance r s).record = t.record := by
  obtain ⟨inside, same⟩ := List.getElem?_eq_some_iff.mp held
  have kept : t.record.instances.set r (some s) = t.record.instances := by
    rw [← same, List.set_getElem_self]
  change { t.record with instances := t.record.instances.set r (some s) } = t.record
  rw [kept]

private theorem finishEventOne_rested {r : Nat}
    (rests : ∀ s, t.record.instances[r]? = some (some s) → s.finishEvent = s) :
    (Meter.finishEventOne t r).record = t.record := by
  rw [Meter.finishEventOne]
  split
  next s held =>
    change (t.setInstance r s.finishEvent).record = t.record
    rw [rests s held]
    exact setInstance_self held
  next => rfl

private theorem finishEventOne_values (t : Turn Instance φ) (r : Nat) : (Meter.finishEventOne t r).record.values = t.record.values := by
  rw [Meter.finishEventOne]
  split <;> rfl

/-- A record behind a gate has the instances and values of another record, and the gate has its own. -/
structure Mirrors (gate : Option Nat) (forward : Bool) (t t' : Turn Instance φ) : Prop where
  instances : Spread gate (some (.direction forward)) t.record.instances t'.record.instances
  values : Spread gate none t.record.values t'.record.values

namespace Mirrors

private theorem congr {t₁ t₁' : Turn Instance φ} (mirrors : Mirrors gate forward t t') (same : t₁.record = t.record)
    (same' : t₁'.record = t'.record) : Mirrors gate forward t₁ t₁' :=
  ⟨same ▸ same' ▸ mirrors.instances, same ▸ same' ▸ mirrors.values⟩

private theorem setValue (mirrors : Mirrors gate forward t t') (r : Nat) (v : Option Value) :
    Mirrors gate forward (t.setValue r v) (t'.setValue (shift gate r) v) :=
  ⟨mirrors.instances, mirrors.values.set r v⟩

private theorem call (mirrors : Mirrors gate forward t t') (m m' : Meter Instance φ) (now now' : Int64) (r : Nat) (phase phase' : Phase)
    (answer answer' : Context → Instance → Instance × Reaction)
    (agree : ∀ s, answer' (m'.context t' now' (shift gate r)) s = answer (m.context t now r) s) :
    Mirrors gate forward (m.call now r phase answer t).1 (m'.call now' (shift gate r) phase' answer' t').1 ∧
      (m'.call now' (shift gate r) phase' answer' t').2 = (m.call now r phase answer t).2 := by
  have same := mirrors.instances.moved r
  rcases t.idle_or_held r with idle | ⟨s, held⟩
  · rw [Meter.call_idle idle, Meter.call_idle (same ▸ idle)]
    exact ⟨mirrors, rfl⟩
  · rw [Meter.call_eq held, Meter.call_eq (same.trans held), agree]
    exact ⟨⟨mirrors.instances.set r _, mirrors.values⟩, rfl⟩

private theorem call_gate (mirrors : Mirrors gate forward t t') (m' : Meter Instance φ) {g : Nat} (here : gate = some g) (now : Int64)
    (phase : Phase) (answer : Context → Instance → Instance × Reaction) (reaction : Reaction)
    (rests : ∀ c, answer c (.direction forward) = (.direction forward, reaction)) :
    (m'.call now g phase answer t').1.record = t'.record ∧ (m'.call now g phase answer t').2 = reaction.emission := by
  have held := mirrors.instances.gated g here
  rw [Meter.call_eq held, rests]
  exact ⟨setInstance_self held, rfl⟩

private theorem foldl {step step' : Turn Instance φ → Nat → Turn Instance φ} {rs : List Nat}
    (each : ∀ r ∈ rs, ∀ t t', Mirrors gate forward t t' → Mirrors gate forward (step t r) (step' t' (shift gate r)))
    (mirrors : Mirrors gate forward t t') :
    Mirrors gate forward (rs.foldl step t) ((rs.map (shift gate)).foldl step' t') := by
  induction rs generalizing t t' with
  | nil => exact mirrors
  | cons r rs ih =>
    rw [List.forall_mem_cons] at each
    exact ih each.2 (each.1 t t' mirrors)

private theorem sweep {step step' : Turn Instance φ → Nat → Turn Instance φ}
    (own : ∀ g, gate = some g → ∀ t t', Mirrors gate forward t t' → Mirrors gate forward t (step' t' g))
    {rs rs' : List Nat} (each : ∀ r ∈ rs, ∀ t t', Mirrors gate forward t t' → Mirrors gate forward (step t r) (step' t' (shift gate r)))
    (same : rs'.filter (fun r => decide (gate ≠ some r)) = rs.map (shift gate))
    (mirrors : Mirrors gate forward t t') : Mirrors gate forward (rs.foldl step t) (rs'.foldl step' t') := by
  induction rs' generalizing rs t t' with
  | nil =>
    rw [List.map_eq_nil_iff.mp same.symm]
    exact mirrors
  | cons q rs' ih =>
    by_cases here : gate = some q
    · have skipped : decide (gate ≠ some q) = false := decide_eq_false (not_not.mpr here)
      rw [List.filter_cons, skipped, if_neg Bool.false_ne_true] at same
      exact ih each same (own q here t t' mirrors)
    · have taken : decide (gate ≠ some q) = true := decide_eq_true here
      rw [List.filter_cons, taken, if_pos rfl] at same
      obtain ⟨r, rest, rfl, rfl, others⟩ := List.map_eq_cons_iff.mp same.symm
      rw [List.forall_mem_cons] at each
      rw [List.foldl_cons, List.foldl_cons]
      exact ih each.2 others.symm (each.1 t t' mirrors)

section Programs

variable (behind : Behind gate forward m.program m'.program)
include behind

private theorem propagate (mirrors : Mirrors gate forward t t') {next next' : Nat → Input → Turn Instance φ → Turn Instance φ} {r : Nat}
    (each : ∀ d ∈ m.program.dependents r, ∀ input input', Input.Mirrored gate input input' → ∀ t t',
      Mirrors gate forward t t' → Mirrors gate forward (next d input t) (next' (shift gate d) input' t'))
    (packet : Option Packet) (e : Emission) :
    Mirrors gate forward (m.propagate next packet r t e) (m'.propagate next' packet (shift gate r) t' e) := by
  cases e with
  | nothing => exact mirrors
  | value v =>
    cases v with
    | none => exact mirrors.setValue r none
    | some v =>
      rw [Meter.propagate, Meter.propagate, behind.dependents]
      exact foldl (fun d member t t' mirrors => each d member _ _ (.value v r) t t' mirrors) (mirrors.setValue r (some v))
  | forward =>
    cases packet with
    | none => exact mirrors
    | some packet =>
      rw [Meter.propagate, Meter.propagate, behind.dependents]
      exact foldl (fun d member t t' mirrors => each d member _ _ (.packet packet _ _) t t' mirrors) mirrors

private theorem deliver (ordered : m.program.Ordered) (now now' : Int64) (packet : Option Packet) (fuel fuel' r : Nat)
    (enough : m.program.size - r ≤ fuel) (enough' : m'.program.size - shift gate r ≤ fuel') (inside : r < m.program.size)
    {input input' : Input} (mirrored : Input.Mirrored gate input input') (mirrors : Mirrors gate forward t t') :
    Mirrors gate forward (m.deliver now packet fuel r input t) (m'.deliver now' packet fuel' (shift gate r) input' t') := by
  have inside' := behind.lt_size.mpr inside
  induction fuel generalizing fuel' r input input' t t' with
  | zero => omega
  | succ fuel ih =>
    obtain ⟨fuel', rfl⟩ : ∃ less, fuel' = less + 1 := ⟨fuel' - 1, by omega⟩
    obtain ⟨called, same⟩ := mirrors.call m m' now now' r (.event input) (.event input') _ _
      (event_mirrored (m.context t now r) (m'.context t' now' (shift gate r)) (behind.args r) mirrored)
    rw [Meter.deliver, Meter.deliver]
    dsimp only
    rw [show m'.call now' (shift gate r) (.event input') (Feature.event input') t' =
      ((m'.call now' (shift gate r) (.event input') (Feature.event input') t').1,
        (m.call now r (.event input) (Feature.event input) t).2) from Prod.ext rfl same]
    refine propagate behind called (fun d member input input' mirrored t t' mirrors => ?_) packet _
    have later := ordered.lt_of_dependent member
    have later' : shift gate r < shift gate d := shift_lt_shift.mpr later
    have known := (Program.mem_dependents.mp member).2.1
    exact ih fuel' d (by omega) (by omega) known mirrored mirrors (behind.lt_size.mpr known)

private theorem dispatch (ordered : m.program.Ordered) (now now' : Int64) (packet : Option Packet) {r : Nat} (inside : r < m.program.size)
    {input input' : Input} (mirrored : Input.Mirrored gate input input') (mirrors : Mirrors gate forward t t') :
    Mirrors gate forward (m.dispatch now packet r input t) (m'.dispatch now' packet (shift gate r) input' t') :=
  deliver behind ordered now now' packet _ _ r (Nat.le_refl _) (Nat.le_refl _) inside mirrored mirrors

private theorem sweep_all (step step' : Turn Instance φ → Nat → Turn Instance φ)
    (own : ∀ g, gate = some g → ∀ t t', Mirrors gate forward t t' → Mirrors gate forward t (step' t' g))
    (each : ∀ r < m.program.size, ∀ t t', Mirrors gate forward t t' → Mirrors gate forward (step t r) (step' t' (shift gate r)))
    (mirrors : Mirrors gate forward t t') :
    Mirrors gate forward ((List.range m.program.size).foldl step t) ((List.range m'.program.size).foldl step' t') := by
  refine mirrors.sweep own (fun r member => each r (List.mem_range.mp member)) ?_
  rw [behind.size]
  exact range_shift behind.inside

private theorem start (instances : Spread gate (some (.direction forward)) t.record.instances t'.record.instances) (now now' : Int64) :
    Mirrors gate forward (m.start now t) (m'.start now' t') := by
  have cleared : Mirrors gate forward
      { t.log (.segment now) with record := { t.record with values := m.program.nodes.map (·.constant) } }
      { t'.log (.segment now') with record := { t'.record with values := m'.program.nodes.map (·.constant) } } :=
    ⟨instances, behind.spread (·.constant) (fun _ _ moved => moved.constant) fun _ own => own.constant⟩
  have swept := sweep_all behind (m.startOne now) (m'.startOne now')
    (fun g here t t' mirrors => by
      rw [m'.startOne_eq]
      exact mirrors.congr rfl (mirrors.call_gate m' here now' .start _ .silent fun _ => rfl).1)
    (fun r _ t t' mirrors => by
      rw [m.startOne_eq, m'.startOne_eq]
      refine (mirrors.call m m' now now' r .start .start _ _ fun s => ?_).1
      have args : (m'.context t' now' (shift gate r)).args = (m.context t now r).args.map (Argument.behind gate) := behind.args r
      refine congrArg (fun s => (s, Reaction.silent)) (Instance.start_congr ?_ (fun i => ?_) s)
      · rw [args, List.length_map]
      · rw [Context.argument, Context.argument, args, List.getElem?_map]
        cases (m.context t now r).args[i]? with
        | none => rfl
        | some arg =>
          cases arg with
          | raw =>
            cases gate with
            | none => rfl
            | some g => exact congrArg Option.join (mirrors.values.gated g rfl)
          | register q => exact congrArg Option.join (mirrors.values.moved q))
    cleared
  exact ⟨swept.instances, swept.values⟩

private theorem stopOne (ordered : m.program.Ordered) (reason : EndReason) (now now' : Int64) {r : Nat} (mirrors : Mirrors gate forward t t') :
    Mirrors gate forward (m.stopOne reason now t r) (m'.stopOne reason now' t' (shift gate r)) := by
  obtain ⟨called, same⟩ := mirrors.call m m' now now' r (.stop reason) (.stop reason) (Feature.stop reason)
    (Feature.stop reason) fun _ => rfl
  rw [Meter.stopOne, Meter.stopOne]
  dsimp only
  rw [same]
  refine propagate behind called (fun d member input input' mirrored t t' mirrors => ?_) none _
  exact dispatch behind ordered now now' none (Program.mem_dependents.mp member).2.1 mirrored mirrors

private theorem stops (ordered : m.program.Ordered) (reason : EndReason) (now now' : Int64) (mirrors : Mirrors gate forward t t') :
    Mirrors gate forward ((List.range m.program.size).foldl (m.stopOne reason now) t)
      ((List.range m'.program.size).foldl (m'.stopOne reason now') t') := by
  refine sweep_all behind _ _ (fun g here t t' mirrors => ?_) (fun r _ t t' mirrors => stopOne behind ordered reason now now' mirrors) mirrors
  obtain ⟨same, quiet⟩ := mirrors.call_gate m' here now' (.stop reason) (Feature.stop reason) .silent fun _ => rfl
  rw [Meter.stopOne]
  dsimp only
  rw [quiet]
  exact mirrors.congr rfl same

private theorem finishEvents (mirrors : Mirrors gate forward t t') :
    Mirrors gate forward ((List.range m.program.size).foldl Meter.finishEventOne t)
      ((List.range m'.program.size).foldl Meter.finishEventOne t') := by
  refine sweep_all behind _ _ (fun g here t t' mirrors => ?_) (fun r _ t t' mirrors => ?_) mirrors
  · refine mirrors.congr rfl (finishEventOne_rested fun s held => ?_)
    obtain rfl := Option.some.inj (Option.some.inj ((mirrors.instances.gated g here).symm.trans held))
    rfl
  · refine ⟨⟨fun q => ?_, fun g here => ?_⟩, ?_⟩
    · rw [finishEventOne_instances, finishEventOne_instances, mirrors.instances.moved, if_congr shift_inj rfl rfl]
    · subst here
      rw [finishEventOne_instances, if_neg (shift_ne g r).symm]
      exact mirrors.instances.gated g rfl
    · rw [finishEventOne_values, finishEventOne_values]
      exact mirrors.values

private theorem dispatch_gate (mirrors : Mirrors gate forward t t') {g : Nat} (here : gate = some g) (packet : Packet) :
    ∃ t₁ : Turn Instance φ, t₁.record = t'.record ∧
      m'.dispatch packet.time (some packet) g (.packet packet .flow) t' =
        if packet.forward = forward then
          (m'.program.dependents g).foldl (fun t d =>
            m'.deliver packet.time (some packet) (m'.program.size - g - 1) d (.packet packet (.register g)) t) t₁
        else t₁ := by
  obtain ⟨node, found, -⟩ := behind.gated g here
  have inside : g < m'.program.size := (List.getElem?_eq_some_iff.mp found).1
  obtain ⟨fuel, enough⟩ : ∃ fuel, m'.program.size - g = fuel + 1 := ⟨m'.program.size - g - 1, by omega⟩
  obtain ⟨same, answer⟩ := mirrors.call_gate m' here packet.time (.event (.packet packet .flow))
    (Feature.event (.packet packet .flow)) (if packet.forward = forward then .forward else .silent) fun _ => rfl
  refine ⟨_, same, ?_⟩
  rw [Meter.dispatch, enough, Nat.add_sub_cancel, Meter.deliver]
  dsimp only
  rw [answer]
  split <;> rfl

variable (unclocked : ∀ node ∈ m.program.nodes, m.program.isClocked node = false)
include unclocked

private theorem deliverPacket (ordered : m.program.Ordered) (ordered' : m'.program.Ordered) {packet : Packet}
    (passes : packet.forward = forward) (mirrors : Mirrors gate forward t t') :
    Mirrors gate forward (m.deliverPacket packet t) (m'.deliverPacket packet t') := by
  refine finishEvents behind ?_
  rw [behind.events unclocked]
  cases same : gate with
  | none =>
    subst same
    rw [behind.events_eq_nil unclocked rfl]
    exact mirrors
  | some g =>
    subst same
    obtain ⟨t₁, kept, dispatched⟩ := mirrors.dispatch_gate behind rfl packet
    have readers := behind.dependents_gate unclocked rfl
    rw [Option.toList_some, List.foldl_cons, List.foldl_nil, dispatched, if_pos passes, readers]
    refine foldl (fun d member t t' mirrors => ?_) (mirrors.congr rfl kept)
    have later : g < shift (some g) d := ordered'.lt_of_dependent (readers ▸ List.mem_map_of_mem member)
    exact deliver behind ordered packet.time packet.time (some packet) _ _ d (Nat.le_refl _) (by omega)
      (Program.lt_of_mem_events member) (.packet packet _ _) mirrors

private theorem ignore {packet : Packet} (other : packet.forward ≠ forward) (rested : Rested t.record)
    (mirrors : Mirrors gate forward t t') : Mirrors gate forward t (m'.deliverPacket packet t') := by
  have still (rs : List Nat) {t' : Turn Instance φ} (mirrors : Mirrors gate forward t t') :
      Mirrors gate forward t (rs.foldl Meter.finishEventOne t') := by
    induction rs generalizing t' with
    | nil => exact mirrors
    | cons q rs ih =>
      refine ih (mirrors.congr rfl (finishEventOne_rested fun s held => ?_))
      by_cases here : gate = some q
      · obtain rfl := Option.some.inj (Option.some.inj ((mirrors.instances.gated q here).symm.trans held))
        rfl
      · obtain ⟨r, rfl⟩ := exists_shift here
        exact rested r s ((mirrors.instances.moved r).symm.trans held)
  refine still _ ?_
  rw [behind.events unclocked]
  cases same : gate with
  | none =>
    subst same
    exact mirrors
  | some g =>
    subst same
    obtain ⟨t₁, kept, dispatched⟩ := mirrors.dispatch_gate behind rfl packet
    rw [Option.toList_some, List.foldl_cons, List.foldl_nil, dispatched, if_neg other]
    exact mirrors.congr rfl kept

end Programs

end Mirrors

/-- A record of a program and a record of the program behind a gate that have got the same packets, apart from those that
the gate keeps. -/
structure Paired (gate : Option Nat) (forward : Bool) (m m' : Meter Instance φ) (r r' : Record Instance φ) : Prop where
  awaits : Awaits m r
  awaits' : Awaits m' r'
  active : r.active = true → r'.active = true
  mirrors : ∀ now now', Mirrors gate forward (begun m now r) (begun m' now' r')
  rested : ∀ now, Rested (begun m now r).record

namespace Paired

variable {r r' : Record Instance φ} (behind : Behind gate forward m.program m'.program)
include behind

private theorem make (bare : Bare m) : Paired gate forward m m' m.make m'.make where
  awaits := .inl rfl
  awaits' := .inl rfl
  active := by rintro ⟨⟩
  mirrors now now' := Mirrors.start behind (behind.spread (fun node => node.build?.map fun build => build node.kind)
    (fun _ _ moved => by rw [Node.build?, Node.build?, moved.entry, moved.kind]) fun _ own => own.built) now now'
  rested now := rested_start m now m.make_fits bare.calm

private theorem stop [Filter φ] (bare : Bare m) (paired : Paired gate forward m m' r r') {reason : EndReason} {now : Int64} {row row' : Row}
    (member : row ∈ (m.stop r reason now).2.rows) (member' : row' ∈ (m'.stop r' reason now).2.rows) :
    row'.values = row.values := by
  obtain ⟨active, shown⟩ := paired.awaits.stop member
  obtain ⟨active', shown'⟩ := paired.awaits'.stop member'
  have begins := paired.mirrors now now
  rw [begun_active active, begun_active active'] at begins
  have logged : Mirrors gate forward ((Turn.ofRecord r).log (.finish reason now)) ((Turn.ofRecord r').log (.finish reason now)) :=
    begins.congr rfl rfl
  have stopped := logged.stops behind bare.ordered reason now now
  obtain ⟨template, -, rfl⟩ := Option.map_eq_some_iff.mp shown
  obtain ⟨template', -, rfl⟩ := Option.map_eq_some_iff.mp shown'
  dsimp only
  rw [behind.exports, List.map_map]
  exact List.map_congr_left fun e _ => congrArg Option.join (stopped.values.moved e)

variable [Filter φ] (bare' : Bare m') (unclocked : ∀ node ∈ m.program.nodes, m.program.isClocked node = false)
include bare' unclocked

private theorem skip (paired : Paired gate forward m m' r r') {packet : Packet} (other : packet.forward ≠ forward) :
    Paired gate forward m m' r (m'.event r' packet).2.1 := by
  obtain ⟨same', -, opened'⟩ := paired.awaits'.event bare' packet
  refine ⟨paired.awaits, .inr opened', fun _ => opened'.active, fun now now' => ?_, paired.rested⟩
  rw [begun_active opened'.active]
  have ignored := (paired.mirrors now packet.time).ignore behind unclocked other (paired.rested now)
  exact ⟨same' ▸ ignored.instances, same' ▸ ignored.values⟩

variable (bare : Bare m)
include bare

private theorem event (paired : Paired gate forward m m' r r') {packet : Packet} (passes : packet.forward = forward) :
    Paired gate forward m m' (m.event r packet).2.1 (m'.event r' packet).2.1 := by
  obtain ⟨same, -, opened⟩ := paired.awaits.event bare packet
  obtain ⟨same', -, opened'⟩ := paired.awaits'.event bare' packet
  obtain ⟨ready, -, -⟩ := paired.awaits.begins bare packet.time
  refine ⟨.inr opened, .inr opened', fun _ => opened'.active, fun now now' => ?_, fun now => ?_⟩
  · rw [begun_active opened.active, begun_active opened'.active]
    have delivered := (paired.mirrors packet.time packet.time).deliverPacket behind unclocked bare.ordered bare'.ordered passes
    exact ⟨same ▸ same' ▸ delivered.instances, same ▸ same' ▸ delivered.values⟩
  · rw [begun_active opened.active]
    exact same ▸ rested_deliverPacket bare.ordered packet ready.fits ready.active

private theorem events (paired : Paired gate forward m m' r r') (packets : List Packet) :
    Paired gate forward m m' (m.performAll r ((packets.filter (·.forward = forward)).map .event)).1
      (m'.performAll r' (packets.map .event)).1 := by
  induction packets generalizing r r' with
  | nil => exact paired
  | cons packet packets ih =>
    by_cases passes : packet.forward = forward
    · rw [List.filter_cons, if_pos (decide_eq_true passes)]
      exact ih (paired.event behind bare' unclocked bare passes)
    · have skipped : ¬decide (packet.forward = forward) = true := fun held => passes (of_decide_eq_true held)
      rw [List.filter_cons, if_neg skipped]
      exact ih (paired.skip behind bare' unclocked passes)

end Paired

/-- Behind a gate a program reports of all packets what it reports of those that the gate lets through. -/
theorem values_behind [Filter φ] (m m' : Meter Instance φ) (behind : Behind gate forward m.program m'.program) (bare : Bare m) (bare' : Bare m')
    (unclocked : ∀ node ∈ m.program.nodes, m.program.isClocked node = false) (packets : List Packet) {reason : EndReason}
    {now : Int64} {row row' : Row}
    (member : row ∈ (m.performAll m.make
      ((packets.filter (·.forward = forward)).map .event ++ [.stop reason now])).2.rows)
    (member' : row' ∈ (m'.performAll m'.make (packets.map .event ++ [.stop reason now])).2.rows) :
    row'.values = row.values := by
  have last {m : Meter Instance φ} (bare : Bare m) {packets : List Packet} {row : Row}
      (member : row ∈ (m.performAll m.make (packets.map .event ++ [.stop reason now])).2.rows) :
      row ∈ (m.stop (m.performAll m.make (packets.map .event)).1 reason now).2.rows := by
    obtain ⟨-, quiet⟩ := Awaits.events bare (.inl rfl) packets
    rw [performAll_append, Journal.rows_append, quiet, List.nil_append, Meter.performAll, Meter.performAll,
      Journal.rows_append] at member
    exact (List.mem_append.mp member).resolve_right List.not_mem_nil
  exact ((Paired.make behind bare).events behind bare' unclocked bare packets).stop behind bare (last bare member)
    (last bare' member')

end Library

end FlowMetering
