import FlowMetering.Proofs.Circuits
import FlowMetering.Proofs.LifeCycle

/-! Packets run through circuits in waves. Emissions go out depth first, and yet every instance of a circuit ends up as
its tree does when it is asked for the packet; registers outside of the circuit cannot disturb it. -/

namespace FlowMetering

def Journal.rows (journal : Journal) : List Row :=
  journal.filterMap fun
    | .row _ row | .export _ row _ => some row
    | _ => none

namespace Library

theorem Instance.role?_event (input : Input) (c : Context) (s : Instance) : (s.event input c).1.role? = s.role? := by
  cases input with
  | packet p source => exact role?_packet p s
  | value v source => exact role?_value v _ s

theorem Instance.signals_event {s : Instance} (working : s.role? ≠ none) (input : Input) (c : Context) :
    (s.event input c).2.signals = [] := by
  have reacts (op : Operator) (kind : Kind) (slots : List (Option Value)) :
      (if kind = .packetFeature then op.reaction slots else Reaction.silent).signals = [] := by
    rw [Operator.reaction]
    split
    · split <;> rfl
    · rfl
  have passes (holds : Prop) [Decidable holds] :
      (if holds then Reaction.forward else Reaction.silent).signals = [] := by
    split <;> rfl
  cases input with
  | packet p source =>
    cases s with
    | operator op kind slots constant => exact reacts op kind slots
    | direction forward | predicate constant current | slice start stop index => exact passes _
    | tcpEnd finForward finBackward => exact absurd rfl working
    | _ => rfl
  | value v source =>
    cases s with
    | operator op kind slots constant => exact reacts op kind _
    | mean sum count =>
      rw [event, value]
      cases v.asFloat <;> rfl
    | _ => rfl

theorem Instance.signals_stop {s : Instance} (reason : EndReason) : (s.stop reason).2.signals = [] := by
  cases s with
  | operator op kind slots constant =>
    rw [stop]
    dsimp only
    split
    · rfl
    · rw [Operator.reaction]
      split <;> rfl
  | _ => rfl

end Library

open Library

variable {φ : Type}

def Calm (r : Record Instance φ) : Prop :=
  ∀ (q : Nat) (s : Instance), r.instances[q]? = some (some s) → s.role? ≠ none

/-- From one turn to another no signal has been raised, no row has been handed out and nothing in the record has changed
but the instances and the values of registers that need not be still. -/
structure Keeps (still : Nat → Prop) (before after : Turn Instance φ) : Prop where
  signals : after.signals = before.signals
  rows : after.journal.rows = before.journal.rows
  rest : { after.record with instances := before.record.instances, values := before.record.values } = before.record
  calm : Calm after.record
  count : after.record.instances.length = before.record.instances.length
  values : ∀ r, still r → after.record.values[r]? = before.record.values[r]?

namespace Keeps

variable {still : Nat → Prop} {first middle last : Turn Instance φ}

theorem refl {t : Turn Instance φ} (calm : Calm t.record) : Keeps still t t :=
  ⟨rfl, rfl, rfl, calm, rfl, fun _ _ => rfl⟩

theorem trans (a : Keeps still first middle) (b : Keeps still middle last) : Keeps still first last where
  signals := b.signals.trans a.signals
  rows := b.rows.trans a.rows
  rest := by rw [← a.rest, ← b.rest]
  calm := b.calm
  count := b.count.trans a.count
  values r held := (b.values r held).trans (a.values r held)

theorem mono {still' : Nat → Prop} (keeps : Keeps still first last) (fewer : ∀ r, still' r → still r) :
    Keeps still' first last :=
  { keeps with values := fun r held => keeps.values r (fewer r held) }

theorem setValue (keeps : Keeps still first last) {r : Nat} (moving : ¬still r) (v : Option Value) :
    Keeps still first (last.setValue r v) where
  signals := keeps.signals
  rows := keeps.rows
  rest := keeps.rest
  calm := keeps.calm
  count := keeps.count
  values q held := by
    rw [← keeps.values q held]
    exact List.getElem?_set_ne fun same : r = q => moving (same ▸ held)

end Keeps

theorem Meter.startOne_eq (m : Meter Instance φ) (now : Int64) (t : Turn Instance φ) (r : Nat) :
    m.startOne now t r = (m.call now r .start Feature.start t).1 := by
  rcases t.idle_or_held r with idle | ⟨s, held⟩
  · rw [Meter.startOne, Meter.call_idle idle]
  · rw [Meter.startOne, Meter.call_eq held]
    rfl

theorem Journal.rows_call {journal : Journal} {r : Nat} {phase : Phase} {remarks : List String} :
    Journal.rows (journal ++ [.call r phase remarks]) = journal.rows := by
  rw [rows, List.filterMap_append]
  exact List.append_nil _

theorem getElem?_setInstance {t : Turn Instance φ} {r : Nat} {old : Instance}
    (held : t.record.instances[r]? = some (some old)) (s : Instance) :
    (t.setInstance r s).record.instances[r]? = some (some s) :=
  List.getElem?_set_self (List.getElem?_eq_some_iff.mp held).1

/-- A call that raises no signal and keeps the role of its instance keeps everything but the instance. -/
theorem Meter.call_keeps (m : Meter Instance φ) (still : Nat → Prop) (now : Int64) (r : Nat) (phase : Phase)
    (answer : Context → Instance → Instance × Reaction) {t : Turn Instance φ} (calm : Calm t.record)
    (silent : ∀ c s, s.role? ≠ none → (answer c s).2.signals = []) (keep : ∀ c s, (answer c s).1.role? = s.role?) :
    Keeps still t (m.call now r phase answer t).1 ∧
      ∀ q, q ≠ r → (m.call now r phase answer t).1.record.instances[q]? = t.record.instances[q]? := by
  rcases t.idle_or_held r with idle | ⟨s, held⟩
  · rw [Meter.call_idle idle]
    exact ⟨.refl calm, fun _ _ => rfl⟩
  · rw [Meter.call_eq held]
    refine ⟨⟨?_, Journal.rows_call, rfl, ?_, List.length_set, fun _ _ => rfl⟩, fun q other => List.getElem?_set_ne other.symm⟩
    · change t.signals ++ (answer (m.context t now r) s).2.signals = t.signals
      rw [silent _ s (calm r s held), List.append_nil]
    · intro q s' found
      by_cases same : q = r
      · subst same
        have placed := getElem?_setInstance held (answer (m.context t now q) s).1
        obtain rfl : (answer (m.context t now q) s).1 = s' := Option.some.inj (Option.some.inj (placed.symm.trans found))
        rw [keep]
        exact calm q s held
      · exact calm q s' ((List.getElem?_set_ne (Ne.symm same)).symm.trans found)

namespace Library

/-- A register of a circuit: a constant, or a call wired to arguments of the circuit. -/
inductive Placed (p : Program Instance φ) (lives : Nat → Live) (good : Nat → Prop) (r : Nat) : Prop
  | constant {node : Node Instance} {value : Value} (found : p.nodes[r]? = some node) (known : node.constant = some value)
    (args : node.args = []) (shown : lives r = .constant value) (idle : node.build? = none)
  | call {node : Node Instance} {s : Instance} (found : p.nodes[r]? = some node) (varies : node.constant = none)
    (shown : lives r = .call (some s) (node.args.map (Live.at lives))) (wiring : Wiring p lives s node.args)
    (closed : ∀ q, .register q ∈ node.args → good q) (free : p.isClocked node = false) (plain : node.isControl = false)

/-- Some registers of a program hold trees, and so do the registers that they read. -/
structure Circuit (p : Program Instance φ) (lives : Nat → Live) (good : Nat → Prop) : Prop where
  ordered : p.Ordered
  placed : ∀ r, good r → Placed p lives good r

variable {p : Program Instance φ} {lives : Nat → Live} {good : Nat → Prop} {packet : Packet}

namespace Circuit

theorem closed (circuit : Circuit p lives good) {r q : Nat} {node : Node Instance} (held : good r)
    (found : p.nodes[r]? = some node) (reads : .register q ∈ node.args) : good q := by
  cases circuit.placed r held with
  | constant found' known args shown =>
    obtain rfl := Option.some.inj (found.symm.trans found')
    rw [args] at reads
    cases reads
  | call found' varies shown wiring closed free plain =>
    obtain rfl := Option.some.inj (found.symm.trans found')
    exact closed q reads

/-- What a register emits is what its instance makes of the emissions of its arguments. -/
theorem emitted_call {node : Node Instance} {s : Instance} {r : Nat}
    (shown : lives r = .call (some s) (node.args.map (Live.at lives))) :
    emitted packet lives (.register r) =
      (Instance.feed packet 0 (node.args.map (emitted packet lives)) (s, .nothing)).2 := by
  rw [emitted, Live.at, shown, Live.emission_call, List.map_map]
  rfl

theorem heard_argument (circuit : Circuit p lives good) {r : Nat} {node : Node Instance} (held : good r)
    (found : p.nodes[r]? = some node) (heard : (emitted packet lives (.register r)).isHeard = true) :
    ∃ arg ∈ node.args, (emitted packet lives arg).isHeard = true := by
  cases circuit.placed r held with
  | constant found' known args shown =>
    rw [emitted, Live.at, shown] at heard
    cases heard
  | call found' varies shown wiring closed free plain =>
    obtain rfl := Option.some.inj (found.symm.trans found')
    rename_i s
    by_contra! unheard
    have nothing : Instance.feed packet 0 (node.args.map (emitted packet lives)) (s, .nothing) =
        Instance.feed packet 0 (node.args.map fun _ => .nothing) (s, .nothing) := by
      apply feed_congr
      rw [List.map_map, List.map_map]
      exact List.map_congr_left fun arg member => if_neg (unheard arg member)
    rw [emitted_call shown, nothing, Instance.feed_nothing packet 0 (List.forall_mem_map.mpr fun _ _ => rfl)] at heard
    cases heard

private theorem beyond (circuit : Circuit p lives good) {r : Nat} {arg : Argument} (within : Within p (.register r) arg) {q : Nat}
    (same : arg = .register q) (held : good q) (heard : (emitted packet lives arg).isHeard = true) : r ≤ q := by
  induction within generalizing q with
  | here =>
    cases same
    exact Nat.le_refl r
  | constant found known =>
    rename_i q' node
    obtain rfl : q = q' := (Argument.register.inj same).symm
    cases circuit.placed q held with
    | constant found' known' args shown =>
      rw [emitted, Live.at, shown] at heard
      cases heard
    | call found' varies shown wiring closed free plain =>
      obtain rfl := Option.some.inj (found.symm.trans found')
      rw [varies] at known
      cases known
  | call found inside ih =>
    rename_i q' node
    obtain rfl : q = q' := (Argument.register.inj same).symm
    obtain ⟨arg, member, sounds⟩ := circuit.heard_argument held found heard
    cases arg with
    | raw => cases inside .raw member
    | register q' =>
      have below : q' < q := circuit.ordered q _ found _ member
      exact Nat.le_trans (ih _ member rfl (circuit.closed held found member) sounds) (Nat.le_of_lt below)

theorem node (circuit : Circuit p lives good) {r : Nat} (held : good r) : ∃ node, p.nodes[r]? = some node := by
  cases circuit.placed r held with
  | constant found known args shown => exact ⟨_, found⟩
  | call found varies shown wiring closed free plain => exact ⟨_, found⟩

end Circuit

/-- How far a packet has come in a circuit. The wires that it has used are known. A register that is not open has
passed on what it emits if all has arrived that it waits for, and nothing otherwise. -/
structure Wave (p : Program Instance φ) (lives : Nat → Live) (good : Nat → Prop) (packet : Packet)
    (wires : List (Argument × Nat)) (opened : List Nat) (instances : List (Option Instance)) : Prop where
  held : ∀ r node s, good r → p.nodes[r]? = some node → lives r = .call (some s) (node.args.map (Live.at lives)) →
    instances[r]? = some (some
      (Instance.feed packet 0 (node.args.map (arrived (emitted packet lives) wires r)) (s, .nothing)).1)
  order : ∀ r node, good r → p.nodes[r]? = some node → InOrder lives (emitted packet lives) wires r node.args
  passed : ∀ r node, good r → p.nodes[r]? = some node → r ∉ opened →
    ∀ d reader, good d → p.nodes[d]? = some reader → .register r ∈ reader.args →
      ((.register r, d) ∈ wires ↔
        Complete (emitted packet lives) wires r node.args ∧ (emitted packet lives (.register r)).isHeard = true)

namespace Wave

variable {wires : List (Argument × Nat)} {opened : List Nat} {instances : List (Option Instance)}

private theorem closed_before (circuit : Circuit p lives good) {source arg : Argument}
    (early : ∀ q ∈ opened, ∃ r, source = .register r ∧ q ≤ r) (within : Within p source arg) (other : arg ≠ source)
    {q : Nat} (same : arg = .register q) (held : good q) (heard : (emitted packet lives arg).isHeard = true) :
    q ∉ opened := by
  intro inside
  obtain ⟨r, rfl, above⟩ := early q inside
  have beyond := circuit.beyond within same held heard
  exact other (same.trans (congrArg Argument.register (Nat.le_antisymm above beyond)))

/-- Where a source has been passed on to all readers up to some register, what depends on that source alone has got
all that it waits for. -/
private theorem complete_within (circuit : Circuit p lives good) (wave : Wave p lives good packet wires opened instances)
    {source : Argument} {bound : Nat}
    (used : ∀ y reader, good y → p.nodes[y]? = some reader → source ∈ reader.args → y < bound → (source, y) ∈ wires)
    (early : ∀ q ∈ opened, ∃ r, source = .register r ∧ q ≤ r) {arg : Argument} (within : Within p source arg)
    (other : arg ≠ source) {q : Nat} (same : arg = .register q) (held : good q) (below : q < bound) {node : Node Instance}
    (found : p.nodes[q]? = some node) : Complete (emitted packet lives) wires q node.args := by
  induction within generalizing q node with
  | here => exact absurd rfl other
  | constant found' known =>
    obtain rfl := Argument.register.inj same
    cases circuit.placed _ held with
    | constant found'' known' args shown =>
      obtain rfl := Option.some.inj (found.symm.trans found'')
      intro arg member
      rw [args] at member
      cases member
    | call found'' varies shown wiring closed free plain =>
      obtain rfl := Option.some.inj (found'.symm.trans found'')
      rw [varies] at known
      cases known
  | call found' inside ih =>
    obtain rfl := Argument.register.inj same
    obtain rfl := Option.some.inj (found.symm.trans found')
    intro arg member heard
    by_cases here : arg = source
    · rw [here]
      exact used _ node held found (here ▸ member) below
    · cases arg with
      | raw =>
        cases inside .raw member
        exact absurd rfl here
      | register q' =>
        have held' := circuit.closed held found member
        have lower : q' < _ := circuit.ordered _ node found _ member
        obtain ⟨node', found''⟩ := circuit.node held'
        exact (wave.passed q' node' held' found'' (closed_before circuit early (inside _ member) here rfl held' heard)
          _ node held found member).mpr ⟨ih _ member here rfl held' (Nat.lt_trans lower below) found'', heard⟩

/-- A condition that depends on a source alone arrives before the source does. -/
theorem in_order (circuit : Circuit p lives good) (wave : Wave p lives good packet wires opened instances)
    {source : Argument} {d : Nat} {reader : Node Instance} (held : good d) (found : p.nodes[d]? = some reader)
    (heard : (emitted packet lives source).isHeard = true)
    (used : ∀ y node, good y → p.nodes[y]? = some node → source ∈ node.args → y < d → (source, y) ∈ wires)
    (early : ∀ q ∈ opened, ∃ r, source = .register r ∧ q ≤ r) :
    InOrder lives (emitted packet lives) ((source, d) :: wires) d reader.args := by
  have varying {arg : Argument} (heard : (emitted packet lives arg).isHeard = true) :
      constant? (Live.at lives arg) = none := by
    cases known : constant? (Live.at lives arg) with
    | none => rfl
    | some value =>
      rw [emitted, Live.emission_constant packet (by rw [known]; rfl)] at heard
      cases heard
  intro condition source' args selects used' sounds
  apply List.mem_cons_of_mem
  by_cases other : source' = source
  · subst other
    cases circuit.placed d held with
    | constant found' known args' shown =>
      obtain rfl := Option.some.inj (found.symm.trans found')
      rw [args] at args'
      cases args'
    | call found' varies shown wiring closed free plain =>
      obtain rfl := Option.some.inj (found.symm.trans found')
      rw [args] at wiring
      generalize pair : [condition, source'] = pair' at wiring
      cases wiring with
      | single before role known has other =>
        rename_i last
        have fixed : condition ∈ before := by
          cases before with
          | nil => cases pair
          | cons first rest =>
            obtain ⟨rfl, -⟩ := List.cons_eq_cons.mp pair
            exact List.mem_cons_self
        have constant := known condition fixed
        rw [varying sounds] at constant
        cases constant
      | packetOperator has varies =>
        subst pair
        cases (has source' (by simp)).unique selects (varying heard)
      | flowOperator has =>
        subst pair
        cases (has source' (by simp)).unique selects (varying heard)
      | predicate has inside within =>
        cases pair
        have other : condition ≠ source' := by
          rintro rfl
          cases has.unique inside (varying sounds)
        cases condition with
        | raw =>
          cases within
          exact absurd rfl other
        | register c =>
          have member : Argument.register c ∈ reader.args := by rw [args]; exact List.mem_cons_self
          have held' := closed c member
          obtain ⟨node, found''⟩ := circuit.node held'
          have complete := complete_within circuit wave used early within other rfl held'
            (circuit.ordered d reader found _ member) found''
          exact (wave.passed c node held' found'' (closed_before circuit early within other rfl held' sounds) d reader held
            found member).mpr ⟨complete, sounds⟩
  · have before : (source', d) ∈ wires := (List.mem_cons.mp used').resolve_left fun same => other (Prod.ext_iff.mp same).1
    exact wave.order d reader held found condition source' args selects before sounds

/-- A register is closed once all its readers have got what it emits, or nothing if it emits nothing. -/
theorem close (wave : Wave p lives good packet wires opened instances) {r : Nat} {rest : List Nat}
    (same : opened = r :: rest)
    (passed : ∀ node, good r → p.nodes[r]? = some node → ∀ d reader, good d → p.nodes[d]? = some reader →
      .register r ∈ reader.args → ((.register r, d) ∈ wires ↔
        Complete (emitted packet lives) wires r node.args ∧ (emitted packet lives (.register r)).isHeard = true)) :
    Wave p lives good packet wires rest instances where
  held := wave.held
  order := wave.order
  passed q node held found outside := by
    by_cases here : q = r
    · subst here
      exact passed node held found
    · refine wave.passed q node held found fun inside => ?_
      rw [same] at inside
      exact (List.mem_cons.mp inside).elim here outside

theorem congr (wave : Wave p lives good packet wires opened instances) {instances' : List (Option Instance)}
    (same : ∀ r, good r → instances'[r]? = instances[r]?) : Wave p lives good packet wires opened instances' where
  held r node s held found shown := (same r held).trans (wave.held r node s held found shown)
  order := wave.order
  passed := wave.passed

end Wave

structure Spares (good : Nat → Prop) (before after : Turn Instance φ) : Prop extends Keeps good before after where
  instances : ∀ q, good q → after.record.instances[q]? = before.record.instances[q]?

private theorem Spares.refl {t : Turn Instance φ} (calm : Calm t.record) : Spares good t t :=
  ⟨.refl calm, fun _ _ => rfl⟩

theorem Spares.trans {first middle last : Turn Instance φ} (a : Spares good first middle) (b : Spares good middle last) :
    Spares good first last :=
  ⟨a.toKeeps.trans b.toKeeps, fun q held => (b.instances q held).trans (a.instances q held)⟩

variable {m : Meter Instance φ}

private theorem Circuit.outside (circuit : Circuit p lives good) {r d : Nat} (outside : ¬good r) (reads : d ∈ p.dependents r) :
    ¬good d := by
  intro held
  obtain ⟨node, found, member⟩ := Program.mem_arguments.mp (Program.mem_dependents.mp reads).2.2
  exact outside (circuit.closed held found member)

private theorem spares_foldl {next : Turn Instance φ → Nat → Turn Instance φ} {ds : List Nat}
    (step : ∀ d ∈ ds, ∀ t : Turn Instance φ, Calm t.record → Spares good t (next t d)) {t : Turn Instance φ}
    (calm : Calm t.record) : Spares good t (ds.foldl next t) := by
  induction ds generalizing t with
  | nil => exact .refl calm
  | cons d ds ih =>
    have first := step d List.mem_cons_self t calm
    exact first.trans (ih (fun d member => step d (List.mem_cons_of_mem _ member)) first.calm)

/-- What is handed on from outside of a circuit stays outside. -/
theorem propagate_outside (circuit : Circuit m.program lives good) (next : Nat → Input → Turn Instance φ → Turn Instance φ)
    (step : ∀ d input t, ¬good d → Calm t.record → Spares good t (next d input t)) {packet : Option Packet} {r : Nat}
    (outside : ¬good r) {t : Turn Instance φ} (calm : Calm t.record) (e : Emission) :
    Spares good t (m.propagate next packet r t e) := by
  have readers (input : Input) {t : Turn Instance φ} (calm : Calm t.record) :
      Spares good t ((m.program.dependents r).foldl (fun t d => next d input t) t) :=
    spares_foldl (fun d member t calm => step d input t (circuit.outside outside member) calm) calm
  have placed (v : Option Value) : Spares good t (t.setValue r v) :=
    ⟨(Keeps.refl calm).setValue outside v, fun _ _ => rfl⟩
  cases e with
  | nothing => exact .refl calm
  | value v =>
    cases v with
    | none => exact placed none
    | some v => exact (placed (some v)).trans (readers _ (placed (some v)).calm)
  | forward =>
    cases packet with
    | none => exact .refl calm
    | some p => exact readers _ calm

theorem deliver_outside (circuit : Circuit m.program lives good) (now : Int64) (packet : Option Packet) {fuel r : Nat}
    {input : Input} {t : Turn Instance φ} (outside : ¬good r) (calm : Calm t.record) :
    Spares good t (m.deliver now packet fuel r input t) := by
  induction fuel generalizing r input t with
  | zero => exact .refl calm
  | succ fuel ih =>
    obtain ⟨keeps, others⟩ := m.call_keeps good now r (.event input) (Feature.event input) calm
      (fun c s working => s.signals_event working input c) (fun c s => s.role?_event input c)
    have called : Spares good t (m.call now r (.event input) (Feature.event input) t).1 :=
      ⟨keeps, fun q held => others q fun same => outside (same ▸ held)⟩
    rw [Meter.deliver]
    exact called.trans (propagate_outside circuit (m.deliver now packet fuel)
      (fun d input t outside calm => ih outside calm) outside called.calm _)

end Library

end FlowMetering
