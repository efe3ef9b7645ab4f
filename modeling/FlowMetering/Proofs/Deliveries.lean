import FlowMetering.Proofs.PacketWaves

/-! Deliveries inside of a circuit. An emission that arrives at a register travels on until every register that it
reaches waits for something else or has passed on what it emits. -/

namespace FlowMetering.Library

variable {φ : Type} {m : Meter Instance φ} {lives : Nat → Live} {good : Nat → Prop} {packet : Packet}

/-- The registers of a circuit that are silent until the flow ends. -/
def Steady (lives : Nat → Live) (good : Nat → Prop) (r : Nat) : Prop :=
  good r ∧ Live.HasRole .flow (lives r)

/-- Which wires a delivery may use: the wire of an emission and wires that lead out of later registers. -/
structure Passes (wires wires' : List (Argument × Nat)) (a : Argument) (r : Nat) : Prop where
  kept : ∀ w ∈ wires, w ∈ wires'
  used : (a, r) ∈ wires'
  later : ∀ w ∈ wires', w ∈ wires ∨ w = (a, r) ∨ ∃ q, r ≤ q ∧ w.1 = .register q

/-- A delivery to a register of a circuit carries the wave of a packet on. -/
def Delivers (m : Meter Instance φ) (lives : Nat → Live) (good : Nat → Prop) (packet : Packet)
    (next : Nat → Input → Turn Instance φ → Turn Instance φ) (r : Nat) : Prop :=
  ∀ (a : Argument) (node : Node Instance) (input : Input) (t : Turn Instance φ) (wires : List (Argument × Nat))
    (opened : List Nat), good r → m.program.nodes[r]? = some node → a ∈ node.args →
    Input.Brings packet a (emitted packet lives a) input → (a, r) ∉ wires → (∀ q, a = .register q → q ∈ opened) →
    (∀ q ∈ opened, q < r) → Wave m.program lives good packet wires opened t.record.instances →
    InOrder lives (emitted packet lives) ((a, r) :: wires) r node.args → Calm t.record →
    ∃ wires', Wave m.program lives good packet wires' opened (next r input t).record.instances ∧
      Passes wires wires' a r ∧ Keeps (Steady lives good) t (next r input t)

/-- A source is handed on to its readers one after the other. -/
theorem spread (circuit : Circuit m.program lives good) (next : Nat → Input → Turn Instance φ → Turn Instance φ)
    (source : Argument) (input : Input) (wires : List (Argument × Nat)) (opened : List Nat) {ds : List Nat}
    (ascending : ds.Pairwise (· < ·))
    (readers : ∀ d ∈ ds, good d → ∃ node, m.program.nodes[d]? = some node ∧ source ∈ node.args)
    (delivers : ∀ d ∈ ds, Delivers m lives good packet next d)
    (spares : ∀ d input t, ¬good d → Calm t.record → Spares good t (next d input t))
    (brings : Input.Brings packet source (emitted packet lives source) input) {t : Turn Instance φ}
    (origin : ∀ q, source = .register q → q ∈ opened)
    (early : ∀ q ∈ opened, ∃ r, source = .register r ∧ q ≤ r) (fresh : ∀ d ∈ ds, good d → (source, d) ∉ wires)
    (done : ∀ d reader, good d → m.program.nodes[d]? = some reader → source ∈ reader.args → d ∉ ds →
      (source, d) ∈ wires)
    (wave : Wave m.program lives good packet wires opened t.record.instances) (calm : Calm t.record) :
    ∃ wires', Wave m.program lives good packet wires' opened (ds.foldl (fun t d => next d input t) t).record.instances ∧
      (∀ w ∈ wires, w ∈ wires') ∧
      (∀ w ∈ wires', w ∈ wires ∨ w.1 = source ∨ ∃ d ∈ ds, ∃ q, d ≤ q ∧ w.1 = .register q) ∧
      (∀ d reader, good d → m.program.nodes[d]? = some reader → source ∈ reader.args → (source, d) ∈ wires') ∧
      Keeps (Steady lives good) t (ds.foldl (fun t d => next d input t) t) := by
  induction ds generalizing t wires with
  | nil =>
    exact ⟨wires, wave, fun _ member => member, fun _ member => .inl member,
      fun d reader held found reads => done d reader held found reads List.not_mem_nil, .refl calm⟩
  | cons d ds ih =>
    obtain ⟨lower, ascending⟩ := List.pairwise_cons.mp ascending
    have rest := fun {t : Turn Instance φ} (wires : List (Argument × Nat)) => ih (t := t) wires ascending
      (fun d member => readers d (List.mem_cons_of_mem _ member))
      (fun d member => delivers d (List.mem_cons_of_mem _ member))
    rw [List.foldl_cons]
    by_cases held : good d
    · obtain ⟨node, found, member⟩ := readers d List.mem_cons_self held
      have below : source.Below d := circuit.ordered d node found source member
      have order := wave.in_order circuit held found (isHeard_of_brings brings)
        (fun y reader held found reads below => done y reader held found reads fun inside => by
          rcases List.mem_cons.mp inside with rfl | inside
          · exact Nat.lt_irrefl _ below
          · exact Nat.lt_asymm below (lower y inside)) early
      obtain ⟨wires₁, wave₁, passes, keeps⟩ := delivers d List.mem_cons_self source node input t wires opened held found
        member brings (fresh d List.mem_cons_self held) origin
        (fun q inside => by
          obtain ⟨r, rfl, above⟩ := early q inside
          exact Nat.lt_of_le_of_lt above below) wave order calm
      have fresh₁ : ∀ d' ∈ ds, good d' → (source, d') ∉ wires₁ := by
        intro d' member held' used
        rcases passes.later _ used with used | same | ⟨q, beyond, same⟩
        · exact fresh d' (List.mem_cons_of_mem _ member) held' used
        · obtain rfl : d' = d := (Prod.ext_iff.mp same).2
          exact Nat.lt_irrefl _ (lower d' member)
        · obtain rfl : source = .register q := same
          exact Nat.lt_irrefl _ (Nat.lt_of_lt_of_le below beyond)
      have done₁ : ∀ d' reader, good d' → m.program.nodes[d']? = some reader → source ∈ reader.args → d' ∉ ds →
          (source, d') ∈ wires₁ := by
        intro d' reader held found reads outside
        by_cases here : d' = d
        · subst here
          exact passes.used
        · exact passes.kept _ (done d' reader held found reads fun inside =>
            (List.mem_cons.mp inside).elim here outside)
      obtain ⟨wires', wave', kept, later, used, keeps'⟩ := rest _ fresh₁ done₁ wave₁ keeps.calm
      refine ⟨wires', wave', fun w member => kept w (passes.kept w member), fun w member => ?_, used, keeps.trans keeps'⟩
      rcases later w member with member | same | ⟨d', inside, beyond⟩
      · rcases passes.later w member with member | rfl | beyond
        · exact .inl member
        · exact .inr (.inl rfl)
        · exact .inr (.inr ⟨d, List.mem_cons_self, beyond⟩)
      · exact .inr (.inl same)
      · exact .inr (.inr ⟨d', List.mem_cons_of_mem _ inside, beyond⟩)
    · have spared := spares d input t held calm
      obtain ⟨wires', wave', kept, later, used, keeps'⟩ := rest wires
        (fun d member => fresh d (List.mem_cons_of_mem _ member))
        (fun d' reader held' found reads outside => done d' reader held' found reads fun inside =>
          (List.mem_cons.mp inside).elim (fun same => held (same ▸ held')) outside)
        (wave.congr spared.instances) spared.calm
      refine ⟨wires', wave', kept, fun w member => ?_, used, (spared.toKeeps.mono fun q steady => steady.1).trans keeps'⟩
      rcases later w member with member | same | ⟨d', inside, beyond⟩
      · exact .inl member
      · exact .inr (.inl same)
      · exact .inr (.inr ⟨d', List.mem_cons_of_mem _ inside, beyond⟩)

/-- What is left to show where an emission is handed on: the register has become open and its instance has made a
step. -/
structure Stepped (m : Meter Instance φ) (lives : Nat → Live) (good : Nat → Prop) (packet : Packet)
    (wires : List (Argument × Nat)) (opened : List Nat) (a : Argument) (r : Nat) (node : Node Instance)
    (before : Turn Instance φ) (after : Turn Instance φ × Emission) : Prop where
  wave : Wave m.program lives good packet ((a, r) :: wires) (r :: opened) after.1.record.instances
  answer : after.2 = if Complete (emitted packet lives) ((a, r) :: wires) r node.args then
    emitted packet lives (.register r) else .nothing
  keeps : Keeps (Steady lives good) before after.1

private theorem call_steps (circuit : Circuit m.program lives good) (now : Int64) {r : Nat} {a : Argument} {node : Node Instance}
    {input : Input} {t : Turn Instance φ} {wires : List (Argument × Nat)} {opened : List Nat} (held : good r)
    (found : m.program.nodes[r]? = some node) (member : a ∈ node.args)
    (brings : Input.Brings packet a (emitted packet lives a) input) (fresh : (a, r) ∉ wires)
    (origin : ∀ q, a = .register q → q ∈ opened)
    (wave : Wave m.program lives good packet wires opened t.record.instances)
    (order : InOrder lives (emitted packet lives) ((a, r) :: wires) r node.args) (calm : Calm t.record) :
    Stepped m lives good packet wires opened a r node t (m.call now r (.event input) (Feature.event input) t) := by
  obtain ⟨keeps, others⟩ := m.call_keeps (Steady lives good) now r (.event input) (Feature.event input) calm
    (fun c s working => s.signals_event working input c) (fun c s => s.role?_event input c)
  cases circuit.placed r held with
  | constant found' known args shown =>
    obtain rfl := Option.some.inj (found.symm.trans found')
    rw [args] at member
    cases member
  | call found' varies shown wiring closed free plain =>
    rename_i node' s
    obtain rfl := Option.some.inj (found.symm.trans found')
    have current := wave.held r node s held found shown
    have reads : (m.context t now r).args = node.args := by
      rw [Meter.context, Program.args, Program.node?, found]
    obtain ⟨state, answer⟩ := wiring.steps reads member fresh brings (wave.order r node held found) order
    rw [m.call_eq current] at keeps others ⊢
    refine ⟨⟨?_, ?_, ?_⟩, ?_, keeps⟩
    · intro q node' s' held' found'' shown'
      by_cases here : q = r
      · subst here
        obtain rfl := Option.some.inj (found.symm.trans found'')
        obtain rfl : s = s' := by
          rw [shown] at shown'
          injection shown' with same
          exact Option.some.inj same
        exact (getElem?_setInstance current _).trans (congrArg (some ∘ some) state)
      · refine ((others q here).trans (wave.held q node' s' held' found'' shown')).trans ?_
        congr 4
        refine List.map_congr_left fun arg _ => ?_
        rw [arrived, arrived]
        simp [here]
    · intro q node' held' found''
      by_cases here : q = r
      · subst here
        obtain rfl := Option.some.inj (found.symm.trans found'')
        exact order
      · intro condition source args selects used heard
        refine List.mem_cons_of_mem _ (wave.order q node' held' found'' condition source args selects ?_ heard)
        exact (List.mem_cons.mp used).resolve_left fun same => here (Prod.ext_iff.mp same).2
    · intro q node' held' found'' outside d reader good' foundReader reads'
      obtain ⟨here, outside⟩ := not_or.mp fun either => outside (List.mem_cons.mpr either)
      have passed := wave.passed q node' held' found'' outside d reader good' foundReader reads'
      have other : (Argument.register q, d) ≠ (a, r) := fun same =>
        outside (origin q (Prod.ext_iff.mp same).1.symm)
      have complete : Complete (emitted packet lives) ((a, r) :: wires) q node'.args ↔
          Complete (emitted packet lives) wires q node'.args := by
        refine forall_congr' fun arg => forall_congr' fun _ => forall_congr' fun _ => ?_
        rw [List.mem_cons]
        exact or_iff_right fun same => here (Prod.ext_iff.mp same).2
      rw [complete, ← passed, List.mem_cons]
      exact or_iff_right other
    · exact answer.trans (by rw [Circuit.emitted_call shown])

private theorem Circuit.varies (circuit : Circuit m.program lives good) {r : Nat} {a : Argument} {node : Node Instance}
    (held : good r) (found : m.program.nodes[r]? = some node) (member : a ∈ node.args) : node.constant = none := by
  cases circuit.placed r held with
  | constant found' known args shown =>
    obtain rfl := Option.some.inj (found.symm.trans found')
    rw [args] at member
    cases member
  | call found' varies shown wiring closed free plain =>
    obtain rfl := Option.some.inj (found.symm.trans found')
    exact varies

private theorem Circuit.not_steady {r : Nat} (sounds : emitted packet lives (.register r) ≠ .nothing) : ¬Steady lives good r :=
  fun steady => sounds (steady.2.emission_flow packet)

theorem mem_dependents_of_reads {p : Program Instance φ} {r d : Nat} {node reader : Node Instance}
    (found : p.nodes[r]? = some node) (varies : node.constant = none) (found' : p.nodes[d]? = some reader)
    (reads : .register r ∈ reader.args) : d ∈ p.dependents r := by
  refine Program.mem_dependents.mpr ⟨?_, (List.getElem?_eq_some_iff.mp found').1, Program.mem_arguments.mpr ⟨_, found', reads⟩⟩
  rw [Program.isConstant, Program.node?, found]
  exact Option.isSome_eq_false_iff.mpr (Option.isNone_iff_eq_none.mpr varies)

/-- A delivery to a register of a circuit carries the wave of a packet on. -/
theorem deliver_inside (circuit : Circuit m.program lives good) (now : Int64) (fuel r : Nat)
    (enough : m.program.size - r ≤ fuel) :
    Delivers m lives good packet (m.deliver now (some packet) fuel) r := by
  induction fuel generalizing r with
  | zero =>
    intro a node input t wires opened held found
    have inside : r < m.program.size := (List.getElem?_eq_some_iff.mp found).1
    omega
  | succ fuel ih =>
    intro a node input t wires opened held found member brings fresh origin above wave order calm
    have outside : r ∉ opened := fun inside => Nat.lt_irrefl r (above r inside)
    have own : a ≠ .register r := by
      rintro rfl
      exact Nat.lt_irrefl r (circuit.ordered r node found _ member)
    have unused : ∀ d reader, good d → m.program.nodes[d]? = some reader → .register r ∈ reader.args →
        (.register r, d) ∉ (a, r) :: wires := by
      intro d reader good' found' reads used
      rcases List.mem_cons.mp used with same | used
      · exact own (Prod.ext_iff.mp same).1.symm
      · exact fresh (((wave.passed r node held found outside d reader good' found' reads).mp used).1 a member
          (isHeard_of_brings brings))
    have stepped := call_steps circuit now held found member brings fresh origin wave order calm
    rw [Meter.deliver]
    generalize m.call now r (.event input) (Feature.event input) t = called at stepped
    obtain ⟨t₁, e⟩ := called
    have answer : e = if Complete (emitted packet lives) ((a, r) :: wires) r node.args then
        emitted packet lives (.register r) else .nothing := stepped.answer
    have speaks (sounds : e ≠ .nothing) : Complete (emitted packet lives) ((a, r) :: wires) r node.args ∧
        e = emitted packet lives (.register r) := by
      split at answer
      next complete => exact ⟨complete, answer⟩
      next => exact absurd answer sounds
    -- Nobody hears the emission: the register is closed at once.
    have silent (unheard : e.isHeard = false) (t₂ : Turn Instance φ) (same : t₂.record.instances = t₁.record.instances)
        (keeps : Keeps (Steady lives good) t t₂) :
        ∃ wires', Wave m.program lives good packet wires' opened t₂.record.instances ∧ Passes wires wires' a r ∧
          Keeps (Steady lives good) t t₂ := by
      refine ⟨(a, r) :: wires, same ▸ stepped.wave.close rfl ?_, ⟨fun w member => List.mem_cons_of_mem _ member,
        List.mem_cons_self, fun w member => ?_⟩, keeps⟩
      · intro node' held' found' d reader good' found'' reads
        obtain rfl := Option.some.inj (found.symm.trans found')
        refine iff_of_false (unused d reader good' found'' reads) ?_
        rintro ⟨complete, heard⟩
        rw [if_pos complete] at answer
        rw [← answer, unheard] at heard
        cases heard
      · exact (List.mem_cons.mp member).elim (fun same => .inr (.inl same)) .inl
    -- The emission is heard: the register stays open until all its readers have got it.
    have spreads (input : Input) (brings : Input.Brings packet (.register r) (emitted packet lives (.register r)) input)
        (complete : Complete (emitted packet lives) ((a, r) :: wires) r node.args)
        (t₂ : Turn Instance φ) (same : t₂.record.instances = t₁.record.instances) (keeps : Keeps (Steady lives good) t t₂) :
        ∃ wires', Wave m.program lives good packet wires' opened
            ((m.program.dependents r).foldl (fun t d => m.deliver now (some packet) fuel d input t) t₂).record.instances ∧
          Passes wires wires' a r ∧ Keeps (Steady lives good) t
            ((m.program.dependents r).foldl (fun t d => m.deliver now (some packet) fuel d input t) t₂) := by
      have varies := circuit.varies held found member
      have readers : ∀ d ∈ m.program.dependents r, ∃ node, m.program.nodes[d]? = some node ∧ .register r ∈ node.args :=
        fun d member => Program.mem_arguments.mp (Program.mem_dependents.mp member).2.2
      obtain ⟨wires', wave', kept, later, used, keeps'⟩ := spread circuit (m.deliver now (some packet) fuel) (.register r) input
        ((a, r) :: wires) (r :: opened) (t := t₂) (m.program.dependents_ascending r) (fun d member _ => readers d member)
        (fun d member => ih d (by
          have larger := circuit.ordered.lt_of_dependent member
          omega))
        (fun d input t outside calm => deliver_outside circuit now (some packet) outside calm) brings
        (fun q same => Argument.register.inj same ▸ List.mem_cons_self)
        (fun q inside => ⟨r, rfl, (List.mem_cons.mp inside).elim Nat.le_of_eq fun inside => Nat.le_of_lt (above q inside)⟩)
        (fun d member held' used => by
          obtain ⟨reader, found', reads⟩ := readers d member
          exact unused d reader held' found' reads used)
        (fun d reader held' found' reads missing => absurd (mem_dependents_of_reads found varies found' reads) missing)
        (same ▸ stepped.wave) keeps.calm
      refine ⟨wires', wave'.close rfl ?_, ⟨fun w member => kept w (List.mem_cons_of_mem _ member),
        kept _ List.mem_cons_self, fun w member => ?_⟩, keeps.trans keeps'⟩
      · intro node' held' found' d reader good' found'' reads
        obtain rfl := Option.some.inj (found.symm.trans found')
        exact iff_of_true (used d reader good' found'' reads)
          ⟨fun arg member heard => kept _ (complete arg member heard), isHeard_of_brings brings⟩
      · rcases later w member with member | same | ⟨d, inside, q, beyond, same⟩
        · exact (List.mem_cons.mp member).elim (fun same => .inr (.inl same)) .inl
        · exact .inr (.inr ⟨r, Nat.le_refl r, same⟩)
        · exact .inr (.inr ⟨q, Nat.le_trans (Nat.le_of_lt (circuit.ordered.lt_of_dependent inside)) beyond, same⟩)
    have moving (sounds : e ≠ .nothing) : ¬Steady lives good r :=
      Circuit.not_steady fun silence => sounds ((speaks sounds).2.trans silence)
    cases e with
    | nothing => exact silent rfl t₁ rfl stepped.keeps
    | forward =>
      obtain ⟨complete, same⟩ := speaks (by rintro ⟨⟩)
      exact spreads (.packet packet (.register r)) (same ▸ .forward r) complete t₁ rfl stepped.keeps
    | value v =>
      cases v with
      | none => exact silent rfl (t₁.setValue r none) rfl (stepped.keeps.setValue (moving (by rintro ⟨⟩)) none)
      | some v =>
        obtain ⟨complete, same⟩ := speaks (by rintro ⟨⟩)
        exact spreads (.value v r) (same ▸ .value r v) complete (t₁.setValue r (some v)) rfl
          (stepped.keeps.setValue (moving (by rintro ⟨⟩)) (some v))

end FlowMetering.Library
