import FlowMetering.Proofs.DeliveryCalls
import FlowMetering.Proofs.LifeCycleRuns
import FlowMetering.Proofs.PacketWaves

/-! The signals that are heard while a record is given a packet. Each call of an instance is heard with its whole reaction, in
the order of the calls and however deep they nest; the journal and the collected signals are those of the calls that have been
heard, and nothing else. -/

namespace FlowMetering

variable {σ φ : Type}

namespace Signal

def FirstStop (signals : List Signal) (reason : EndReason) : Prop :=
  ∃ before after, signals = before ++ .stop reason :: after ∧ ∀ other, .stop other ∉ before

def LastExport (signals : List Signal) (reason : EndReason) (time : Int64) : Prop :=
  ∃ before after, signals = before ++ .export reason time :: after ∧ ∀ other time', .export other time' ∉ after

variable {signals : List Signal} {reason : EndReason} {time : Int64}

theorem stopReason?_eq_none : stopReason? signals = none ↔ ∀ reason, .stop reason ∉ signals := by
  rw [stopReason?, List.findSome?_eq_none_iff]
  constructor
  · intro silent reason member
    cases silent _ member
  · intro absent signal member
    cases signal <;> simp_all

theorem stopReason?_eq_some : stopReason? signals = some reason ↔ FirstStop signals reason := by
  rw [stopReason?, List.findSome?_eq_some_iff]
  constructor
  · intro ⟨before, signal, after, split, raised, silent⟩
    obtain rfl : signal = .stop reason := by cases signal <;> simp_all
    refine ⟨before, after, split, ?_⟩
    intro other member
    cases silent _ member
  · intro ⟨before, after, split, absent⟩
    refine ⟨before, .stop reason, after, split, rfl, ?_⟩
    intro signal member
    cases signal <;> simp_all

theorem export?_eq_none : export? signals = none ↔ ∀ reason time, .export reason time ∉ signals := by
  rw [export?, List.findSome?_eq_none_iff]
  constructor
  · intro silent reason time member
    cases silent _ (List.mem_reverse.mpr member)
  · intro absent signal member
    cases signal <;> simp_all

theorem export?_eq_some : export? signals = some (reason, time) ↔ LastExport signals reason time := by
  rw [export?, List.findSome?_eq_some_iff]
  constructor
  · intro ⟨before, signal, after, split, raised, silent⟩
    obtain rfl : signal = .export reason time := by cases signal <;> simp_all
    refine ⟨after.reverse, before.reverse, by simpa using congrArg List.reverse split, ?_⟩
    intro other time' member
    cases silent _ (List.mem_reverse.mp member)
  · intro ⟨before, after, split, absent⟩
    refine ⟨after.reverse, .export reason time, before.reverse, by simp [split], rfl, ?_⟩
    intro signal member
    cases signal <;> simp_all

theorem restarts_iff : restarts signals = true ↔ .restart ∈ signals :=
  List.contains_iff_mem

theorem FirstStop.append_left (first : FirstStop signals reason) {earlier : List Signal} (none : ∀ other, .stop other ∉ earlier) :
    FirstStop (earlier ++ signals) reason := by
  obtain ⟨before, after, rfl, absent⟩ := first
  refine ⟨earlier ++ before, after, by simp, ?_⟩
  intro other member
  rcases List.mem_append.mp member with member | member
  · exact none other member
  · exact absent other member

end Signal

/-- A call of an instance for an input, with its reaction. -/
structure Heard where
  register : Nat
  input : Input
  reaction : Reaction

namespace Heard

def happening (heard : Heard) : Happening :=
  .call heard.register (.event heard.input) heard.reaction.remarks

def call (heard : Heard) : Call :=
  ⟨heard.register, heard.input, heard.reaction.emission⟩

def signals (heard : List Heard) : List Signal :=
  heard.flatMap (·.reaction.signals)

@[simp] theorem signals_append (one other : List Heard) : signals (one ++ other) = signals one ++ signals other :=
  List.flatMap_append

end Heard

namespace Meter

variable {m : Meter σ φ} [Feature σ]

/-- A turn after the instance of a register has reacted to an input. What it has emitted stays in the register. -/
def heed (t : Turn σ φ) (r : Nat) (input : Input) (answer : σ × Reaction) : Turn σ φ :=
  (((t.setInstance r answer.1).raise answer.2.signals).log (.call r (.event input) answer.2.remarks)).store r answer.2.emission

/-- One turn leads to another by the calls that are heard. Each instance that is called is the one that the record holds by
then, and reacts to what it sees by then. -/
inductive Hears (m : Meter σ φ) (now : Int64) : Turn σ φ → List Heard → Turn σ φ → Prop
  | done (t : Turn σ φ) : Hears m now t [] t
  | call {t last : Turn σ φ} {r : Nat} {s : σ} {input : Input} {answer : σ × Reaction} {heard : List Heard}
    (held : t.record.instances[r]? = some (some s)) (answered : Feature.event input (m.context t now r) s = answer)
    (rest : Hears m now (heed t r input answer) heard last) : Hears m now t (⟨r, input, answer.2⟩ :: heard) last

omit [Feature σ] in
private theorem heed_spares (t : Turn σ φ) (r : Nat) (input : Input) (answer : σ × Reaction) :
    (heed t r input answer).record.active = t.record.active ∧
      (heed t r input answer).record.instances = t.record.instances.set r (some answer.1) ∧
      (heed t r input answer).signals = t.signals ++ answer.2.signals ∧
      (heed t r input answer).journal = t.journal ++ [.call r (.event input) answer.2.remarks] := by
  rw [heed]
  cases answer.2.emission <;> exact ⟨rfl, rfl, rfl, rfl⟩

namespace Hears

variable {now : Int64} {t middle last : Turn σ φ} {heard one other : List Heard}

theorem trans (first : m.Hears now t one middle) (second : m.Hears now middle other last) :
    m.Hears now t (one ++ other) last := by
  induction first with
  | done t => exact second
  | call held answered rest ih => exact .call held answered (ih second)

theorem journal (hears : m.Hears now t heard last) : last.journal = t.journal ++ heard.map (·.happening) := by
  induction hears with
  | done t => simp
  | call held answered rest ih => simp [ih, heed_spares, Heard.happening]

theorem signals (hears : m.Hears now t heard last) : last.signals = t.signals ++ Heard.signals heard := by
  induction hears with
  | done t => simp [Heard.signals]
  | call held answered rest ih => simp [ih, heed_spares, Heard.signals]

theorem active (hears : m.Hears now t heard last) : last.record.active = t.record.active := by
  induction hears with
  | done t => rfl
  | call held answered rest ih => simp [ih, heed_spares]

theorem fits (hears : m.Hears now t heard last) (fits : m.Fits t.record) : m.Fits last.record := by
  induction hears with
  | done t => exact fits
  | @call t last r s input answer heard held answered rest ih =>
    apply ih
    rw [Fits, (heed_spares t r input answer).2.1]
    exact fits.setInstance answer.1 held

end Hears

def answers (m : Meter σ φ) (call : Call) : Bool :=
  call.register ∈ m.built

private theorem foldl_hears {ι : Type} {now : Int64} {step : Turn σ φ → ι → Turn σ φ} {tell : Turn σ φ → ι → List Call}
    (is : List ι) (each : ∀ i ∈ is, ∀ t, m.Fits t.record → ∃ heard, m.Hears now t heard (step t i) ∧
      heard.map (·.call) = (tell t i).filter m.answers) {t : Turn σ φ} (fits : m.Fits t.record) :
    ∃ heard, m.Hears now t heard (is.foldl step t) ∧ heard.map (·.call) = (along step tell t is).filter m.answers := by
  induction is generalizing t with
  | nil => exact ⟨[], .done t, rfl⟩
  | cons i is ih =>
    rw [List.forall_mem_cons] at each
    obtain ⟨one, first, told⟩ := each.1 t fits
    obtain ⟨other, rest, told'⟩ := ih each.2 (first.fits fits)
    exact ⟨one ++ other, first.trans rest, by simp [along, told, told']⟩

variable (packet : Packet)

theorem deliver_hears (fuel r : Nat) (input : Input) {t : Turn σ φ} (fits : m.Fits t.record) :
    ∃ heard, m.Hears packet.time t heard (m.deliver packet.time (some packet) fuel r input t) ∧
      heard.map (·.call) = (m.calls packet fuel r input t).filter m.answers := by
  induction fuel generalizing r input t with
  | zero => exact ⟨[], .done t, rfl⟩
  | succ fuel ih =>
    rw [deliver, calls]
    rcases t.idle_or_held r with idle | ⟨s, held⟩
    · rw [call_idle idle]
      refine ⟨[], .done t, ?_⟩
      simp [along, sent, Emission.input?, answers, fits.not_mem_built idle]
    · have present : r ∈ m.built := fits.mem_built.mpr ⟨s, held⟩
      rw [call_eq held]
      dsimp only
      rw [propagate_eq]
      generalize answered : Feature.event input (m.context t packet.time r) s = answer
      have first : m.Hears packet.time t [⟨r, input, answer.2⟩] (heed t r input answer) := .call held answered (.done _)
      obtain ⟨heard, rest, told⟩ := foldl_hears (m := m) (m.sent packet r answer.2.emission)
        (fun w _ t fits => ih w.1 w.2 fits) (first.fits fits)
      refine ⟨⟨r, input, answer.2⟩ :: heard, first.trans rest, ?_⟩
      rw [List.map_cons, told, List.filter_cons_of_pos (by simpa [answers] using present)]
      rfl

/-- What is heard while a packet is delivered are its calls, as far as the registers have instances. -/
theorem delivery_hears {t : Turn σ φ} (fits : m.Fits t.record) :
    ∃ heard, m.Hears packet.time t heard
        (m.program.events.foldl (fun t r => m.dispatch packet.time (some packet) r (.packet packet .flow) t) t) ∧
      heard.map (·.call) = (m.deliveryCalls packet t).filter m.answers :=
  foldl_hears _ (fun r _ _ fits => deliver_hears packet _ r _ fits) fits

end Meter

end FlowMetering
