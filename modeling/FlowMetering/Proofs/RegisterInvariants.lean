import FlowMetering.Proofs.RecordRounds

/-! Invariants of single registers: what their instances keep to and what values they may have. They need to be shown for
single calls only, and then hold of whole records. -/

namespace FlowMetering

namespace Turn

variable {σ φ : Type} {t : Turn σ φ} {r q : Nat}

/-- A value that a register has after one is written has been written, or the register had it before. -/
theorem value_cases_of_setValue {v : Option Value} {w : Value}
    (stored : (t.setValue r v).record.values[q]? = some (some w)) :
    r = q ∧ v = some w ∨ t.record.values[q]? = some (some w) := by
  rw [setValue, List.getElem?_set] at stored
  split at stored
  next same =>
    split at stored
    · exact .inl ⟨same, Option.some.inj stored⟩
    · cases stored
  next => exact .inr stored

private theorem instance_cases_of_setInstance {s s' : σ}
    (stored : (t.setInstance r s).record.instances[q]? = some (some s')) :
    r = q ∧ s = s' ∨ t.record.instances[q]? = some (some s') := by
  rw [setInstance, List.getElem?_set] at stored
  split at stored
  next same =>
    split at stored
    · exact .inl ⟨same, Option.some.inj (Option.some.inj stored)⟩
    · cases stored
  next => exact .inr stored

end Turn

namespace Meter

variable {σ φ : Type} {m : Meter σ φ}

def Sound (holds : Nat → σ → Prop) (gives : Nat → Value → Prop) : Picture σ := fun instances values =>
  (∀ (r : Nat) s, instances[r]? = some (some s) → holds r s) ∧
    ∀ (r : Nat) v, values[r]? = some (some v) → gives r v

/-- What an instance sees is its own arguments, and values that registers may have. -/
structure Sees (m : Meter σ φ) (gives : Nat → Value → Prop) (c : Context) : Prop where
  args : c.args = m.program.args c.register
  values : ∀ (q : Nat) v, c.values[q]? = some (some v) → gives q v

theorem Sees.mono {gives gives' : Nat → Value → Prop} {c : Context} (sees : m.Sees gives c)
    (weaker : ∀ q v, gives q v → gives' q v) : m.Sees gives' c :=
  ⟨sees.args, fun q v held => weaker q v (sees.values q v held)⟩

/-- An answer after which the instance is in order still, with a value that its register may have. -/
structure Answers (holds : Nat → σ → Prop) (gives : Nat → Value → Prop) (r : Nat) (answer : σ × Reaction) : Prop where
  holds : holds r answer.1
  gives : ∀ v, answer.2.emission = .value (some v) → gives r v

variable [Feature σ]

/-- Single calls leave instances in order and give values that registers may have. -/
structure Safe (m : Meter σ φ) (allowed : Packet → Prop) (holds : Nat → σ → Prop) (gives : Nat → Value → Prop) :
    Prop where
  make : ∀ (r : Nat) node build, m.program.nodes[r]? = some node → node.build? = some build → holds r (build node.kind)
  constant : ∀ (r : Nat) node v, m.program.nodes[r]? = some node → node.constant = some v → gives r v
  start : ∀ c s, m.Sees gives c → holds c.register s → Answers holds gives c.register (Feature.start c s)
  packet : ∀ p source c s, allowed p → m.Sees gives c → holds c.register s →
    Answers holds gives c.register (Feature.event (.packet p source) c s)
  value : ∀ v q c s, c.register ∈ m.program.dependents q → gives q v → m.Sees gives c → holds c.register s →
    Answers holds gives c.register (Feature.event (.value v q) c s)
  finishEvent : ∀ r s, holds r s → holds r (Feature.finishEvent s).1
  stop : ∀ reason c s, m.Sees gives c → holds c.register s →
    Answers holds gives c.register (Feature.stop reason c s)

section Registers

variable {allowed : Packet → Prop} {holds : Nat → σ → Prop} {gives : Nat → Value → Prop}

omit [Feature σ] in
theorem Sound.setValue {t : Turn σ φ} (sound : t.Shows (Sound holds gives)) (r : Nat) {v : Option Value}
    (given : ∀ w, v = some w → gives r w) : (t.setValue r v).Shows (Sound holds gives) := by
  refine ⟨sound.1, fun q w stored => ?_⟩
  rcases Turn.value_cases_of_setValue stored with ⟨rfl, written⟩ | stored
  · exact given w written
  · exact sound.2 q w stored

omit [Feature σ] in
theorem Sound.setInstance {t : Turn σ φ} (sound : t.Shows (Sound holds gives)) {r : Nat} {s : σ} (held : holds r s) :
    (t.setInstance r s).Shows (Sound holds gives) := by
  refine ⟨fun q s' stored => ?_, sound.2⟩
  rcases Turn.instance_cases_of_setInstance stored with ⟨rfl, rfl⟩ | stored
  · exact held
  · exact sound.1 q s' stored

omit [Feature σ] in
theorem Sound.call {t : Turn σ φ} (sound : t.Shows (Sound holds gives)) (now : Int64) (r : Nat) (phase : Phase)
    {answer : Context → σ → σ × Reaction}
    (answers : ∀ c s, m.Sees gives c → c.register = r → holds r s → Answers holds gives r (answer c s)) :
    (m.call now r phase answer t).1.Shows (Sound holds gives) ∧
      ∀ v, (m.call now r phase answer t).2 = .value (some v) → gives r v := by
  rw [Meter.call]
  split
  next s found =>
    have answered := answers (m.context t now r) s ⟨rfl, sound.2⟩ rfl (sound.1 r s found)
    exact ⟨Sound.setInstance sound answered.holds, answered.gives⟩
  next => exact ⟨sound, by rintro v ⟨⟩⟩

omit [Feature σ] in
private theorem Sound.propagate {next : Nat → Input → Turn σ φ → Turn σ φ} {packet : Option Packet} {r : Nat}
    (packets : ∀ p, packet = some p → ∀ d (t : Turn σ φ), t.Shows (Sound holds gives) →
      (next d (.packet p (.register r)) t).Shows (Sound holds gives))
    (values : ∀ v, gives r v → ∀ d ∈ m.program.dependents r, ∀ t : Turn σ φ, t.Shows (Sound holds gives) →
      (next d (.value v r) t).Shows (Sound holds gives))
    {t : Turn σ φ} (sound : t.Shows (Sound holds gives)) {emission : Emission}
    (given : ∀ v, emission = .value (some v) → gives r v) :
    (m.propagate next packet r t emission).Shows (Sound holds gives) := by
  cases emission with
  | nothing => exact sound
  | value v =>
    cases v with
    | none => exact Sound.setValue sound r nofun
    | some v =>
      have held := given v rfl
      refine Turn.shows_foldl (values v held) (Sound.setValue sound r ?_)
      rintro w ⟨⟩
      exact held
  | forward =>
    cases packet with
    | none => exact sound
    | some p => exact Turn.shows_foldl (fun d _ => packets p rfl d) sound

private theorem Safe.deliver (safe : m.Safe allowed holds gives) (now : Int64) {packet : Option Packet}
    (fine : ∀ p, packet = some p → allowed p) (fuel r : Nat) {input : Input}
    (suits : ∀ c s, m.Sees gives c → c.register = r → holds r s → Answers holds gives r (Feature.event input c s))
    {t : Turn σ φ} (sound : t.Shows (Sound holds gives)) :
    (m.deliver now packet fuel r input t).Shows (Sound holds gives) := by
  induction fuel generalizing r input t with
  | zero => exact sound
  | succ fuel ih =>
    obtain ⟨kept, given⟩ := Sound.call sound now r (.event input) suits
    refine Sound.propagate (fun p same d t sound => ih d ?_ sound) (fun v held d reads t sound => ih d ?_ sound) kept given
    · rintro c s sees rfl held
      exact safe.packet p _ c s (fine p same) sees held
    · rintro c s sees rfl own
      exact safe.value v r c s reads held sees own

private theorem Safe.dispatch (safe : m.Safe allowed holds gives) {packet : Packet} (fine : allowed packet) (r : Nat) {t : Turn σ φ}
    (sound : t.Shows (Sound holds gives)) :
    (m.dispatch packet.time (some packet) r (.packet packet .flow) t).Shows (Sound holds gives) := by
  refine safe.deliver packet.time ?_ _ r ?_ sound
  · rintro p ⟨⟩
    exact fine
  · rintro c s sees rfl held
    exact safe.packet packet _ c s fine sees held

/-- An invariant of single registers is one of whole records. -/
theorem Safe.rounds (safe : m.Safe allowed holds gives) :
    m.Rounds allowed (Sound holds gives) (Sound holds gives) (Sound holds gives) where
  make := by
    refine ⟨fun r s stored => ?_, fun r v stored => ?_⟩
    · rw [Meter.make, List.getElem?_map] at stored
      obtain ⟨node, found, started⟩ := Option.map_eq_some_iff.mp stored
      obtain ⟨build, built, rfl⟩ := Option.map_eq_some_iff.mp started
      exact safe.make r node build found built
    · rw [Meter.make, List.getElem?_map] at stored
      obtain ⟨node, found, known⟩ := Option.map_eq_some_iff.mp stored
      exact safe.constant r node v found known
  start now t shown := by
    have instances : ∀ (r : Nat) s, t.record.instances[r]? = some (some s) → holds r s :=
      shown.elim And.left And.left
    refine Turn.shows_foldl (fun r _ t sound => ?_) ⟨instances, fun r v stored => ?_⟩
    · have called := Sound.call sound now r .start fun c s sees same held => by
        subst same
        exact safe.start c s sees held
      rw [startOne]
      split
      next t' v same =>
        rw [same] at called
        exact Sound.setValue called.1 r fun w same => called.2 w (congrArg Emission.value same)
      next t' emission same =>
        rw [same] at called
        exact called.1
    · dsimp only at stored
      rw [List.getElem?_map] at stored
      obtain ⟨node, found, known⟩ := Option.map_eq_some_iff.mp stored
      exact safe.constant r node v found known
  control packet r t fine _ sound := safe.dispatch fine r sound
  deliver packet t fine sound := by
    refine shows_deliverPacket (fun r _ t sound => safe.dispatch fine r sound) (fun r t sound => ?_) sound
    rw [finishEventOne]
    split
    next s found => exact Sound.setInstance sound (safe.finishEvent r s (sound.1 r s found))
    next => exact sound
  finish reason time t sound := by
    refine Turn.shows_foldl (fun r _ t sound => ?_) sound
    obtain ⟨kept, given⟩ := Sound.call sound time r (.stop reason) fun c s sees same held => by
      subst same
      exact safe.stop reason c s sees held
    refine Sound.propagate ?_ (fun v held d reads t sound => safe.deliver time ?_ _ d ?_ sound) kept given
    · rintro p ⟨⟩
    · rintro p ⟨⟩
    · rintro c s sees rfl own
      exact safe.value v r c s reads held sees own
  rest _ _ sound := sound

end Registers

end Meter

end FlowMetering
