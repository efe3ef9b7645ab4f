import FlowMetering.Proofs.CalledInstances
import FlowMetering.Proofs.RecordRounds

/-! Packets that registers are given, as the journal has them. The start of a segment clears what has been given, the delivery
of a packet adds what its calls give, and the end of a segment gives no packets to anyone. -/

namespace FlowMetering

def Input.packet? : Input → Option Packet
  | .packet p _ => some p
  | .value _ _ => none

/-- The packets that a register has been given since the segment began, after one more happening. -/
def receiveOne (r : Nat) (packets : List Packet) : Happening → List Packet
  | .segment _ => []
  | .call q (.event input) _ => if q = r then packets ++ input.packet?.toList else packets
  | _ => packets

/-- The packets that a register has been given since the last segment began. -/
def Journal.received (journal : Journal) (r : Nat) : List Packet :=
  journal.foldl (receiveOne r) []

def Happening.isDry : Happening → Bool
  | .segment _ => false
  | .call _ (.event input) _ => input.packet?.isNone
  | _ => true

private theorem Happening.receiveOne_dry {h : Happening} (dry : h.isDry = true) (r : Nat) (packets : List Packet) :
    receiveOne r packets h = packets := by
  cases h with
  | segment => cases dry
  | call q phase remarks =>
    cases phase with
    | event input =>
      have none : input.packet? = none := Option.isNone_iff_eq_none.mp dry
      rw [receiveOne, none, Option.toList_none, List.append_nil, ite_self]
    | _ => rfl
  | _ => rfl

theorem Journal.received_snoc (journal : Journal) (h : Happening) (r : Nat) :
    Journal.received (journal ++ [h]) r = receiveOne r (Journal.received journal r) h :=
  List.foldl_append

theorem Journal.received_dry {past later : Journal} (dry : ∀ h ∈ later, h.isDry = true) (r : Nat) :
    Journal.received (past ++ later) r = Journal.received past r := by
  rw [Journal.received, List.foldl_append]
  refine List.foldlRecOn later (receiveOne r) (motive := (· = Journal.received past r)) rfl ?_
  rintro _ rfl h member
  exact Happening.receiveOne_dry (dry h member) r _

section Dry

variable {σ φ : Type}

def Dry (before after : Turn σ φ) : Prop :=
  ∃ later, after.journal = before.journal ++ later ∧ ∀ h ∈ later, h.isDry = true

namespace Dry

variable {first middle last t : Turn σ φ}

private theorem refl (t : Turn σ φ) : Dry t t :=
  ⟨[], (List.append_nil _).symm, List.forall_mem_nil _⟩

private theorem trans (a : Dry first middle) (b : Dry middle last) : Dry first last := by
  obtain ⟨one, grown, dry⟩ := a
  obtain ⟨other, growing, dry'⟩ := b
  exact ⟨one ++ other, by rw [growing, grown, List.append_assoc], List.forall_mem_append.mpr ⟨dry, dry'⟩⟩

theorem foldl {ι : Type} {step : Turn σ φ → ι → Turn σ φ} (each : ∀ t i, Dry t (step t i)) (is : List ι) (t : Turn σ φ) :
    Dry t (is.foldl step t) :=
  List.foldlRecOn is step (motive := Dry t) (.refl t) fun t' dry i _ => dry.trans (each t' i)

theorem received (dry : Dry first last) (past : Journal) (r : Nat) :
    Journal.received (past ++ last.journal) r = Journal.received (past ++ first.journal) r := by
  obtain ⟨later, grown, dry⟩ := dry
  rw [grown, ← List.append_assoc, Journal.received_dry dry]

private theorem call (m : Meter σ φ) (now : Int64) (r : Nat) {phase : Phase} (dry : ∀ remarks, (Happening.call r phase remarks).isDry)
    (answer : Context → σ → σ × Reaction) (t : Turn σ φ) : Dry t (m.call now r phase answer t).1 := by
  rw [Meter.call]
  split
  · exact ⟨_, rfl, List.forall_mem_singleton.mpr (dry _)⟩
  · exact .refl t

private theorem propagate (m : Meter σ φ) {next : Nat → Input → Turn σ φ → Turn σ φ} (each : ∀ d v q t, Dry t (next d (.value v q) t))
    (r : Nat) (t : Turn σ φ) (e : Emission) : Dry t (m.propagate next none r t e) := by
  have placed (v : Option Value) : Dry t (t.setValue r v) := ⟨[], (List.append_nil _).symm, List.forall_mem_nil _⟩
  cases e with
  | nothing | forward => exact .refl t
  | value v =>
    cases v with
    | none => exact placed none
    | some v => exact (placed (some v)).trans (.foldl (fun t d => each d v r t) (m.program.dependents r) _)

variable [Feature σ]

private theorem deliver (m : Meter σ φ) (now : Int64) (fuel d : Nat) (v : Value) (q : Nat) (t : Turn σ φ) :
    Dry t (m.deliver now none fuel d (.value v q) t) := by
  induction fuel generalizing d v q t with
  | zero => exact .refl t
  | succ fuel ih =>
    have called : Dry t (m.call now d (.event (.value v q)) (Feature.event (.value v q)) t).1 :=
      .call m now d (fun _ => rfl) _ t
    exact called.trans (.propagate m ih d _ _)

theorem stopOne (m : Meter σ φ) (reason : EndReason) (time : Int64) (t : Turn σ φ) (r : Nat) :
    Dry t (m.stopOne reason time t r) := by
  have called : Dry t (m.call time r (.stop reason) (Feature.stop reason) t).1 := .call m time r (fun _ => rfl) _ t
  exact called.trans (.propagate m (fun d => .deliver m time _ d) r _ _)

private theorem startOne (m : Meter σ φ) (now : Int64) (t : Turn σ φ) (r : Nat) : Dry t (m.startOne now t r) := by
  have called : Dry t (m.call now r .start Feature.start t).1 := .call m now r (fun _ => rfl) _ t
  rw [Meter.startOne]
  generalize m.call now r .start Feature.start t = answer at called
  obtain ⟨t', e⟩ := answer
  cases e <;> exact called

private theorem finishEventOne (t : Turn σ φ) (r : Nat) : Dry t (Meter.finishEventOne t r) := by
  rw [Meter.finishEventOne]
  split
  · exact ⟨_, rfl, List.forall_mem_singleton.mpr rfl⟩
  · exact .refl t

end Dry

variable [Feature σ]

/-- When a segment begins, nothing has been given to anyone. -/
theorem Meter.start_received (m : Meter σ φ) (now : Int64) (t : Turn σ φ) (past : Journal) (r : Nat) :
    Journal.received (past ++ (m.start now t).journal) r = [] := by
  let cleared : Turn σ φ := { t.log (.segment now) with
    record := { t.record with values := m.program.nodes.map (·.constant) } }
  have same : Journal.received (past ++ (m.start now t).journal) r = Journal.received (past ++ cleared.journal) r :=
    (Dry.foldl (Dry.startOne m now) (List.range m.program.size) cleared).received past r
  rw [same]
  change Journal.received (past ++ (t.journal ++ [.segment now])) r = []
  rw [← List.append_assoc, Journal.received_snoc]
  rfl

end Dry

namespace Library

variable {φ : Type} {m : Meter Instance φ}

/-- Some calls follow their inputs, and the journal has those inputs that are packets. -/
structure Conveys (p : Program Instance φ) (calls : List Call) (before after : Turn Instance φ) : Prop where
  follows : Follows p calls before after
  received : ∀ r s, before.record.instances[r]? = some (some s) → ∀ past, Journal.received (past ++ after.journal) r =
    Journal.received (past ++ before.journal) r ++ (Call.inputs calls r).filterMap Input.packet?

namespace Conveys

variable {p : Program Instance φ} {first middle last : Turn Instance φ} {one other : List Call}

private theorem of_record (record : last.record.instances = first.record.instances) (journal : last.journal = first.journal) :
    Conveys p [] first last :=
  ⟨.of_instances record, fun r s _ past => by rw [journal]; exact (List.append_nil _).symm⟩

private theorem trans (a : Conveys p one first middle) (b : Conveys p other middle last) : Conveys p (one ++ other) first last := by
  refine ⟨a.follows.trans b.follows, fun r s held past => ?_⟩
  rw [b.received r _ (a.follows.held r s held).1, a.received r s held, Call.inputs_append, List.filterMap_append,
    List.append_assoc]

private theorem along {ι : Type} {step : Turn Instance φ → ι → Turn Instance φ} {tell : Turn Instance φ → ι → List Call}
    (each : ∀ t i, Conveys p (tell t i) t (step t i)) (is : List ι) (t : Turn Instance φ) :
    Conveys p (FlowMetering.along step tell t is) t (is.foldl step t) := by
  induction is generalizing t with
  | nil => exact .of_record rfl rfl
  | cons i is ih => exact (each t i).trans (ih (step t i))

private theorem call (now : Int64) (r : Nat) (input : Input) (t : Turn Instance φ) :
    Conveys m.program [⟨r, input, (m.call now r (.event input) (Feature.event input) t).2⟩] t
      (m.call now r (.event input) (Feature.event input) t).1 := by
  refine ⟨.call now r input t, fun q s held past => ?_⟩
  generalize (m.call now r (.event input) (Feature.event input) t).2 = e
  have single : Call.inputs [⟨r, input, e⟩] q = if r = q then [input] else [] := by
    by_cases here : r = q <;> simp [Call.inputs, here]
  rw [single]
  rcases t.idle_or_held r with idle | ⟨s', held'⟩
  · rw [Meter.call_idle idle, if_neg]
    · exact (List.append_nil _).symm
    · rintro rfl
      exact idle s held
  · rw [Meter.call_eq held']
    change Journal.received (past ++ (t.journal ++ [.call r (.event input) _])) q = _
    rw [← List.append_assoc, Journal.received_snoc, receiveOne]
    split
    · cases input <;> rfl
    · exact (List.append_nil _).symm

private theorem calls (packet : Packet) (fuel r : Nat) (input : Input) (t : Turn Instance φ) :
    Conveys m.program (m.calls packet fuel r input t) t (m.deliver packet.time (some packet) fuel r input t) := by
  induction fuel generalizing r input t with
  | zero => exact .of_record rfl rfl
  | succ fuel ih =>
    have called := Conveys.call (m := m) packet.time r input t
    rw [Meter.calls, Meter.deliver]
    generalize m.call packet.time r (.event input) (Feature.event input) t = answer at called
    obtain ⟨t', e⟩ := answer
    have stored : Conveys m.program [] t' (t'.store r e) := .of_record (by cases e <;> rfl) (by cases e <;> rfl)
    dsimp only
    rw [Meter.propagate_eq]
    exact called.trans (stored.trans (.along (fun t (w : Nat × Input) => ih w.1 w.2 t) _ _))

end Conveys

/-- The journal of a delivery has the packets that an instance is given. -/
theorem deliverPacket_received (packet : Packet) {t : Turn Instance φ} {r : Nat} {s : Instance}
    (held : t.record.instances[r]? = some (some s)) (past : Journal) :
    Journal.received (past ++ (m.deliverPacket packet t).journal) r =
      Journal.received (past ++ t.journal) r ++ (Call.inputs (m.deliveryCalls packet t) r).filterMap Input.packet? := by
  have delivered : Conveys m.program (m.deliveryCalls packet t) t
      (m.program.events.foldl (fun t r => m.dispatch packet.time (some packet) r (.packet packet .flow) t) t) :=
    .along (fun t r => .calls packet _ r _ t) _ _
  rw [← delivered.received r s held past]
  exact (Dry.foldl Dry.finishEventOne (List.range m.program.size) _).received past r

end Library

end FlowMetering
