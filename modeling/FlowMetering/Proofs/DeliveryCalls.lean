import FlowMetering.Proofs.RegisterOrder
import FlowMetering.Record
import Mathlib.Data.List.Nodup

/-! The calls of a delivery. A packet is given to the registers that read it, and what a register emits is given to its
dependents, one call inside of the other. Nothing gets lost on the way and nothing comes up from nowhere: what a register is
given is the packet or what some call has emitted, each of them once. -/

namespace FlowMetering

/-- A call of an instance in the course of a delivery: what it is given and what it emits. -/
structure Call where
  register : Nat
  input : Input
  emission : Emission

namespace Call

def inputs (calls : List Call) (r : Nat) : List Input :=
  calls.filterMap fun call => if call.register = r then some call.input else none

def emissions (calls : List Call) (r : Nat) : List Emission :=
  calls.filterMap fun call => if call.register = r then some call.emission else none

def arrival (call : Call) : Nat × Input :=
  (call.register, call.input)

theorem mem_emissions {calls : List Call} {r : Nat} {e : Emission} :
    e ∈ emissions calls r ↔ ∃ call ∈ calls, call.register = r ∧ call.emission = e := by
  simp [emissions]

theorem inputs_append (one other : List Call) (r : Nat) : inputs (one ++ other) r = inputs one r ++ inputs other r :=
  List.filterMap_append

theorem emissions_append (one other : List Call) (r : Nat) :
    emissions (one ++ other) r = emissions one r ++ emissions other r :=
  List.filterMap_append

end Call

namespace Emission

def speaks : Emission → Bool
  | .nothing => false
  | .value _ | .forward => true

/-- What the dependents of a register are given of what it emits for a packet. -/
def input? (packet : Packet) (r : Nat) : Emission → Option Input
  | .nothing | .value none => none
  | .value (some v) => some (.value v r)
  | .forward => some (.packet packet (.register r))

variable {packet : Packet} {r : Nat} {e : Emission} {input : Input}

theorem source_of_input? (sent : e.input? packet r = some input) : input.source = .register r ∧ e.speaks = true := by
  cases e with
  | nothing => cases sent
  | forward => cases sent; exact ⟨rfl, rfl⟩
  | value v =>
    cases v with
    | none => cases sent
    | some v => cases sent; exact ⟨rfl, rfl⟩

theorem input?_eq_value {q : Nat} {v : Value} : e.input? packet r = some (.value v q) ↔ q = r ∧ e = .value (some v) := by
  cases e with
  | nothing => simp [input?]
  | forward => simp [input?]
  | value v' =>
    cases v' with
    | none => simp [input?]
    | some v' => simp [input?, and_comm, eq_comm]

theorem input?_eq_packet {p : Packet} {source : Source} :
    e.input? packet r = some (.packet p source) ↔ p = packet ∧ source = .register r ∧ e = .forward := by
  cases e with
  | nothing => simp [input?]
  | forward => simp [input?, eq_comm]
  | value v => cases v <;> simp [input?]

end Emission

def Turn.store {σ φ : Type} (t : Turn σ φ) (r : Nat) : Emission → Turn σ φ
  | .value v => t.setValue r v
  | .nothing | .forward => t

def along {τ ι κ : Type} (step : τ → ι → τ) (tell : τ → ι → List κ) : τ → List ι → List κ
  | _, [] => []
  | t, i :: is => tell t i ++ along step tell (step t i) is

private theorem along_perm {τ ι κ α : Type} {step : τ → ι → τ} {tell : τ → ι → List κ} {arrival : κ → α} {sent : κ → List α}
    (first : ι → α) {is : List ι}
    (each : ∀ i ∈ is, ∀ t, ((tell t i).map arrival).Perm (first i :: (tell t i).flatMap sent)) (t : τ) :
    ((along step tell t is).map arrival).Perm (is.map first ++ (along step tell t is).flatMap sent) := by
  induction is generalizing t with
  | nil => exact .nil
  | cons i is ih =>
    rw [List.forall_mem_cons] at each
    simp only [along, List.map_append, List.flatMap_append, List.map_cons]
    apply ((each.1 t).append (ih each.2 (step t i))).trans
    apply List.Perm.cons
    apply List.perm_append_comm_assoc

namespace Meter

variable {σ φ : Type} {m : Meter σ φ}

/-- Who is given what of an emission. -/
def sent (m : Meter σ φ) (packet : Packet) (r : Nat) (e : Emission) : List (Nat × Input) :=
  match e.input? packet r with
  | some input => (m.program.dependents r).map (·, input)
  | none => []

def handed (m : Meter σ φ) (packet : Packet) (r : Nat) (call : Call) : List Input :=
  if r ∈ m.program.dependents call.register then (call.emission.input? packet call.register).toList else []

theorem propagate_eq (m : Meter σ φ) (next : Nat → Input → Turn σ φ → Turn σ φ) (packet : Packet) (r : Nat)
    (t : Turn σ φ) (e : Emission) :
    m.propagate next (some packet) r t e = (m.sent packet r e).foldl (fun t w => next w.1 w.2 t) (t.store r e) := by
  cases e with
  | nothing => rfl
  | forward => simp [propagate, sent, Emission.input?, Turn.store, List.foldl_map]
  | value v => cases v <;> simp [propagate, sent, Emission.input?, Turn.store, List.foldl_map]

private theorem mem_sent {packet : Packet} {r d : Nat} {e : Emission} {input : Input} :
    (d, input) ∈ m.sent packet r e ↔ d ∈ m.program.dependents r ∧ e.input? packet r = some input := by
  unfold sent
  cases e.input? packet r <;> simp [eq_comm]

private theorem mem_handed {packet : Packet} {r : Nat} {call : Call} {input : Input} :
    input ∈ m.handed packet r call ↔
      r ∈ m.program.dependents call.register ∧ call.emission.input? packet call.register = some input := by
  unfold handed
  by_cases reads : r ∈ m.program.dependents call.register <;> simp [reads]

section Calls

variable [Feature σ]

/-- The calls that come of an input that is given to a register, in the order in which they are made. -/
def calls (m : Meter σ φ) (packet : Packet) : Nat → Nat → Input → Turn σ φ → List Call
  | 0, _, _, _ => []
  | fuel + 1, r, input, t =>
    let (t, emission) := m.call packet.time r (.event input) (Feature.event input) t
    ⟨r, input, emission⟩ :: along (fun t w => m.deliver packet.time (some packet) fuel w.1 w.2 t)
      (fun t w => m.calls packet fuel w.1 w.2 t) (t.store r emission) (m.sent packet r emission)

/-- The calls that the delivery of a packet makes before the packet is closed. -/
def deliveryCalls (m : Meter σ φ) (packet : Packet) (t : Turn σ φ) : List Call :=
  along (fun t r => m.dispatch packet.time (some packet) r (.packet packet .flow) t)
    (fun t r => m.calls packet (m.program.size - r) r (.packet packet .flow) t) t m.program.events

/-- A turn after a segment has been begun, if none was open, and the controls have run. -/
def controlled (m : Meter σ φ) (packet : Packet) (t : Turn σ φ) : Turn σ φ :=
  m.runControls packet m.program.controls (if t.record.active then t else m.start packet.time t)

/-- The turn in which an event begins to deliver its packet, if it comes to that. -/
def delivery? [Filter φ] (m : Meter σ φ) (r : Record σ φ) (packet : Packet) : Option (Turn σ φ) :=
  match screen packet (.ofRecord r) with
  | (true, t) =>
    if r.alive && (Signal.stopReason? (m.controlled packet t).signals).isNone then some (m.controlled packet t) else none
  | (false, _) => none

/-- What an event comes to once its packet is delivered. -/
def concluded (m : Meter σ φ) (packet : Packet) (t : Turn σ φ) : Outcome × Record σ φ × Journal :=
  let (outcome, t) := m.settle packet.time (m.deliverPacket packet t)
  (outcome, (setLast packet.time t).record, t.journal)

theorem event_of_delivery [Filter φ] {r : Record σ φ} {packet : Packet} {t : Turn σ φ}
    (found : m.delivery? r packet = some t) : m.event r packet = m.concluded packet t := by
  unfold delivery? at found
  split at found
  next t' screened =>
    split at found
    next going =>
      obtain rfl := Option.some.inj found
      rw [Bool.and_eq_true, Option.isNone_iff_eq_none, controlled] at going
      rw [event, going.1, screened]
      dsimp only
      rw [run]
      dsimp only
      rw [going.2]
      rfl
    next => cases found
  next => cases found

variable (ordered : m.program.Ordered) (packet : Packet)
include ordered

private theorem calls_perm (fuel : Nat) {r : Nat} (inside : r < m.program.size) (enough : m.program.size - r ≤ fuel) (input : Input)
    (t : Turn σ φ) : ((m.calls packet fuel r input t).map Call.arrival).Perm
      ((r, input) :: (m.calls packet fuel r input t).flatMap fun call => m.sent packet call.register call.emission) := by
  induction fuel generalizing r input t with
  | zero => omega
  | succ fuel ih =>
    rw [calls]
    dsimp only
    rw [List.map_cons, List.flatMap_cons]
    apply List.Perm.cons
    generalize m.call packet.time r (.event input) (Feature.event input) t = called
    refine (along_perm id (fun w member t => ?_) _).trans (by rw [List.map_id])
    obtain ⟨reads, -⟩ := mem_sent.mp member
    have below := ordered.lt_of_dependent reads
    have inside' := (Program.mem_dependents.mp reads).2.1
    exact ih inside' (by omega) w.2 t

private theorem deliveryCalls_perm (t : Turn σ φ) : ((m.deliveryCalls packet t).map Call.arrival).Perm
    (m.program.events.map (·, .packet packet .flow) ++
      (m.deliveryCalls packet t).flatMap fun call => m.sent packet call.register call.emission) :=
  along_perm (·, Input.packet packet .flow)
    (fun _ member t => calls_perm ordered packet _ (Program.lt_of_mem_events member) (Nat.le_refl _) _ t) t

omit [Feature σ] ordered in
private theorem filterMap_pairs {xs : List Nat} (distinct : xs.Nodup) (input : Input) (r : Nat) :
    (xs.map (·, input)).filterMap (fun w => if w.1 = r then some w.2 else none) = if r ∈ xs then [input] else [] := by
  induction xs with
  | nil => rfl
  | cons x xs ih =>
    obtain ⟨absent, distinct⟩ := List.nodup_cons.mp distinct
    rw [List.map_cons, List.filterMap_cons, ih distinct]
    by_cases here : x = r
    · subst here
      simp [absent]
    · simp [here, Ne.symm here]

/-- What a register is given while a packet is delivered. -/
theorem inputs_perm (t : Turn σ φ) (r : Nat) : (Call.inputs (m.deliveryCalls packet t) r).Perm
    ((if r ∈ m.program.events then [.packet packet .flow] else []) ++
      (m.deliveryCalls packet t).flatMap (m.handed packet r)) := by
  have arrived := (deliveryCalls_perm ordered packet t).filterMap fun w => if w.1 = r then some w.2 else none
  rw [List.filterMap_map, List.filterMap_append, List.filterMap_flatMap] at arrived
  have events : m.program.events.Nodup := List.nodup_range.filter _
  rw [filterMap_pairs events] at arrived
  have each (call : Call) : (m.sent packet call.register call.emission).filterMap
      (fun w => if w.1 = r then some w.2 else none) = m.handed packet r call := by
    unfold sent handed
    cases call.emission.input? packet call.register with
    | none => simp
    | some input => exact filterMap_pairs (m.program.dependents_ascending _).nodup input r
  simp only [each] at arrived
  exact arrived

theorem mem_deliveryInputs {t : Turn σ φ} {r : Nat} {input : Input} :
    input ∈ Call.inputs (m.deliveryCalls packet t) r ↔
      (r ∈ m.program.events ∧ input = .packet packet .flow) ∨
      ∃ call ∈ m.deliveryCalls packet t, r ∈ m.program.dependents call.register ∧
        call.emission.input? packet call.register = some input := by
  rw [(inputs_perm ordered packet t r).mem_iff, List.mem_append, List.mem_flatMap]
  simp only [mem_handed]
  by_cases event : r ∈ m.program.events <;> simp [event]

/-- The values that a register is given are those that are emitted by what it depends on. -/
theorem value_mem_deliveryInputs {t : Turn σ φ} {q r : Nat} {v : Value} :
    .value v q ∈ Call.inputs (m.deliveryCalls packet t) r ↔
      r ∈ m.program.dependents q ∧ .value (some v) ∈ Call.emissions (m.deliveryCalls packet t) q := by
  rw [mem_deliveryInputs ordered packet, Call.mem_emissions]
  constructor
  · rintro (⟨-, ⟨⟩⟩ | ⟨call, held, reads, sent⟩)
    obtain ⟨rfl, said⟩ := Emission.input?_eq_value.mp sent
    exact ⟨reads, call, held, rfl, said⟩
  · rintro ⟨reads, call, held, rfl, said⟩
    exact .inr ⟨call, held, reads, Emission.input?_eq_value.mpr ⟨rfl, said⟩⟩

/-- Where the registers before it emit once at most, a register is given nothing twice from one source. -/
theorem nodup_sources {t : Turn σ φ} {r : Nat}
    (once : ∀ q < r, (Call.emissions (m.deliveryCalls packet t) q).countP Emission.speaks ≤ 1) :
    ((Call.inputs (m.deliveryCalls packet t) r).map Input.source).Nodup := by
  rw [((inputs_perm ordered packet t r).map Input.source).nodup_iff, List.map_append, List.map_flatMap]
  have told {call : Call} {source : Source} (member : source ∈ (m.handed packet r call).map Input.source) :
      call.register < r ∧ call.emission.speaks = true ∧ source = .register call.register := by
    obtain ⟨input, given, rfl⟩ := List.mem_map.mp member
    obtain ⟨reads, sent⟩ := mem_handed.mp given
    obtain ⟨source, speaks⟩ := Emission.source_of_input? sent
    exact ⟨ordered.lt_of_dependent reads, speaks, source⟩
  refine List.nodup_append'.mpr ⟨?_, List.nodup_flatMap.mpr ⟨fun call _ => ?_, ?_⟩, ?_⟩
  · split <;> simp
  · unfold handed
    split
    · cases call.emission.input? packet call.register <;> simp
    · simp
  · -- two calls of one register that both speak would be counted
    refine List.pairwise_iff_forall_sublist.mpr fun {call call'} sublist source member member' => ?_
    obtain ⟨below, speaks, rfl⟩ := told member
    obtain ⟨-, speaks', same⟩ := told member'
    have register : call'.register = call.register := (Source.register.inj same).symm
    have count := (sublist.filterMap fun c : Call => if c.register = call.register then some c.emission else none).countP_le
      (p := Emission.speaks)
    have two : (Call.emissions [call, call'] call.register).countP Emission.speaks = 2 := by
      simp [Call.emissions, register, speaks, speaks']
    have one := once call.register below
    change (Call.emissions [call, call'] call.register).countP Emission.speaks ≤ _ at count
    rw [two] at count
    exact absurd (Nat.le_trans count one) (by decide)
  · intro source member member'
    obtain ⟨call, -, given⟩ := List.mem_flatMap.mp member'
    obtain ⟨-, -, rfl⟩ := told given
    split at member <;> simp [Input.source] at member

end Calls

end Meter

end FlowMetering
