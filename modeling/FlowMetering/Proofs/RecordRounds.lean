import FlowMetering.Proofs.LifeCycle
import FlowMetering.Proofs.PacketWaves

/-! The rounds of a record: between segments, in a segment, and where a segment has been swept. Every row that is handed
out shows what instances and values keep to where a segment has been swept. -/

namespace FlowMetering

variable {σ φ : Type}

abbrev Picture (σ : Type) := List (Option σ) → List (Option Value) → Prop

def Turn.Shows (t : Turn σ φ) (picture : Picture σ) : Prop :=
  picture t.record.instances t.record.values

theorem Turn.shows_foldl {ι : Type} {picture : Picture σ} {step : Turn σ φ → ι → Turn σ φ} {is : List ι}
    (each : ∀ i ∈ is, ∀ t : Turn σ φ, t.Shows picture → (step t i).Shows picture) {t : Turn σ φ}
    (shown : t.Shows picture) : (is.foldl step t).Shows picture := by
  induction is generalizing t with
  | nil => exact shown
  | cons i is ih =>
    rw [List.forall_mem_cons] at each
    exact ih each.2 (each.1 t shown)

/-- What one step of a sweep brings about holds at its end. -/
theorem foldl_range_reaches {α : Type} {step : α → Nat → α} (before after : α → Prop) {r n : Nat} {a : α} (inside : r < n)
    (begun : before a) (still : ∀ q < r, ∀ a, before a → before (step a q)) (reached : ∀ a, before a → after (step a r))
    (kept : ∀ q > r, ∀ a, after a → after (step a q)) : after ((List.range n).foldl step a) := by
  have swept (count : Nat) : if r < count then after ((List.range count).foldl step a)
      else before ((List.range count).foldl step a) := by
    induction count with
    | zero => exact begun
    | succ count ih =>
      rw [List.range_succ, List.foldl_append, List.foldl_cons, List.foldl_nil]
      rcases Nat.lt_trichotomy r count with behind | rfl | ahead
      · rw [if_pos behind] at ih
        rw [if_pos (Nat.lt_succ_of_lt behind)]
        exact kept count behind _ ih
      · rw [if_neg (Nat.lt_irrefl r)] at ih
        rw [if_pos (Nat.lt_succ_self r)]
        exact reached _ ih
      · rw [if_neg (by omega)] at ih ⊢
        exact still count ahead _ ih
  have all := swept n
  rwa [if_pos inside] at all

namespace Meter

variable {m : Meter σ φ}

/-- Nothing happens but calls of instances, and nothing in the record changes but instances and values. -/
structure Spares (before after : Turn σ φ) : Prop where
  calls : ∃ calls : Journal, after.journal = before.journal ++ calls ∧ ∀ h ∈ calls, ∃ r phase remarks, h = .call r phase remarks
  rest : { after.record with instances := before.record.instances, values := before.record.values } = before.record

private theorem Spares.refl (t : Turn σ φ) : Spares t t :=
  ⟨⟨[], (List.append_nil _).symm, List.forall_mem_nil _⟩, rfl⟩

private theorem Spares.trans {first middle last : Turn σ φ} (a : Spares first middle) (b : Spares middle last) :
    Spares first last := by
  obtain ⟨one, grown, calls⟩ := a.calls
  obtain ⟨other, growing, others⟩ := b.calls
  refine ⟨⟨one ++ other, ?_, List.forall_mem_append.mpr ⟨calls, others⟩⟩, by rw [← a.rest, ← b.rest]⟩
  rw [growing, grown, List.append_assoc]

theorem Spares.rows {before after : Turn σ φ} (spares : Spares before after) : after.journal.rows = before.journal.rows := by
  obtain ⟨calls, grown, only⟩ := spares.calls
  have none : calls.rows = [] := by
    refine List.filterMap_eq_nil_iff.mpr fun h member => ?_
    obtain ⟨r, phase, remarks, rfl⟩ := only h member
    rfl
  rw [grown, Journal.rows, List.filterMap_append]
  exact (congrArg (before.journal.rows ++ ·) none).trans (List.append_nil _)

private theorem Spares.setValue (t : Turn σ φ) (r : Nat) (v : Option Value) : Spares t (t.setValue r v) :=
  ⟨⟨[], (List.append_nil _).symm, List.forall_mem_nil _⟩, rfl⟩

theorem Spares.active {before after : Turn σ φ} (spares : Spares before after) :
    after.record.active = before.record.active :=
  (congrArg Record.active spares.rest :)

theorem Spares.foldl {ι : Type} {step : Turn σ φ → ι → Turn σ φ} (each : ∀ t i, Spares t (step t i)) (is : List ι)
    (t : Turn σ φ) : Spares t (is.foldl step t) := by
  induction is generalizing t with
  | nil => exact .refl t
  | cons i is ih => exact (each t i).trans (ih _)

private theorem rows_snoc {journal : Journal} {h : Happening} (quiet : Journal.rows [h] = []) :
    Journal.rows (journal ++ [h]) = journal.rows := by
  rw [Journal.rows, List.filterMap_append]
  change journal.rows ++ Journal.rows [h] = journal.rows
  rw [quiet, List.append_nil]

private theorem call_spares (m : Meter σ φ) (now : Int64) (r : Nat) (phase : Phase) (answer : Context → σ → σ × Reaction)
    (t : Turn σ φ) : Spares t (m.call now r phase answer t).1 := by
  rw [call]
  split
  · exact ⟨⟨_, rfl, List.forall_mem_singleton.mpr ⟨_, _, _, rfl⟩⟩, rfl⟩
  · exact .refl t

private theorem propagate_spares (m : Meter σ φ) {next : Nat → Input → Turn σ φ → Turn σ φ}
    (each : ∀ d input t, Spares t (next d input t)) (packet : Option Packet) (r : Nat) (t : Turn σ φ)
    (emission : Emission) : Spares t (m.propagate next packet r t emission) := by
  cases emission with
  | nothing => exact .refl t
  | value v =>
    cases v with
    | none => exact .setValue t r none
    | some v =>
      exact (Spares.setValue t r (some v)).trans (.foldl (fun t d => each d (.value v r) t) (m.program.dependents r) _)
  | forward =>
    cases packet with
    | none => exact .refl t
    | some p => exact .foldl (fun t d => each d (.packet p (.register r)) t) _ t

variable [Feature σ]

theorem deliver_spares (m : Meter σ φ) (now : Int64) (packet : Option Packet) (fuel r : Nat) (input : Input)
    (t : Turn σ φ) : Spares t (m.deliver now packet fuel r input t) := by
  induction fuel generalizing r input t with
  | zero => exact .refl t
  | succ fuel ih => exact (m.call_spares now r _ _ t).trans (m.propagate_spares ih packet r _ _)

theorem startOne_spares (m : Meter σ φ) (now : Int64) (t : Turn σ φ) (r : Nat) : Spares t (m.startOne now t r) := by
  have called := m.call_spares now r .start Feature.start t
  rw [startOne]
  split
  next t' v same =>
    rw [same] at called
    exact called.trans (.setValue t' r v)
  next t' emission same =>
    rw [same] at called
    exact called

theorem stopOne_spares (m : Meter σ φ) (reason : EndReason) (time : Int64) (t : Turn σ φ) (r : Nat) :
    Spares t (m.stopOne reason time t r) :=
  (m.call_spares time r _ _ t).trans (m.propagate_spares (fun d => m.deliver_spares time none _ d) none r _ _)

private theorem finishEventOne_spares (t : Turn σ φ) (r : Nat) : Spares t (finishEventOne t r) := by
  rw [finishEventOne]
  split
  · exact ⟨⟨_, rfl, List.forall_mem_singleton.mpr ⟨_, _, _, rfl⟩⟩, rfl⟩
  · exact .refl t

theorem runControls_spares (m : Meter σ φ) (packet : Packet) (controls : List Nat) (t : Turn σ φ) :
    Spares t (m.runControls packet controls t) := by
  induction controls generalizing t with
  | nil => exact .refl t
  | cons control controls ih =>
    have next := m.deliver_spares packet.time (some packet) (m.program.size - control) control (.packet packet .flow) t
    rw [runControls]
    split
    · exact next
    · exact next.trans (ih _)

theorem deliverPacket_spares (m : Meter σ φ) (packet : Packet) (t : Turn σ φ) : Spares t (m.deliverPacket packet t) :=
  (Spares.foldl (fun t r => m.deliver_spares packet.time (some packet) (m.program.size - r) r (.packet packet .flow) t)
    m.program.events t).trans (.foldl finishEventOne_spares (List.range m.program.size) _)

def frame (r : Record σ φ) : List φ × Bool × Bool :=
  (r.filters, r.filtersAlive, r.alive)

theorem start_frame (m : Meter σ φ) (now : Int64) (t : Turn σ φ) : frame (m.start now t).record = frame t.record := by
  have swept := Spares.foldl (m.startOne_spares now) (List.range m.program.size)
    { t.log (.segment now) with record := { t.record with values := m.program.nodes.map (·.constant) } }
  exact (congrArg frame swept.rest :)

theorem exportRow_record (m : Meter σ φ) (reason : EndReason) (time : Int64) (t : Turn σ φ) :
    (m.exportRow reason time t).record = t.record := by
  rw [exportRow]
  split
  next row _ =>
    exact List.foldlRecOn m.exporters _ (motive := fun t' : Turn σ φ => t'.record = t.record) rfl fun _ same _ _ => same
  next => rfl

/-- An attempt to export hands out the row of the record at most. -/
theorem exportRow_rows {m : Meter σ φ} {reason : EndReason} {time : Int64} {t : Turn σ φ} {row : Row}
    (member : row ∈ (m.exportRow reason time t).journal.rows) : row ∈ t.journal.rows ∨ m.row? t.record time = some row := by
  rw [exportRow] at member
  split at member
  next row' found =>
    have exported : ∀ (exporters : List Exporter) (t : Turn σ φ),
        row ∈ Journal.rows (exporters.foldl (fun t exporter =>
          t.log (.export exporter.name row' (exporter.fails row'))) t).journal → row ∈ t.journal.rows ∨ row = row' := by
      intro exporters
      induction exporters with
      | nil => exact fun t => .inl
      | cons exporter exporters ih =>
        intro t held
        rw [List.foldl_cons] at held
        rcases ih _ held with held | same
        · rw [Turn.log, Journal.rows, List.filterMap_append] at held
          exact (List.mem_append.mp held).imp_right List.mem_singleton.mp
        · exact .inr same
    rcases exported _ _ member with member | rfl
    · rw [Turn.log, Journal.rows, List.filterMap_append] at member
      exact (List.mem_append.mp member).imp_right fun same : row ∈ [row'] => List.mem_singleton.mp same ▸ found
    · exact .inr found
  next =>
    rw [Turn.log, rows_snoc rfl] at member
    exact .inl member

theorem finish_frame (m : Meter σ φ) (reason : EndReason) (time : Int64) (t : Turn σ φ) :
    frame (m.finish reason time t).record = frame t.record := by
  have swept := Spares.foldl (m.stopOne_spares reason time) (List.range m.program.size) (t.log (.finish reason time))
  exact (congrArg frame (m.exportRow_record reason time _) :).trans (congrArg frame swept.rest :)

private theorem settle_frame (m : Meter σ φ) (now : Int64) (t : Turn σ φ) : frame (m.settle now t).2.record = frame t.record := by
  have restarted (t : Turn σ φ) : frame (if Signal.restarts t.signals then m.start now t else t).record = frame t.record := by
    split
    · exact m.start_frame now t
    · rfl
  rw [settle]
  split
  next reason _ => exact m.finish_frame reason now t
  next =>
    dsimp only
    split
    next reason time _ => exact (restarted _).trans (m.finish_frame reason time t)
    next => exact restarted t

theorem run_frame (m : Meter σ φ) (packet : Packet) (t : Turn σ φ) : frame (m.run packet t).2.record = frame t.record := by
  have begun : frame (if t.record.active then t else m.start packet.time t).record = frame t.record := by
    split
    · rfl
    · exact m.start_frame packet.time t
  have controlled := begun ▸ (congrArg frame (m.runControls_spares packet m.program.controls
    (if t.record.active then t else m.start packet.time t)).rest :)
  rw [run]
  split
  next reason _ => exact (m.finish_frame reason packet.time _).trans controlled
  next =>
    exact (m.settle_frame packet.time _).trans ((congrArg frame (m.deliverPacket_spares packet _).rest :).trans controlled)

/-- What the instances and values of a record keep to between segments, in a segment, and when a segment has been swept,
as long as only certain packets come. -/
structure Rounds (m : Meter σ φ) (allowed : Packet → Prop) (idle live swept : Picture σ) : Prop where
  make : idle m.make.instances m.make.values
  start : ∀ now (t : Turn σ φ), t.Shows idle ∨ t.Shows live → (m.start now t).Shows live
  control : ∀ (packet : Packet) r (t : Turn σ φ), allowed packet → r ∈ m.program.controls → t.Shows live →
    (m.dispatch packet.time (some packet) r (.packet packet .flow) t).Shows live
  deliver : ∀ (packet : Packet) (t : Turn σ φ), allowed packet → t.Shows live → (m.deliverPacket packet t).Shows live
  finish : ∀ reason time (t : Turn σ φ), t.Shows live →
    ((List.range m.program.size).foldl (m.stopOne reason time) t).Shows swept
  rest : ∀ instances values, swept instances values → idle instances values

/-- What single calls keep to is kept to by the delivery of a packet. -/
theorem shows_deliverPacket {live : Picture σ} {packet : Packet}
    (dispatch : ∀ r ∈ m.program.events, ∀ t : Turn σ φ, t.Shows live →
      (m.dispatch packet.time (some packet) r (.packet packet .flow) t).Shows live)
    (finishEvent : ∀ (r : Nat) (t : Turn σ φ), t.Shows live → (finishEventOne t r).Shows live) {t : Turn σ φ}
    (shown : t.Shows live) : (m.deliverPacket packet t).Shows live :=
  Turn.shows_foldl (fun r _ => finishEvent r) (Turn.shows_foldl dispatch shown)

def Hands (m : Meter σ φ) (swept : Picture σ) (journal : Journal) : Prop :=
  ∀ row ∈ journal.rows, ∃ (record : Record σ φ) (time : Int64),
    swept record.instances record.values ∧ m.row? record time = some row

private theorem hands_append {swept : Picture σ} {one other : Journal} (first : m.Hands swept one)
    (second : m.Hands swept other) : m.Hands swept (one ++ other) := by
  intro row member
  rw [Journal.rows, List.filterMap_append] at member
  exact (List.mem_append.mp member).elim (first row) (second row)

theorem hands_of_rows {swept : Picture σ} {journal : Journal} (none : journal.rows = []) : m.Hands swept journal :=
  fun _ member => absurd (none ▸ member) List.not_mem_nil

/-- A record is in one of the two states between its operations. -/
structure Rests (idle live : Picture σ) (r : Record σ φ) : Prop where
  live : r.active = true → live r.instances r.values
  idle : r.active = false → idle r.instances r.values

/-- A turn whose journal hands out swept records only and whose record is in one of the two states. -/
structure Stays (m : Meter σ φ) (idle live swept : Picture σ) (t : Turn σ φ) : Prop where
  rests : Rests idle live t.record
  hands : m.Hands swept t.journal

section Runs

variable {allowed : Packet → Prop} {idle live swept : Picture σ} (rounds : m.Rounds allowed idle live swept)
include rounds

theorem Rounds.begins {t : Turn σ φ} (stays : m.Stays idle live swept t) (now : Int64) :
    m.Stays idle live swept (m.start now t) := by
  have shown := rounds.start now t (by
    cases active : t.record.active with
    | false => exact .inl (stays.rests.idle active)
    | true => exact .inr (stays.rests.live active))
  have spared := Spares.foldl (m.startOne_spares now) (List.range m.program.size)
    { t.log (.segment now) with record := { t.record with values := m.program.nodes.map (·.constant) } }
  refine ⟨⟨fun _ => shown, nofun⟩, ?_⟩
  intro row member
  refine stays.hands row ?_
  rw [← rows_snoc (h := .segment now) rfl]
  exact spared.rows ▸ member

private theorem Rounds.ends {t : Turn σ φ} (stays : m.Stays idle live swept t) (active : t.record.active = true)
    (reason : EndReason) (time : Int64) : m.Stays idle live swept (m.finish reason time t) := by
  have shown := rounds.finish reason time (t.log (.finish reason time)) (stays.rests.live active)
  have spared := Spares.foldl (m.stopOne_spares reason time) (List.range m.program.size) (t.log (.finish reason time))
  have logged := spared.rows.trans (rows_snoc rfl)
  have still := m.exportRow_record reason time ((List.range m.program.size).foldl (m.stopOne reason time) (t.log (.finish reason time)))
  refine ⟨⟨by rintro ⟨⟩, fun _ => ?_⟩, fun row member => ?_⟩
  · rw [Meter.finish]
    dsimp only
    rw [still]
    exact rounds.rest _ _ shown
  · rcases exportRow_rows member with member | found
    · exact stays.hands row (logged ▸ member)
    · exact ⟨_, time, shown, found⟩

theorem Rounds.controls {packet : Packet} (fine : allowed packet) (controls : List Nat)
    (known : ∀ control ∈ controls, control ∈ m.program.controls) {t : Turn σ φ} (stays : m.Stays idle live swept t)
    (active : t.record.active = true) :
    m.Stays idle live swept (m.runControls packet controls t) ∧ (m.runControls packet controls t).record.active = true := by
  induction controls generalizing t with
  | nil => exact ⟨stays, active⟩
  | cons control controls ih =>
    rw [List.forall_mem_cons] at known
    have shown := rounds.control packet control t fine known.1 (stays.rests.live active)
    have spared := m.deliver_spares packet.time (some packet) (m.program.size - control) control (.packet packet .flow) t
    have still := spared.active.trans active
    have next : m.Stays idle live swept (m.dispatch packet.time (some packet) control (.packet packet .flow) t) :=
      ⟨⟨fun _ => shown, fun closed => absurd (still.symm.trans closed) nofun⟩,
        fun row member => stays.hands row (spared.rows ▸ member)⟩
    rw [runControls]
    split
    · exact ⟨next, still⟩
    · exact ih known.2 next still

theorem Rounds.delivers {packet : Packet} (fine : allowed packet) {t : Turn σ φ} (stays : m.Stays idle live swept t)
    (active : t.record.active = true) :
    m.Stays idle live swept (m.deliverPacket packet t) ∧ (m.deliverPacket packet t).record.active = true := by
  have shown := rounds.deliver packet t fine (stays.rests.live active)
  have spared := m.deliverPacket_spares packet t
  have still := spared.active.trans active
  exact ⟨⟨⟨fun _ => shown, fun closed => absurd (still.symm.trans closed) nofun⟩,
    fun row member => stays.hands row (spared.rows ▸ member)⟩, still⟩

private theorem Rounds.settles {t : Turn σ φ} (stays : m.Stays idle live swept t) (active : t.record.active = true)
    (now : Int64) : m.Stays idle live swept (m.settle now t).2 := by
  have restarted {t : Turn σ φ} (stays : m.Stays idle live swept t) :
      m.Stays idle live swept (if Signal.restarts t.signals then m.start now t else t) := by
    split
    · exact rounds.begins stays now
    · exact stays
  rw [settle]
  split
  next reason _ => exact rounds.ends stays active reason now
  next =>
    dsimp only
    split
    next reason time _ => exact restarted (rounds.ends stays active reason time)
    next => exact restarted stays

private theorem Rounds.runs {packet : Packet} (fine : allowed packet) {t : Turn σ φ} (stays : m.Stays idle live swept t) :
    m.Stays idle live swept (m.run packet t).2 := by
  obtain ⟨begun, same, ready, active⟩ : ∃ begun, begun = (if t.record.active then t else m.start packet.time t) ∧
      m.Stays idle live swept begun ∧ begun.record.active = true := by
    by_cases active : t.record.active = true
    · exact ⟨t, by rw [if_pos active], stays, active⟩
    · exact ⟨_, by rw [if_neg active], rounds.begins stays packet.time, rfl⟩
  obtain ⟨controlled, still⟩ := rounds.controls fine m.program.controls (fun _ member => member) ready active
  rw [run]
  simp only [← same]
  split
  next reason _ =>
    have logged : m.Stays idle live swept ((m.runControls packet m.program.controls begun).log (.controlStop reason)) :=
      ⟨controlled.rests, fun row member => controlled.hands row (rows_snoc (h := .controlStop reason) rfl ▸ member)⟩
    have ended := rounds.ends logged still reason packet.time
    exact ⟨⟨ended.rests.live, ended.rests.idle⟩, ended.hands⟩
  next =>
    obtain ⟨delivered, open'⟩ := rounds.delivers fine controlled still
    have settled := rounds.settles delivered open' packet.time
    exact ⟨⟨settled.rests.live, settled.rests.idle⟩, settled.hands⟩

end Runs

section Filters

variable [Filter φ]

omit [Feature σ] in
private theorem startFilters_rows (fs : List φ) (i : Nat) : (startFilters i fs).2.rows = [] := by
  induction fs generalizing i with
  | nil => rfl
  | cons f fs ih => exact ih (i + 1)

omit [Feature σ] in
private theorem stopFilters_rows (fs : List φ) (i : Nat) : (stopFilters i fs).2.rows = [] := by
  induction fs generalizing i with
  | nil => rfl
  | cons f fs ih => exact ih (i + 1)

omit [Feature σ] in
private theorem askFilters_rows (packet : Packet) (fs : List φ) (i : Nat) :
    (askFilters packet i fs).2.2.rows = [] := by
  induction fs generalizing i with
  | nil => rfl
  | cons f fs ih =>
    rw [askFilters]
    split
    · rfl
    · exact ih (i + 1)

variable {idle live swept : Picture σ}

/-- Asking the filters changes nothing that a row shows. -/
theorem screen_stays {packet : Packet} {t : Turn σ φ} (stays : m.Stays idle live swept t) :
    m.Stays idle live swept (screen packet t).2 := by
  have started : Journal.rows (if t.record.filtersAlive then (t.record.filters, [])
      else startFilters 0 t.record.filters).2 = [] := by
    split
    · rfl
    · exact startFilters_rows t.record.filters 0
  refine ⟨⟨stays.rests.live, stays.rests.idle⟩, hands_append (hands_append stays.hands (hands_of_rows started)) ?_⟩
  exact hands_of_rows (askFilters_rows packet _ 0)

variable {allowed : Packet → Prop}

theorem Rounds.event (rounds : m.Rounds allowed idle live swept) {r : Record σ φ} (rests : Rests idle live r)
    {packet : Packet} (fine : allowed packet) :
    Rests idle live (m.event r packet).2.1 ∧ m.Hands swept (m.event r packet).2.2 := by
  rw [Meter.event]
  split
  · exact ⟨rests, hands_of_rows rfl⟩
  · have screened : m.Stays idle live swept (screen packet (.ofRecord r)).2 := screen_stays ⟨rests, hands_of_rows rfl⟩
    split
    next t same =>
      rw [same] at screened
      exact ⟨screened.rests, hands_append screened.hands (hands_of_rows rfl)⟩
    next t same =>
      rw [same] at screened
      have done := rounds.runs fine screened
      exact ⟨done.rests, done.hands⟩

theorem Rounds.stop (rounds : m.Rounds allowed idle live swept) {r : Record σ φ} (rests : Rests idle live r)
    (reason : EndReason) (now : Int64) :
    Rests idle live (m.stop r reason now).1 ∧ m.Hands swept (m.stop r reason now).2 := by
  rw [Meter.stop]
  split
  · exact ⟨rests, hands_of_rows rfl⟩
  · have ended : m.Stays idle live swept (if r.active then m.finish reason now (.ofRecord r) else .ofRecord r) := by
      have stays : m.Stays idle live swept (.ofRecord r) := ⟨rests, hands_of_rows rfl⟩
      split
      next active => exact rounds.ends stays active reason now
      next => exact stays
    generalize (if r.active then m.finish reason now (.ofRecord r) else .ofRecord r) = t at ended
    have stopped : Journal.rows (if t.record.filtersAlive then stopFilters 0 t.record.filters
        else (t.record.filters, [])).2 = [] := by
      split
      · exact stopFilters_rows t.record.filters 0
      · rfl
    exact ⟨⟨ended.rests.live, ended.rests.idle⟩, hands_append ended.hands (hands_of_rows stopped)⟩

theorem Rounds.performAll (rounds : m.Rounds allowed idle live swept) {operations : List Operation}
    (fine : ∀ packet, .event packet ∈ operations → allowed packet) {r : Record σ φ} (rests : Rests idle live r) :
    Rests idle live (m.performAll r operations).1 ∧ m.Hands swept (m.performAll r operations).2 := by
  induction operations generalizing r with
  | nil => exact ⟨rests, hands_of_rows rfl⟩
  | cons operation operations ih =>
    have performed : Rests idle live (m.perform r operation).1 ∧ m.Hands swept (m.perform r operation).2 := by
      cases operation with
      | event packet => exact rounds.event rests (fine packet List.mem_cons_self)
      | stop reason now => exact rounds.stop rests reason now
    obtain ⟨rests', hands⟩ := ih (fun packet member => fine packet (List.mem_cons_of_mem _ member)) performed.1
    exact ⟨rests', hands_append performed.2 hands⟩

/-- Every row that a record hands out shows a record that has been swept. -/
theorem Rounds.hands (rounds : m.Rounds allowed idle live swept) {operations : List Operation}
    (fine : ∀ packet, .event packet ∈ operations → allowed packet) : m.Hands swept (m.performAll m.make operations).2 :=
  (rounds.performAll fine (r := m.make) ⟨nofun, fun _ => rounds.make⟩).2

end Filters

end Meter

end FlowMetering
