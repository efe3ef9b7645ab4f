import FlowMetering.Proofs.RecordRounds

/-! Calls of filters. The filters of a record are started in order before they are first asked, each packet is put to
them in order until one refuses it, and they are stopped in order when the record is. -/

namespace FlowMetering

variable {σ φ : Type}

def Journal.filterCalls (journal : Journal) : List (Nat × FilterCall) :=
  journal.filterMap fun
    | .filter i call _ => some (i, call)
    | _ => none

def callsTo (i : Nat) (calls : List (Nat × FilterCall)) : List FilterCall :=
  calls.filterMap fun (j, call) => if j = i then some call else none

@[simp] theorem Journal.filterCalls_filter (i : Nat) (call : FilterCall) (remarks : List String) (journal : Journal) :
    filterCalls (.filter i call remarks :: journal) = (i, call) :: journal.filterCalls :=
  rfl

theorem Journal.filterCalls_append (one other : Journal) :
    filterCalls (one ++ other) = one.filterCalls ++ other.filterCalls :=
  List.filterMap_append

@[simp] theorem callsTo_nil (i : Nat) : callsTo i [] = [] :=
  rfl

theorem callsTo_append (i : Nat) (one other : List (Nat × FilterCall)) :
    callsTo i (one ++ other) = callsTo i one ++ callsTo i other :=
  List.filterMap_append

def callEach (call : FilterCall) (count : Nat) : List (Nat × FilterCall) :=
  (List.range count).map (·, call)

/-- The questions about one packet, where all filters before number `accepted` accept it and this one does not. -/
def questions (count accepted : Nat) : List (Nat × FilterCall) :=
  callEach (.ask true) accepted ++ if accepted < count then [(accepted, .ask false)] else []

theorem callsTo_callEach (call : FilterCall) (count i : Nat) :
    callsTo i (callEach call count) = if i < count then [call] else [] := by
  induction count with
  | zero => rfl
  | succ count ih =>
    have last : callEach call (count + 1) = callEach call count ++ [(count, call)] := by simp [callEach, List.range_succ]
    rw [last, callsTo_append, ih]
    by_cases own : count = i
    · simp [callsTo, own]
    · have iff : i < count + 1 ↔ i < count := by omega
      simp [callsTo, own, iff]

theorem callsTo_questions (count accepted i : Nat) : ∃ answers : List Bool, answers.length ≤ 1 ∧
    callsTo i (questions count accepted) = answers.map .ask := by
  have refusal : callsTo i (if accepted < count then [(accepted, .ask false)] else []) =
      if accepted < count ∧ accepted = i then [.ask false] else [] := by
    by_cases within : accepted < count
    · by_cases own : accepted = i
      · subst own
        simp [callsTo, within]
      · simp [callsTo, within, own]
    · simp [callsTo, within]
  rw [questions, callsTo_append, callsTo_callEach, refusal]
  by_cases before : i < accepted
  · have other : accepted ≠ i := by omega
    exact ⟨[true], Nat.le_refl 1, by simp [before, other]⟩
  · by_cases refused : accepted < count ∧ accepted = i
    · exact ⟨[false], Nat.le_refl 1, by simp only [before, if_false, if_pos refused, List.nil_append, List.map_cons, List.map_nil]⟩
    · exact ⟨[], Nat.zero_le 1, by simp only [before, if_false, if_neg refused, List.append_nil, List.map_nil]⟩

namespace Meter

section Filters

variable [Filter φ]

private theorem startFilters_calls (fs : List φ) (i : Nat) :
    (startFilters i fs).2.filterCalls = (List.range' i fs.length).map (·, .start) ∧
      (startFilters i fs).1.length = fs.length := by
  induction fs generalizing i with
  | nil => exact ⟨rfl, rfl⟩
  | cons f fs ih =>
    obtain ⟨calls, count⟩ := ih (i + 1)
    exact ⟨congrArg ((i, FilterCall.start) :: ·) calls, congrArg (· + 1) count⟩

private theorem stopFilters_calls (fs : List φ) (i : Nat) :
    (stopFilters i fs).2.filterCalls = (List.range' i fs.length).map (·, .stop) ∧
      (stopFilters i fs).1.length = fs.length := by
  induction fs generalizing i with
  | nil => exact ⟨rfl, rfl⟩
  | cons f fs ih =>
    obtain ⟨calls, count⟩ := ih (i + 1)
    exact ⟨congrArg ((i, FilterCall.stop) :: ·) calls, congrArg (· + 1) count⟩

private theorem askFilters_calls (packet : Packet) (fs : List φ) (i : Nat) :
    (askFilters packet i fs).2.1.length = fs.length ∧ ∃ accepted ≤ fs.length,
      (askFilters packet i fs).2.2.filterCalls = (List.range' i accepted).map (·, .ask true) ++
        (if accepted < fs.length then [(i + accepted, .ask false)] else []) ∧
      ((askFilters packet i fs).1 = true ↔ accepted = fs.length) := by
  induction fs generalizing i with
  | nil => exact ⟨rfl, 0, Nat.le_refl _, rfl, by simp [askFilters]⟩
  | cons f fs ih =>
    rw [askFilters]
    split
    next g remarks _ => exact ⟨rfl, 0, Nat.zero_le _, by simp [Journal.filterCalls], by simp⟩
    next g remarks _ =>
      obtain ⟨count, accepted, within, calls, passed⟩ := ih (i + 1)
      refine ⟨congrArg (· + 1) count, accepted + 1, Nat.succ_le_succ within, ?_, by simpa using passed⟩
      have next : i + 1 + accepted = i + (accepted + 1) := by omega
      rw [next] at calls
      simpa [List.range'_succ] using calls

private theorem screen_calls (packet : Packet) (t : Turn σ φ) : ∃ accepted ≤ t.record.filters.length,
    (screen packet t).2.journal.filterCalls = t.journal.filterCalls ++
      ((if t.record.filtersAlive then [] else callEach .start t.record.filters.length) ++
        questions t.record.filters.length accepted) ∧
    ((screen packet t).1 = true ↔ accepted = t.record.filters.length) ∧
    (screen packet t).2.record.filters.length = t.record.filters.length ∧
    (screen packet t).2.record.filtersAlive = !t.record.filters.isEmpty ∧
    (screen packet t).2.record.alive = t.record.alive := by
  obtain ⟨begun, same, started, count⟩ : ∃ begun : List φ × Journal,
      begun = (if t.record.filtersAlive then (t.record.filters, []) else startFilters 0 t.record.filters) ∧
      begun.2.filterCalls = (if t.record.filtersAlive then [] else callEach .start t.record.filters.length) ∧
      begun.1.length = t.record.filters.length := by
    refine ⟨_, rfl, ?_⟩
    split
    · exact ⟨rfl, rfl⟩
    · obtain ⟨calls, count⟩ := startFilters_calls t.record.filters 0
      exact ⟨by rw [calls, callEach, List.range_eq_range'], count⟩
  obtain ⟨kept, accepted, within, calls, passed⟩ := askFilters_calls packet begun.1 0
  rw [count] at within calls passed kept
  refine ⟨accepted, within, ?_, ?_, ?_, rfl, rfl⟩
  · rw [screen, ← same]
    simp only [Journal.filterCalls_append, started, calls, questions, callEach, List.range_eq_range', Nat.zero_add,
      List.append_assoc]
  · rw [screen, ← same]
    exact passed
  · rw [screen, ← same]
    exact kept

end Filters

section Runs

variable [Feature σ] {m : Meter σ φ}

omit [Feature σ] in
private theorem Spares.filterCalls {before after : Turn σ φ} (spares : Spares before after) :
    after.journal.filterCalls = before.journal.filterCalls := by
  obtain ⟨calls, grown, only⟩ := spares.calls
  have none : calls.filterCalls = [] := by
    refine List.filterMap_eq_nil_iff.mpr fun h member => ?_
    obtain ⟨r, phase, remarks, rfl⟩ := only h member
    rfl
  rw [grown, Journal.filterCalls_append, none, List.append_nil]

private theorem start_filterCalls (m : Meter σ φ) (now : Int64) (t : Turn σ φ) :
    (m.start now t).journal.filterCalls = t.journal.filterCalls := by
  have swept := Spares.foldl (m.startOne_spares now) (List.range m.program.size)
    { t.log (.segment now) with record := { t.record with values := m.program.nodes.map (·.constant) } }
  refine swept.filterCalls.trans ?_
  simp [Turn.log, Journal.filterCalls]

omit [Feature σ] in
private theorem exportRow_filterCalls [Feature σ] (m : Meter σ φ) (reason : EndReason) (time : Int64) (t : Turn σ φ) :
    (m.exportRow reason time t).journal.filterCalls = t.journal.filterCalls := by
  rw [exportRow]
  split
  next row _ =>
    refine List.foldlRecOn m.exporters _ (motive := fun t' : Turn σ φ => t'.journal.filterCalls = t.journal.filterCalls)
      ?_ fun t' same exporter _ => ?_
    · simp [Turn.log, Journal.filterCalls]
    · simpa [Turn.log, Journal.filterCalls] using same
  next => simp [Turn.log, Journal.filterCalls]

private theorem finish_filterCalls (m : Meter σ φ) (reason : EndReason) (time : Int64) (t : Turn σ φ) :
    (m.finish reason time t).journal.filterCalls = t.journal.filterCalls := by
  have swept := Spares.foldl (m.stopOne_spares reason time) (List.range m.program.size) (t.log (.finish reason time))
  refine (m.exportRow_filterCalls reason time _).trans (swept.filterCalls.trans ?_)
  simp [Turn.log, Journal.filterCalls]

private theorem settle_filterCalls (m : Meter σ φ) (now : Int64) (t : Turn σ φ) :
    (m.settle now t).2.journal.filterCalls = t.journal.filterCalls := by
  have restarted (t : Turn σ φ) :
      (if Signal.restarts t.signals then m.start now t else t).journal.filterCalls = t.journal.filterCalls := by
    split
    · exact m.start_filterCalls now t
    · rfl
  rw [settle]
  split
  next reason _ => exact m.finish_filterCalls reason now t
  next =>
    dsimp only
    split
    next reason time _ => exact (restarted _).trans (m.finish_filterCalls reason time t)
    next => exact restarted t

private theorem run_filterCalls (m : Meter σ φ) (packet : Packet) (t : Turn σ φ) :
    (m.run packet t).2.journal.filterCalls = t.journal.filterCalls := by
  have begun : (if t.record.active then t else m.start packet.time t).journal.filterCalls = t.journal.filterCalls := by
    split
    · rfl
    · exact m.start_filterCalls packet.time t
  have controlled := (m.runControls_spares packet m.program.controls
    (if t.record.active then t else m.start packet.time t)).filterCalls.trans begun
  rw [run]
  split
  next reason _ =>
    refine (m.finish_filterCalls reason packet.time _).trans (Eq.trans ?_ controlled)
    simp [Turn.log, Journal.filterCalls]
  next =>
    exact (m.settle_filterCalls packet.time _).trans ((m.deliverPacket_spares packet _).filterCalls.trans controlled)

private theorem run_outcome (m : Meter σ φ) (packet : Packet) (t : Turn σ φ) : (m.run packet t).1 ≠ .filtered := by
  rw [run]
  split
  · simp
  · dsimp only
    rw [settle]
    split
    · simp
    · dsimp only
      split <;> simp

end Runs

section Operations

variable [Feature σ] [Filter φ]

/-- A packet is put to the filters of a record in their order until one refuses it. They are started before their first
packet, and no packet stops them. -/
theorem event_filterCalls (m : Meter σ φ) {r : Record σ φ} (alive : r.alive = true) (packet : Packet) :
    ∃ accepted ≤ r.filters.length,
      Journal.filterCalls (m.event r packet).2.2 =
        (if r.filtersAlive then [] else callEach .start r.filters.length) ++ questions r.filters.length accepted ∧
      ((m.event r packet).1 = .filtered ↔ accepted < r.filters.length) ∧
      (m.event r packet).2.1.filters.length = r.filters.length ∧
      (m.event r packet).2.1.filtersAlive = !r.filters.isEmpty ∧ (m.event r packet).2.1.alive = true := by
  obtain ⟨accepted, within, calls, passed, count, awake, still⟩ := screen_calls packet (.ofRecord r)
  refine ⟨accepted, within, ?_⟩
  rw [event, alive]
  generalize screen packet (.ofRecord r) = screened at calls passed count awake still
  obtain ⟨answer, t⟩ := screened
  simp only [Turn.ofRecord] at within passed
  cases answer with
  | false =>
    refine ⟨?_, ?_, count, awake, still.trans alive⟩
    · refine Eq.trans ?_ calls
      simp [Turn.log, Journal.filterCalls]
    · have refused : accepted ≠ r.filters.length := fun all => Bool.noConfusion (passed.mpr all)
      simpa using Nat.lt_of_le_of_ne within refused
  | true =>
    have kept := m.run_frame packet t
    refine ⟨(m.run_filterCalls packet t).trans calls, ?_, ?_, ?_, ?_⟩
    · have all := passed.mp rfl
      simpa [m.run_outcome packet t] using Nat.le_of_eq all.symm
    · exact (congrArg (fun frame => frame.1.length) kept).trans count
    · exact (congrArg (·.2.1) kept).trans awake
    · exact (congrArg (·.2.2) kept).trans (still.trans alive)

/-- Filters that have been started are stopped in their order when the record is. -/
theorem stop_filterCalls (m : Meter σ φ) {r : Record σ φ} (alive : r.alive = true) (reason : EndReason) (now : Int64) :
    Journal.filterCalls (m.stop r reason now).2 = (if r.filtersAlive then callEach .stop r.filters.length else []) ∧
      (m.stop r reason now).1.filters.length = r.filters.length := by
  obtain ⟨t, same, frame, calls⟩ : ∃ t : Turn σ φ, t = (if r.active then m.finish reason now (.ofRecord r) else .ofRecord r) ∧
      Meter.frame t.record = Meter.frame r ∧ t.journal.filterCalls = [] := by
    refine ⟨_, rfl, ?_⟩
    split
    · exact ⟨m.finish_frame reason now _, m.finish_filterCalls reason now _⟩
    · exact ⟨rfl, rfl⟩
  simp only [Meter.frame, Prod.mk.injEq] at frame
  obtain ⟨filters, awake, -⟩ := frame
  obtain ⟨stopped, count⟩ := stopFilters_calls r.filters 0
  rw [stop, alive, ← same]
  simp only [Bool.not_true, Bool.false_eq_true, if_false, Journal.filterCalls_append, calls, filters, awake, List.nil_append]
  split
  · exact ⟨by rw [stopped, callEach, List.range_eq_range'], count⟩
  · exact ⟨rfl, rfl⟩

end Operations

end Meter

end FlowMetering
