import FlowMetering.Proofs.LifeCycleRuns
import FlowMetering.Proofs.RecordRounds

/-! The rounds of a record with its journal in view. What instances and values keep to may depend on what has happened so
far; every row that is handed out then shows what they keep to at its place in the journal. -/

namespace FlowMetering

variable {σ φ : Type}

/-- What can be said of the instances and values of a record after a journal. -/
abbrev Scene (σ : Type) := Journal → Picture σ

def Happening.isIdle : Happening → Bool
  | .segment _ | .call .. => false
  | _ => true

namespace Turn

def Plays (t : Turn σ φ) (past : Journal) (scene : Scene σ) : Prop :=
  t.Shows (scene (past ++ t.journal))

theorem plays_foldl {ι : Type} {past : Journal} {scene : Scene σ} {step : Turn σ φ → ι → Turn σ φ} {is : List ι}
    (each : ∀ i ∈ is, ∀ t : Turn σ φ, t.Plays past scene → (step t i).Plays past scene) {t : Turn σ φ}
    (plays : t.Plays past scene) : (is.foldl step t).Plays past scene :=
  List.foldlRecOn is step (motive := (Plays · past scene)) plays fun t plays i member => each i member t plays

end Turn

namespace Meter

variable [Feature σ] {m : Meter σ φ}

/-- Every row of a journal shows a record that has been swept at that place. -/
def Tells (m : Meter σ φ) (swept : Scene σ) : Journal → Journal → Prop
  | _, [] => True
  | past, h :: journal => (∀ reason row, h = .row reason row → ∃ (record : Record σ φ) (time : Int64),
      swept past record.instances record.values ∧ m.row? record time = some row) ∧ m.Tells swept (past ++ [h]) journal

section Tells

variable {swept : Scene σ} {past one other journal : Journal}

private theorem tells_append : m.Tells swept past (one ++ other) ↔ m.Tells swept past one ∧ m.Tells swept (past ++ one) other := by
  induction one generalizing past with
  | nil => rw [List.nil_append, List.append_nil, Tells, true_and]
  | cons h one ih => rw [List.cons_append, Tells, Tells, ih, and_assoc, List.append_assoc, List.singleton_append]

private theorem tells_of_rowless (rowless : ∀ h ∈ journal, ∀ reason row, h ≠ .row reason row) : m.Tells swept past journal := by
  induction journal generalizing past with
  | nil => trivial
  | cons h journal ih =>
    rw [List.forall_mem_cons] at rowless
    exact ⟨fun reason row same => absurd same (rowless.1 reason row), ih rowless.2⟩

theorem Tells.row (tells : m.Tells swept past journal) {before after : Journal} {reason : EndReason} {row : Row}
    (split : journal = before ++ .row reason row :: after) : ∃ (record : Record σ φ) (time : Int64),
      swept (past ++ before) record.instances record.values ∧ m.row? record time = some row := by
  rw [split, tells_append] at tells
  exact tells.2.1 reason row rfl

end Tells

/-- What the instances and values of a record keep to between segments, in a segment, and when a segment has been swept, in
view of the journal. -/
structure Acts (m : Meter σ φ) (idle live swept : Scene σ) : Prop where
  make : idle [] m.make.instances m.make.values
  aside : ∀ h : Happening, h.isIdle = true → ∀ journal instances values,
    (idle journal instances values → idle (journal ++ [h]) instances values) ∧
      (live journal instances values → live (journal ++ [h]) instances values)
  start : ∀ past now (t : Turn σ φ), t.Plays past idle ∨ t.Plays past live → (m.start now t).Plays past live
  control : ∀ past (packet : Packet) r (t : Turn σ φ), r ∈ m.program.controls → t.Plays past live →
    (m.dispatch packet.time (some packet) r (.packet packet .flow) t).Plays past live
  deliver : ∀ past (packet : Packet) (t : Turn σ φ), t.Plays past live → (m.deliverPacket packet t).Plays past live
  finish : ∀ past reason time (t : Turn σ φ), t.Plays past live →
    ((List.range m.program.size).foldl (m.stopOne reason time) t).Plays past swept
  rest : ∀ journal instances values, swept journal instances values → idle journal instances values

/-- A record in one of the two states between its operations. -/
structure Waits (idle live : Scene σ) (past : Journal) (r : Record σ φ) : Prop where
  live : r.active = true → live past r.instances r.values
  idle : r.active = false → idle past r.instances r.values

/-- A turn in one of the two states, whose journal tells of swept records. -/
structure Enacts (m : Meter σ φ) (idle live swept : Scene σ) (past : Journal) (t : Turn σ φ) : Prop where
  waits : Waits idle live (past ++ t.journal) t.record
  tells : m.Tells swept past t.journal

section Runs

variable {idle live swept : Scene σ} {past : Journal} {t t' : Turn σ φ}

private theorem Enacts.spared (enacts : m.Enacts idle live swept past t) (spares : Spares t t') (active : t.record.active = true)
    (plays : t'.Plays past live) : m.Enacts idle live swept past t' ∧ t'.record.active = true := by
  have still := spares.active.trans active
  refine ⟨⟨⟨fun _ => plays, fun closed => absurd (still.symm.trans closed) nofun⟩, ?_⟩, still⟩
  obtain ⟨calls, grown, only⟩ := spares.calls
  rw [grown]
  refine tells_append.mpr ⟨enacts.tells, tells_of_rowless fun h member reason row same => ?_⟩
  obtain ⟨r, phase, remarks, rfl⟩ := only h member
  cases same

private theorem Acts.asides (acts : m.Acts idle live swept) {journal : Journal} (quiet : ∀ h ∈ journal, h.isIdle = true)
    {r : Record σ φ} (waits : Waits idle live past r) : Waits idle live (past ++ journal) r := by
  induction journal generalizing past with
  | nil => rwa [List.append_nil]
  | cons h journal ih =>
    rw [List.forall_mem_cons] at quiet
    rw [List.append_cons]
    have aside := acts.aside h quiet.1 past r.instances r.values
    exact ih quiet.2 ⟨fun active => aside.2 (waits.live active), fun closed => aside.1 (waits.idle closed)⟩

variable (acts : m.Acts idle live swept)
include acts

private theorem Acts.log (enacts : m.Enacts idle live swept past t) {h : Happening} (quiet : h.isIdle = true)
    (silent : ∀ reason row, h ≠ .row reason row) : m.Enacts idle live swept past (t.log h) := by
  refine ⟨?_, tells_append.mpr ⟨enacts.tells, tells_of_rowless (List.forall_mem_singleton.mpr silent)⟩⟩
  rw [Turn.log, ← List.append_assoc]
  exact acts.asides (List.forall_mem_singleton.mpr quiet) enacts.waits

private theorem Acts.begins (enacts : m.Enacts idle live swept past t) (now : Int64) :
    m.Enacts idle live swept past (m.start now t) := by
  have shown := acts.start past now t (by
    cases active : t.record.active with
    | false => exact .inl (enacts.waits.idle active)
    | true => exact .inr (enacts.waits.live active))
  obtain ⟨calls, grown, only⟩ := (Spares.foldl (m.startOne_spares now) (List.range m.program.size)
    { t.log (.segment now) with record := { t.record with values := m.program.nodes.map (·.constant) } }).calls
  refine ⟨⟨fun _ => shown, nofun⟩, ?_⟩
  have journal : (m.start now t).journal = t.journal ++ .segment now :: calls :=
    grown.trans (List.append_assoc _ _ _)
  rw [journal]
  refine tells_append.mpr ⟨enacts.tells, tells_of_rowless fun h member reason row same => ?_⟩
  rcases List.mem_cons.mp member with rfl | member
  · cases same
  · obtain ⟨r, phase, remarks, rfl⟩ := only h member
    cases same

private theorem Acts.exports (plays : t.Plays past swept) (tells : m.Tells swept past t.journal) (reason : EndReason) (time : Int64) :
    idle (past ++ (m.exportRow reason time t).journal) t.record.instances t.record.values ∧
      m.Tells swept past (m.exportRow reason time t).journal := by
  have waits {instances : List (Option σ)} {values : List (Option Value)} {journal after : Journal}
      (swept : swept journal instances values) (quiet : ∀ h ∈ after, h.isIdle = true) : idle (journal ++ after) instances values :=
    (acts.asides quiet (r := { t.record with instances := instances, values := values, active := false })
      ⟨fun open' => absurd open' Bool.false_ne_true, fun _ => acts.rest _ _ _ swept⟩).idle rfl
  rw [exportRow]
  split
  next row found =>
    rw [foldl_log, Turn.log]
    dsimp only
    rw [List.append_assoc, ← List.append_assoc past]
    refine ⟨waits plays fun h member => ?_, tells_append.mpr ⟨tells, ?_, tells_of_rowless fun h member reason row same => ?_⟩⟩
    · rcases List.mem_cons.mp member with rfl | member
      · rfl
      · obtain ⟨exporter, -, rfl⟩ := List.mem_map.mp member
        rfl
    · rintro _ _ ⟨⟩
      exact ⟨t.record, time, plays, found⟩
    · subst same
      obtain ⟨exporter, -, same⟩ := List.mem_map.mp member
      cases same
  next =>
    rw [Turn.log, ← List.append_assoc]
    refine ⟨waits plays (List.forall_mem_singleton.mpr rfl), tells_append.mpr ⟨tells, tells_of_rowless ?_⟩⟩
    exact List.forall_mem_singleton.mpr (by rintro _ _ ⟨⟩)

private theorem Acts.ends (enacts : m.Enacts idle live swept past t) (active : t.record.active = true) (reason : EndReason)
    (time : Int64) : m.Enacts idle live swept past (m.finish reason time t) := by
  have logged := acts.log enacts (h := .finish reason time) rfl (by rintro _ _ ⟨⟩)
  have shown := acts.finish past reason time _ (logged.waits.live active)
  have spared := Spares.foldl (m.stopOne_spares reason time) (List.range m.program.size) (t.log (.finish reason time))
  have still := m.exportRow_record reason time ((List.range m.program.size).foldl (m.stopOne reason time) (t.log (.finish reason time)))
  have tells : m.Tells swept past ((List.range m.program.size).foldl (m.stopOne reason time) (t.log (.finish reason time))).journal := by
    obtain ⟨calls, grown, only⟩ := spared.calls
    rw [grown]
    refine tells_append.mpr ⟨logged.tells, tells_of_rowless fun h member reason row same => ?_⟩
    obtain ⟨r, phase, remarks, rfl⟩ := only h member
    cases same
  obtain ⟨waits, tells⟩ := acts.exports shown tells reason time
  refine ⟨⟨by rintro ⟨⟩, fun _ => ?_⟩, tells⟩
  rw [Meter.finish]
  dsimp only
  rw [still]
  exact waits

private theorem Acts.controls (packet : Packet) (controls : List Nat) (known : ∀ control ∈ controls, control ∈ m.program.controls)
    (enacts : m.Enacts idle live swept past t) (active : t.record.active = true) :
    m.Enacts idle live swept past (m.runControls packet controls t) ∧ (m.runControls packet controls t).record.active = true := by
  induction controls generalizing t with
  | nil => exact ⟨enacts, active⟩
  | cons control controls ih =>
    rw [List.forall_mem_cons] at known
    obtain ⟨next, still⟩ := enacts.spared
      (m.deliver_spares packet.time (some packet) (m.program.size - control) control (.packet packet .flow) t) active
      (acts.control past packet control t known.1 (enacts.waits.live active))
    rw [runControls]
    split
    · exact ⟨next, still⟩
    · exact ih known.2 next still

private theorem Acts.settles (enacts : m.Enacts idle live swept past t) (active : t.record.active = true) (now : Int64) :
    m.Enacts idle live swept past (m.settle now t).2 := by
  have restarted {t : Turn σ φ} (enacts : m.Enacts idle live swept past t) :
      m.Enacts idle live swept past (if Signal.restarts t.signals then m.start now t else t) := by
    split
    · exact acts.begins enacts now
    · exact enacts
  rw [settle]
  split
  next reason _ => exact acts.ends enacts active reason now
  next =>
    dsimp only
    split
    next reason time _ => exact restarted (acts.ends enacts active reason time)
    next => exact restarted enacts

private theorem Acts.runs (enacts : m.Enacts idle live swept past t) (packet : Packet) :
    m.Enacts idle live swept past (m.run packet t).2 := by
  obtain ⟨begun, same, ready, active⟩ : ∃ begun, begun = (if t.record.active then t else m.start packet.time t) ∧
      m.Enacts idle live swept past begun ∧ begun.record.active = true := by
    by_cases active : t.record.active = true
    · exact ⟨t, by rw [if_pos active], enacts, active⟩
    · exact ⟨_, by rw [if_neg active], acts.begins enacts packet.time, rfl⟩
  obtain ⟨controlled, still⟩ := acts.controls packet m.program.controls (fun _ member => member) ready active
  rw [run]
  simp only [← same]
  split
  next reason _ =>
    have ended := acts.ends (acts.log controlled (h := .controlStop reason) rfl (by rintro _ _ ⟨⟩)) still reason packet.time
    exact ⟨⟨ended.waits.live, ended.waits.idle⟩, ended.tells⟩
  next =>
    obtain ⟨delivered, open'⟩ := controlled.spared (m.deliverPacket_spares packet _) still
      (acts.deliver past packet _ (controlled.waits.live still))
    have settled := acts.settles delivered open' packet.time
    exact ⟨⟨settled.waits.live, settled.waits.idle⟩, settled.tells⟩

end Runs

section Operations

variable {idle live swept : Scene σ} {past : Journal}

omit [Feature σ] in
private theorem isIdle_of_quiet {journal : Journal} (quiet : ∀ h ∈ journal, LifeCycle.Quiet h) : ∀ h ∈ journal, h.isIdle = true := by
  intro h member
  cases quiet h member <;> rfl

private theorem tells_of_quiet {journal : Journal} (quiet : ∀ h ∈ journal, LifeCycle.Quiet h) : m.Tells swept past journal := by
  refine tells_of_rowless fun h member reason row same => ?_
  subst same
  cases quiet _ member

variable [Filter φ] (acts : m.Acts idle live swept)
include acts

private theorem Acts.screens {t : Turn σ φ} (enacts : m.Enacts idle live swept past t) (packet : Packet) :
    m.Enacts idle live swept past (screen packet t).2 := by
  have started : ∀ h ∈ (if t.record.filtersAlive then (t.record.filters, []) else startFilters 0 t.record.filters).2,
      LifeCycle.Quiet h := by
    split
    · exact fun _ member => absurd member List.not_mem_nil
    · exact startFilters_quiet t.record.filters 0
  obtain ⟨asked, grown, quiet⟩ : ∃ asked, (screen packet t).2.journal = t.journal ++ asked ∧ ∀ h ∈ asked, LifeCycle.Quiet h :=
    ⟨_, List.append_assoc _ _ _, List.forall_mem_append.mpr ⟨started, askFilters_quiet packet _ 0⟩⟩
  have still := acts.asides (isIdle_of_quiet quiet) enacts.waits
  rw [List.append_assoc, ← grown] at still
  refine ⟨⟨still.live, still.idle⟩, ?_⟩
  rw [grown]
  exact tells_append.mpr ⟨enacts.tells, tells_of_quiet quiet⟩

omit acts [Filter φ] in
private theorem Waits.begin {r : Record σ φ} (waits : Waits idle live past r) : m.Enacts idle live swept past (.ofRecord r) :=
  ⟨by rwa [Turn.ofRecord, List.append_nil], trivial⟩

private theorem Acts.event {r : Record σ φ} (waits : Waits idle live past r) (packet : Packet) :
    Waits idle live (past ++ (m.event r packet).2.2) (m.event r packet).2.1 ∧ m.Tells swept past (m.event r packet).2.2 := by
  rw [Meter.event]
  split
  · exact ⟨by rwa [List.append_nil], trivial⟩
  · have screened := acts.screens (t := .ofRecord r) waits.begin packet
    split
    next t same =>
      rw [same] at screened
      have refused := acts.log screened (h := .veto) rfl (by rintro _ _ ⟨⟩)
      exact ⟨refused.waits, refused.tells⟩
    next t same =>
      rw [same] at screened
      have done := acts.runs screened packet
      exact ⟨done.waits, done.tells⟩

private theorem Acts.stop {r : Record σ φ} (waits : Waits idle live past r) (reason : EndReason) (now : Int64) :
    Waits idle live (past ++ (m.stop r reason now).2) (m.stop r reason now).1 ∧ m.Tells swept past (m.stop r reason now).2 := by
  rw [Meter.stop]
  split
  · exact ⟨by rwa [List.append_nil], trivial⟩
  · have ended : m.Enacts idle live swept past (if r.active then m.finish reason now (.ofRecord r) else .ofRecord r) := by
      split
      next active => exact acts.ends waits.begin active reason now
      next => exact waits.begin
    generalize (if r.active then m.finish reason now (.ofRecord r) else .ofRecord r) = t at ended
    have quiet : ∀ h ∈ (if t.record.filtersAlive then stopFilters 0 t.record.filters else (t.record.filters, [])).2,
        LifeCycle.Quiet h := by
      split
      · exact stopFilters_quiet t.record.filters 0
      · exact fun _ member => absurd member List.not_mem_nil
    have still := acts.asides (isIdle_of_quiet quiet) ended.waits
    rw [List.append_assoc] at still
    exact ⟨⟨still.live, still.idle⟩, tells_append.mpr ⟨ended.tells, tells_of_quiet quiet⟩⟩

private theorem Acts.performAll (operations : List Operation) {r : Record σ φ} (waits : Waits idle live past r) :
    Waits idle live (past ++ (m.performAll r operations).2) (m.performAll r operations).1 ∧
      m.Tells swept past (m.performAll r operations).2 := by
  induction operations generalizing r past with
  | nil => exact ⟨by rwa [Meter.performAll, List.append_nil], trivial⟩
  | cons operation operations ih =>
    have performed : Waits idle live (past ++ (m.perform r operation).2) (m.perform r operation).1 ∧
        m.Tells swept past (m.perform r operation).2 := by
      cases operation with
      | event packet => exact acts.event waits packet
      | stop reason now => exact acts.stop waits reason now
    obtain ⟨after, tells⟩ := ih performed.1
    rw [Meter.performAll, ← List.append_assoc]
    exact ⟨after, tells_append.mpr ⟨performed.2, tells⟩⟩

/-- Every row that a record hands out shows a record that has been swept at its place in the journal. -/
theorem Acts.tells (operations : List Operation) : m.Tells swept [] (m.performAll m.make operations).2 := by
  have waits : Waits idle live [] m.make := ⟨nofun, fun _ => acts.make⟩
  exact (acts.performAll operations waits).2

end Operations

end Meter

end FlowMetering
