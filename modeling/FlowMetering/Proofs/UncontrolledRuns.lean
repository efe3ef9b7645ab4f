import FlowMetering.Proofs.Restarts
import FlowMetering.Proofs.StopSweeps

/-! Records without controls and filters. Packets are delivered one after the other, the first of them after a start, and
the row of a stop shows what its sweep has left. -/

namespace FlowMetering.Library

variable {φ : Type} {m : Meter Instance φ} {r : Record Instance φ}

private theorem circuit_nowhere {p : Program Instance φ} (ordered : p.Ordered) : Circuit p (fun _ => .raw ()) fun _ => False :=
  ⟨ordered, fun _ held => held.elim⟩

structure Bare (m : Meter Instance φ) : Prop where
  ordered : m.program.Ordered
  uncontrolled : m.program.controls = []
  unfiltered : m.program.filters = []
  calm : Calm m.make

/-- A record in the middle of a segment, in which there are neither controls nor filters. -/
structure Open (m : Meter Instance φ) (r : Record Instance φ) : Prop where
  fits : m.Fits r
  calm : Calm r
  active : r.active = true
  alive : r.alive = true
  unfiltered : r.filters = []
  unasked : r.filtersAlive = false

private theorem Open.running (opened : Open m r) : Running m (fun _ => .raw ()) (fun _ => False) r where
  rests _ _ _ held := held.elim
  fits := opened.fits
  calm := opened.calm
  active := opened.active
  alive := opened.alive
  unfiltered := opened.unfiltered
  values _ steady := steady.1.elim

/-- A record that is fresh or in the middle of a segment. -/
def Awaits (m : Meter Instance φ) (r : Record Instance φ) : Prop :=
  r = m.make ∨ Open m r

def begun (m : Meter Instance φ) (now : Int64) (r : Record Instance φ) : Turn Instance φ :=
  if r.active then .ofRecord r else m.start now (.ofRecord r)

theorem begun_active (active : r.active = true) (now : Int64) : begun m now r = .ofRecord r :=
  if_pos active

def swept (m : Meter Instance φ) (reason : EndReason) (now : Int64) (r : Record Instance φ) : Turn Instance φ :=
  (List.range m.program.size).foldl (m.stopOne reason now) ((Turn.ofRecord r).log (.finish reason now))

private theorem make_unfiltered (bare : Bare m) : m.make.filters = [] := by
  rw [Meter.make, bare.unfiltered]
  rfl

namespace Awaits

theorem begins (bare : Bare m) (awaits : Awaits m r) (now : Int64) :
    Open m (begun m now r).record ∧ (begun m now r).signals = [] ∧ (begun m now r).journal.rows = [] := by
  rcases awaits with rfl | opened
  · obtain ⟨values, calm, rows, -⟩ := start_begins m now (t := .ofRecord m.make) bare.calm
    have frame := m.start_frame now (.ofRecord m.make)
    exact ⟨⟨(Meter.start_follows m now _ m.make_fits).fits, calm, rfl, congrArg (·.2.2) frame,
      (congrArg (·.1) frame).trans (make_unfiltered bare), congrArg (·.2.1) frame⟩, rfl, rows⟩
  · rw [begun_active opened.active]
    exact ⟨opened, rfl, rfl⟩

/-- A packet is delivered to a record that has begun. -/
theorem event [Filter φ] (bare : Bare m) (awaits : Awaits m r) (packet : Packet) :
    (m.event r packet).2.1 =
        (Meter.setLast packet.time (m.deliverPacket packet (begun m packet.time r))).record ∧
      (m.event r packet).2.2.rows = [] ∧ Open m (m.event r packet).2.1 := by
  obtain ⟨opened, silent, rows⟩ := awaits.begins bare packet.time
  have unchanged : { r with filters := [], filtersAlive := false } = r ∧ r.alive = true ∧ r.filters = [] := by
    rcases awaits with rfl | opened
    · have unfiltered := make_unfiltered bare
      exact ⟨by rw [← unfiltered]; rfl, rfl, unfiltered⟩
    · rw [← opened.unfiltered, ← opened.unasked]
      exact ⟨rfl, opened.alive, rfl⟩
  have same : (if (Turn.ofRecord r).record.active then Turn.ofRecord r else m.start packet.time (.ofRecord r)) =
      begun m packet.time r := rfl
  have ran := run_eq (circuit_nowhere bare.ordered) bare.uncontrolled packet same opened.running silent
  obtain ⟨running, quiet⟩ := run_next (circuit_nowhere bare.ordered) bare.uncontrolled packet same opened.running silent
  have frame := m.run_frame packet (.ofRecord r)
  have done := event_unfiltered (m := m) packet unchanged.2.1 unchanged.2.2
  rw [unchanged.1] at done
  rw [done]
  refine ⟨congrArg (·.2.record) ran, quiet.trans rows, running.fits, running.calm, running.active, running.alive,
    running.unfiltered, ?_⟩
  exact (congrArg (·.2.1) frame).trans (congrArg Record.filtersAlive unchanged.1).symm

/-- A stop hands out the row of what its sweep has left, if there is a segment to end. -/
theorem stop [Filter φ] (awaits : Awaits m r) {reason : EndReason} {now : Int64} {row : Row}
    (member : row ∈ (m.stop r reason now).2.rows) :
    r.active = true ∧ m.row? (swept m reason now r).record now = some row := by
  rcases awaits with rfl | opened
  · rw [Meter.stop] at member
    exact absurd member List.not_mem_nil
  · refine ⟨opened.active, ?_⟩
    have none : (swept m reason now r).journal.rows = [] := by
      have spared := Meter.Spares.foldl (m.stopOne_spares reason now) (List.range m.program.size)
        ((Turn.ofRecord r).log (.finish reason now))
      exact spared.rows
    rw [Meter.stop, opened.alive, opened.active] at member
    simp only [Bool.not_true, Bool.false_eq_true, if_false, if_true, Journal.rows_append] at member
    rcases List.mem_append.mp member with member | member
    · rcases Meter.exportRow_rows member with member | found
      · exact absurd (none ▸ member) List.not_mem_nil
      · exact found
    · split at member
      · rw [rows_stopFilters] at member
        cases member
      · cases member

/-- Packets hand no row out. -/
theorem events [Filter φ] (bare : Bare m) (awaits : Awaits m r) (packets : List Packet) :
    Awaits m (m.performAll r (packets.map .event)).1 ∧ (m.performAll r (packets.map .event)).2.rows = [] := by
  induction packets generalizing r with
  | nil => exact ⟨awaits, rfl⟩
  | cons packet packets ih =>
    obtain ⟨-, rows, opened⟩ := awaits.event bare packet
    obtain ⟨rest, quiet⟩ := ih (.inr opened)
    refine ⟨rest, ?_⟩
    rw [List.map_cons, Meter.performAll, Journal.rows_append, Meter.perform, quiet, rows]
    rfl

end Awaits

end FlowMetering.Library
