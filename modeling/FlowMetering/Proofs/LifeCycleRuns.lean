import FlowMetering.Library.Catalog
import FlowMetering.Proofs.LifeCycle
import Mathlib.Data.List.Nodup

/-! Records keep to the life cycle. What each part of an operation adds to the journal is stated for arbitrary
features; only that dependents have greater numbers is needed of the program. -/

namespace FlowMetering.Meter
open LifeCycle

variable {σ φ : Type} {m : Meter σ φ}

/-- A record has an instance exactly where the program can build one. -/
def Fits (m : Meter σ φ) (r : Record σ φ) : Prop :=
  r.instances.map Option.isSome = m.program.nodes.map fun node => node.build?.isSome

/-- From one turn to another the journal has grown by some calls, and no segment has begun or ended. -/
structure Grows (m : Meter σ φ) (before after : Turn σ φ) (calls : Journal) : Prop where
  journal : after.journal = before.journal ++ calls
  fits : m.Fits after.record
  active : after.record.active = before.record.active

private theorem Grows.refl {t : Turn σ φ} (fits : m.Fits t.record) : m.Grows t t [] :=
  ⟨(List.append_nil _).symm, fits, rfl⟩

private theorem Grows.trans {first middle last : Turn σ φ} {one other : Journal} (a : m.Grows first middle one)
    (b : m.Grows middle last other) : m.Grows first last (one ++ other) :=
  ⟨by rw [b.journal, a.journal, List.append_assoc], b.fits, b.active.trans a.active⟩

private theorem Grows.setValue {before after : Turn σ φ} {calls : Journal} (grows : m.Grows before after calls) (r : Nat)
    (v : Option Value) : m.Grows before (after.setValue r v) calls :=
  ⟨grows.journal, grows.fits, grows.active⟩

theorem make_fits (m : Meter σ φ) : m.Fits m.make := by
  simp only [Fits, make, List.map_map]
  exact List.map_congr_left fun node _ => Option.isSome_map

theorem mem_built {r : Nat} :
    r ∈ m.built ↔ ∃ node, m.program.nodes[r]? = some node ∧ node.build?.isSome := by
  simp only [built, Program.size, List.mem_filter, List.mem_range]
  constructor
  · rintro ⟨inside, has⟩
    rw [List.getElem?_eq_getElem inside] at has ⊢
    exact ⟨_, rfl, has⟩
  · rintro ⟨node, held, has⟩
    exact ⟨(List.getElem?_eq_some_iff.mp held).1, by rw [held]; exact has⟩

private theorem nodup_built (m : Meter σ φ) : m.built.Nodup :=
  List.nodup_range.filter _

theorem Fits.mem_built {r : Record σ φ} (fits : m.Fits r) {q : Nat} :
    q ∈ m.built ↔ ∃ s, r.instances[q]? = some (some s) := by
  have same : r.instances[q]?.map Option.isSome = m.program.nodes[q]?.map fun node => node.build?.isSome := by
    rw [← List.getElem?_map, ← List.getElem?_map, fits]
  rw [Meter.mem_built]
  constructor
  · rintro ⟨node, held, has⟩
    rw [held, Option.map_some, has] at same
    obtain ⟨found, stored, some⟩ := Option.map_eq_some_iff.mp same
    obtain ⟨s, rfl⟩ := Option.isSome_iff_exists.mp some
    exact ⟨s, stored⟩
  · rintro ⟨s, stored⟩
    rw [stored, Option.map_some] at same
    obtain ⟨node, held, some⟩ := Option.map_eq_some_iff.mp same.symm
    exact ⟨node, held, some⟩

/-- An instance that a record has stands in its program. -/
theorem Fits.not_mem_built {r : Record σ φ} (fits : m.Fits r) {q : Nat} (idle : ∀ s, r.instances[q]? ≠ some (some s)) :
    q ∉ m.built := by
  intro member
  obtain ⟨s, held⟩ := fits.mem_built.mp member
  exact idle s held

theorem Fits.inside {r : Record σ φ} (fits : m.Fits r) {q : Nat} {s : σ} (held : r.instances[q]? = some (some s)) :
    q < m.program.size := by
  obtain ⟨node, found, -⟩ := Meter.mem_built.mp (fits.mem_built.mpr ⟨s, held⟩)
  exact (List.getElem?_eq_some_iff.mp found).1

theorem Fits.setInstance {t : Turn σ φ} (fits : m.Fits t.record) {r : Nat} {old : σ} (s : σ)
    (held : t.record.instances[r]? = some (some old)) : m.Fits (t.setInstance r s).record := by
  unfold Fits at fits ⊢
  rw [← fits]
  apply List.ext_getElem?
  intro q
  simp only [Turn.setInstance, List.getElem?_map, List.getElem?_set]
  split
  next same =>
    subst same
    rw [if_pos (List.getElem?_eq_some_iff.mp held).1, held]
    rfl
  next => rfl

private theorem call_grows (m : Meter σ φ) (now : Int64) (r : Nat) (phase : Phase) (answer : Context → σ → σ × Reaction)
    (t : Turn σ φ) (fits : m.Fits t.record) :
    (r ∈ m.built ∧ ∃ remarks, m.Grows t (m.call now r phase answer t).1 [.call r phase remarks]) ∨
      (r ∉ m.built ∧ m.call now r phase answer t = (t, .nothing)) := by
  by_cases member : r ∈ m.built
  · refine Or.inl ⟨member, ?_⟩
    obtain ⟨s, held⟩ := fits.mem_built.mp member
    refine ⟨(answer (m.context t now r) s).2.remarks, ?_⟩
    simp only [call, held]
    exact ⟨rfl, fits.setInstance _ held, rfl⟩
  · refine Or.inr ⟨member, ?_⟩
    unfold call
    split
    next s held => exact absurd (fits.mem_built.mpr ⟨s, held⟩) member
    next => rfl

/-- Only events, and only of instances from register `r` on. -/
private def Deliveries (m : Meter σ φ) (r : Nat) (calls : Journal) : Prop :=
  ∀ h ∈ calls, ∃ d input remarks, h = .call d (.event input) remarks ∧ d ∈ m.built ∧ r ≤ d

private theorem Deliveries.nil {r : Nat} : m.Deliveries r [] :=
  fun _ member => absurd member List.not_mem_nil

private theorem Deliveries.append {r : Nat} {one other : Journal} (a : m.Deliveries r one) (b : m.Deliveries r other) :
    m.Deliveries r (one ++ other) :=
  fun h member => (List.mem_append.mp member).elim (a h) (b h)

private theorem Deliveries.mono {small large : Nat} {calls : Journal} (le : small ≤ large)
    (deliveries : m.Deliveries large calls) : m.Deliveries small calls := by
  intro h member
  obtain ⟨d, input, remarks, same, inside, above⟩ := deliveries h member
  exact ⟨d, input, remarks, same, inside, Nat.le_trans le above⟩

private theorem foldl_deliveries {r : Nat} (next : Turn σ φ → Nat → Turn σ φ) (ds : List Nat)
    (step : ∀ d ∈ ds, ∀ t, m.Fits t.record → ∃ calls, m.Grows t (next t d) calls ∧ m.Deliveries r calls)
    (t : Turn σ φ) (fits : m.Fits t.record) :
    ∃ calls, m.Grows t (ds.foldl next t) calls ∧ m.Deliveries r calls := by
  induction ds generalizing t with
  | nil => exact ⟨[], .refl fits, .nil⟩
  | cons d ds ih =>
    obtain ⟨one, first, deliveries⟩ := step d List.mem_cons_self t fits
    obtain ⟨other, rest, others⟩ := ih (fun d member => step d (List.mem_cons_of_mem _ member)) _ first.fits
    exact ⟨one ++ other, first.trans rest, deliveries.append others⟩

private theorem propagate_deliveries (ordered : m.program.Ordered) (next : Nat → Input → Turn σ φ → Turn σ φ)
    (packet : Option Packet) (r : Nat)
    (step : ∀ d, r < d → ∀ input t, m.Fits t.record →
      ∃ calls, m.Grows t (next d input t) calls ∧ m.Deliveries (r + 1) calls)
    (emission : Emission) (t : Turn σ φ) (fits : m.Fits t.record) :
    ∃ calls, m.Grows t (m.propagate next packet r t emission) calls ∧ m.Deliveries (r + 1) calls := by
  have silent : ∃ calls, m.Grows t t calls ∧ m.Deliveries (r + 1) calls :=
    ⟨[], .refl fits, .nil⟩
  cases emission with
  | nothing => exact silent
  | value v =>
    cases v with
    | none => exact ⟨[], (Grows.refl fits).setValue r none, .nil⟩
    | some v =>
      obtain ⟨calls, grows, deliveries⟩ := foldl_deliveries (fun t d => next d (.value v r) t) _
        (fun d member => step d (ordered.lt_of_dependent member) _) (t.setValue r (some v)) fits
      exact ⟨calls, ⟨grows.journal, grows.fits, grows.active⟩, deliveries⟩
  | forward =>
    cases packet with
    | none => exact silent
    | some p =>
      exact foldl_deliveries _ _ (fun d member => step d (ordered.lt_of_dependent member) _) t fits

theorem range_built (m : Meter σ φ) : (List.range m.program.size).filter (· ∈ m.built) = m.built := by
  apply List.filter_congr
  intro r member
  simp [built, List.mem_range.mp member]

private theorem Deliveries.stops {r : Nat} {waiting : List Nat} {calls rest : Journal} {reason : EndReason}
    (deliveries : m.Deliveries r calls) (held : ∀ d ∈ m.built, r ≤ d → d ∈ waiting)
    (stops : Stops reason waiting rest) : Stops reason waiting (calls ++ rest) := by
  induction calls with
  | nil => exact stops
  | cons h calls ih =>
    obtain ⟨d, input, remarks, rfl, member, above⟩ := deliveries h List.mem_cons_self
    exact .event d input remarks (held d member above)
      (ih fun h member => deliveries h (List.mem_cons_of_mem _ member))

theorem foldl_log (exporters : List Exporter) (row : Row) (t : Turn σ φ) :
    exporters.foldl (fun t exporter => t.log (.export exporter.name row (exporter.fails row))) t =
      { t with journal := t.journal ++ exporters.map fun exporter => .export exporter.name row (exporter.fails row) } := by
  induction exporters generalizing t with
  | nil => simp
  | cons exporter exporters ih => 
    rw [List.foldl_cons, ih]
    simp only [Turn.log, List.map_cons, List.append_assoc, List.singleton_append]

/-- From one turn to another the journal leads from the activity of the record before to that after. -/
def Follows (m : Meter σ φ) (before after : Turn σ φ) : Prop :=
  ∃ calls, after.journal = before.journal ++ calls ∧
    Leads m.built m.exporters before.record.active calls after.record.active ∧ m.Fits after.record

theorem Follows.fits {before after : Turn σ φ} (follows : m.Follows before after) : m.Fits after.record := by
  obtain ⟨_, _, _, fits⟩ := follows
  exact fits

private theorem Follows.refl {t : Turn σ φ} (fits : m.Fits t.record) : m.Follows t t :=
  ⟨[], (List.append_nil _).symm, .done _, fits⟩

private theorem Follows.trans {first middle last : Turn σ φ} (a : m.Follows first middle) (b : m.Follows middle last) :
    m.Follows first last := by
  obtain ⟨one, grown, leads, _⟩ := a
  obtain ⟨other, growing, leading, fits⟩ := b
  exact ⟨one ++ other, by rw [growing, grown, List.append_assoc], leads.append leading, fits⟩

private theorem Grows.follows {before after : Turn σ φ} {calls : Journal} {r : Nat} (grows : m.Grows before after calls)
    (deliveries : m.Deliveries r calls) (active : before.record.active = true) : m.Follows before after := by
  refine ⟨calls, grows.journal, ?_, grows.fits⟩
  rw [grows.active, active]
  clear grows
  induction calls with
  | nil => exact .done true
  | cons h calls ih =>
    obtain ⟨d, input, remarks, rfl, member, _⟩ := deliveries h List.mem_cons_self
    exact .event d input remarks member (ih fun h member => deliveries h (List.mem_cons_of_mem _ member))

private theorem leads_of_quiet {active : Bool} {calls : Journal} (quiet : ∀ h ∈ calls, Quiet h) :
    Leads m.built m.exporters active calls active := by
  induction calls with
  | nil => exact .done active
  | cons h calls ih =>
    exact .quiet h (quiet h List.mem_cons_self) (ih fun h member => quiet h (List.mem_cons_of_mem _ member))

variable [Feature σ]

private theorem deliver_deliveries (ordered : m.program.Ordered) (now : Int64) (packet : Option Packet) (fuel r : Nat)
    (input : Input) (t : Turn σ φ) (fits : m.Fits t.record) :
    ∃ calls, m.Grows t (m.deliver now packet fuel r input t) calls ∧ m.Deliveries r calls := by
  induction fuel generalizing r input t with
  | zero => exact ⟨[], .refl fits, .nil⟩
  | succ fuel ih =>
    have step : ∀ d, r < d → ∀ input t, m.Fits t.record →
        ∃ calls, m.Grows t (m.deliver now packet fuel d input t) calls ∧ m.Deliveries (r + 1) calls := by
      intro d later input t fits
      obtain ⟨calls, grows, deliveries⟩ := ih d input t fits
      exact ⟨calls, grows, deliveries.mono later⟩
    rcases m.call_grows now r (.event input) (Feature.event input) t fits with ⟨member, remarks, called⟩ | ⟨_, same⟩
    · obtain ⟨calls, grows, deliveries⟩ :=
        propagate_deliveries ordered _ packet r step (m.call now r (.event input) (Feature.event input) t).2 _ called.fits
      refine ⟨_, called.trans grows, Deliveries.append ?_ (deliveries.mono (Nat.le_succ r))⟩
      intro h held
      rw [List.mem_singleton.mp held]
      exact ⟨r, input, remarks, rfl, member, Nat.le_refl r⟩
    · simp only [deliver, same]
      exact ⟨[], .refl fits, .nil⟩

private theorem dispatch_deliveries (ordered : m.program.Ordered) (now : Int64) (packet : Option Packet) (r : Nat)
    (input : Input) (t : Turn σ φ) (fits : m.Fits t.record) :
    ∃ calls, m.Grows t (m.dispatch now packet r input t) calls ∧ m.Deliveries r calls :=
  deliver_deliveries ordered now packet _ r input t fits

private theorem startOne_grows (m : Meter σ φ) (now : Int64) (r : Nat) (t : Turn σ φ) (fits : m.Fits t.record) :
    (r ∈ m.built ∧ ∃ remarks, m.Grows t (m.startOne now t r) [.call r .start remarks]) ∨
      (r ∉ m.built ∧ m.startOne now t r = t) := by
  rcases m.call_grows now r .start Feature.start t fits with ⟨member, remarks, called⟩ | ⟨absent, same⟩
  · refine Or.inl ⟨member, remarks, ?_⟩
    unfold startOne
    split
    next t' v same => exact (same ▸ called).setValue r v
    next t' _ _ same =>
      rw [same] at called
      exact called
  · refine Or.inr ⟨absent, ?_⟩
    simp only [startOne, same]

private theorem startSweep_grows (m : Meter σ φ) (now : Int64) (rs : List Nat) (t : Turn σ φ) (fits : m.Fits t.record) :
    ∃ calls, m.Grows t (rs.foldl (m.startOne now) t) calls ∧ Starts (rs.filter (· ∈ m.built)) calls := by
  induction rs generalizing t with
  | nil => exact ⟨[], .refl fits, .done⟩
  | cons r rs ih =>
    rcases m.startOne_grows now r t fits with ⟨member, remarks, one⟩ | ⟨absent, same⟩
    · obtain ⟨calls, rest, starts⟩ := ih _ one.fits
      refine ⟨_, one.trans rest, ?_⟩
      rw [List.filter_cons_of_pos (by simpa using member)]
      exact .start r remarks starts
    · obtain ⟨calls, rest, starts⟩ := ih t fits
      rw [List.filter_cons_of_neg (by simpa using absent), List.foldl_cons, same]
      exact ⟨calls, rest, starts⟩

/-- A segment begins with one start of each instance. -/
theorem start_sweeps (m : Meter σ φ) (now : Int64) (t : Turn σ φ) (fits : m.Fits t.record) :
    ∃ sweep, (m.start now t).journal = t.journal ++ .segment now :: sweep ∧ Starts m.built sweep ∧
      m.Fits (m.start now t).record := by
  obtain ⟨sweep, grows, starts⟩ := m.startSweep_grows now (List.range m.program.size)
    { t.log (.segment now) with record := { t.record with values := m.program.nodes.map (·.constant) } } fits
  rw [range_built] at starts
  refine ⟨sweep, ?_, starts, grows.fits⟩
  rw [List.append_cons]
  exact grows.journal

theorem start_follows (m : Meter σ φ) (now : Int64) (t : Turn σ φ) (fits : m.Fits t.record) :
    m.Follows t (m.start now t) := by
  obtain ⟨sweep, journal, starts, fits⟩ := m.start_sweeps now t fits
  refine ⟨.segment now :: sweep ++ [], ?_, .start _ now starts (.done true), fits⟩
  rw [List.append_nil]
  exact journal

/-- Stopping the instances from `r` on. What an instance emits at its stop reaches only later ones, which wait
for their own stop. -/
private theorem stopSweep_grows (ordered : m.program.Ordered) (reason : EndReason) (time : Int64) (count r : Nat)
    (size : r + count = m.program.size) (t : Turn σ φ) (fits : m.Fits t.record) :
    ∃ calls, m.Grows t ((List.range' r count).foldl (m.stopOne reason time) t) calls ∧
      Stops reason ((List.range' r count).filter (· ∈ m.built)) calls := by
  induction count generalizing r t with
  | zero => exact ⟨[], .refl fits, .done⟩
  | succ count ih =>
    have later : ∀ d ∈ m.built, r + 1 ≤ d → d ∈ (List.range' (r + 1) count).filter (· ∈ m.built) := by
      intro d member above
      obtain ⟨node, held, _⟩ := Meter.mem_built.mp member
      have inside : d < m.program.size := (List.getElem?_eq_some_iff.mp held).1
      exact List.mem_filter.mpr ⟨List.mem_range'_1.mpr ⟨above, by omega⟩, by simpa using member⟩
    rw [List.range'_succ, List.foldl_cons]
    rcases m.call_grows time r (.stop reason) (Feature.stop reason) t fits with ⟨member, remarks, called⟩ | ⟨absent, same⟩
    · obtain ⟨sent, spread, deliveries⟩ := propagate_deliveries ordered (m.dispatch time none) none r
        (fun d above input t fits => by
          obtain ⟨calls, grows, deliveries⟩ := dispatch_deliveries ordered time none d input t fits
          exact ⟨calls, grows, deliveries.mono above⟩)
        (m.call time r (.stop reason) (Feature.stop reason) t).2 _ called.fits
      obtain ⟨calls, rest, stops⟩ := ih (r + 1) (by omega) _ spread.fits
      refine ⟨_, called.trans (spread.trans rest), ?_⟩
      rw [List.filter_cons_of_pos (by simpa using member)]
      exact .stop r remarks (deliveries.stops later stops)
    · obtain ⟨calls, rest, stops⟩ := ih (r + 1) (by omega) t fits
      have kept : m.stopOne reason time t r = t := by simp only [stopOne, same, propagate]
      rw [List.filter_cons_of_neg (by simpa using absent), kept]
      exact ⟨calls, rest, stops⟩

private theorem exportRow_grows (m : Meter σ φ) (reason : EndReason) (time : Int64) (t : Turn σ φ)
    (fits : m.Fits t.record) :
    ∃ attempt, m.Grows t (m.exportRow reason time t) attempt ∧ Attempt m.exporters reason attempt := by
  unfold exportRow
  split
  next row _ =>
    rw [foldl_log]
    exact ⟨_, ⟨by simp [Turn.log], fits, rfl⟩, .row row⟩
  next => exact ⟨_, ⟨rfl, fits, rfl⟩, .noTemplate⟩

/-- A segment ends with one stop of each instance and one attempt to export. -/
theorem finish_sweeps (ordered : m.program.Ordered) (reason : EndReason) (time : Int64) (t : Turn σ φ)
    (fits : m.Fits t.record) :
    ∃ sweep attempt, (m.finish reason time t).journal = t.journal ++ .finish reason time :: sweep ++ attempt ∧
      Stops reason m.built sweep ∧ Attempt m.exporters reason attempt ∧ m.Fits (m.finish reason time t).record := by
  obtain ⟨sweep, grows, stops⟩ := stopSweep_grows ordered reason time m.program.size 0 (Nat.zero_add _)
    (t.log (.finish reason time)) fits
  rw [← List.range_eq_range'] at grows stops
  rw [range_built] at stops
  obtain ⟨attempt, exported, attempted⟩ := m.exportRow_grows reason time _ grows.fits
  refine ⟨sweep, attempt, ?_, stops, attempted, exported.fits⟩
  have journal := (grows.trans exported).journal
  rw [Turn.log, ← List.append_cons] at journal
  rw [List.append_assoc]
  exact journal

private theorem finish_follows (ordered : m.program.Ordered) (reason : EndReason) (time : Int64) (t : Turn σ φ)
    (fits : m.Fits t.record) (active : t.record.active = true) : m.Follows t (m.finish reason time t) := by
  obtain ⟨sweep, attempt, journal, stops, attempted, fits⟩ := finish_sweeps ordered reason time t fits
  refine ⟨.finish reason time :: sweep ++ attempt ++ [], ?_, ?_, fits⟩
  · rw [List.append_nil, ← List.append_assoc]
    exact journal
  · rw [active]
    exact .finish reason time stops attempted (.done false)

private theorem runControls_grows (ordered : m.program.Ordered) (packet : Packet) (controls : List Nat) (t : Turn σ φ)
    (fits : m.Fits t.record) :
    ∃ calls, m.Grows t (m.runControls packet controls t) calls ∧ m.Deliveries 0 calls := by
  induction controls generalizing t with
  | nil => exact ⟨[], .refl fits, .nil⟩
  | cons control controls ih =>
    obtain ⟨one, first, deliveries⟩ := dispatch_deliveries ordered packet.time (some packet) control
      (.packet packet .flow) t fits
    unfold runControls
    dsimp only
    split
    · exact ⟨one, first, deliveries.mono (Nat.zero_le _)⟩
    · obtain ⟨other, rest, others⟩ := ih _ first.fits
      exact ⟨one ++ other, first.trans rest, (deliveries.mono (Nat.zero_le _)).append others⟩

private theorem finishEventOne_follows (r : Nat) (t : Turn σ φ) (fits : m.Fits t.record)
    (active : t.record.active = true) :
    m.Follows t (finishEventOne t r) ∧ (finishEventOne t r).record.active = true := by
  unfold finishEventOne
  split
  next s held =>
    refine ⟨⟨_, rfl, ?_, fits.setInstance _ held⟩, active⟩
    rw [active]
    exact .finishEvent r _ (fits.mem_built.mpr ⟨s, held⟩) (active ▸ .done _)
  next => exact ⟨.refl fits, active⟩

private theorem finishEvents_follows (rs : List Nat) (t : Turn σ φ) (fits : m.Fits t.record)
    (active : t.record.active = true) :
    m.Follows t (rs.foldl finishEventOne t) ∧ (rs.foldl finishEventOne t).record.active = true := by
  induction rs generalizing t with
  | nil => exact ⟨.refl fits, active⟩
  | cons r rs ih =>
    obtain ⟨one, still⟩ := finishEventOne_follows r t fits active
    obtain ⟨rest, last⟩ := ih _ one.fits still
    exact ⟨one.trans rest, last⟩

theorem deliverPacket_follows (ordered : m.program.Ordered) (packet : Packet) (t : Turn σ φ) (fits : m.Fits t.record)
    (active : t.record.active = true) :
    m.Follows t (m.deliverPacket packet t) ∧ (m.deliverPacket packet t).record.active = true := by
  obtain ⟨calls, grows, deliveries⟩ := foldl_deliveries (r := 0)
    (fun t r => m.dispatch packet.time (some packet) r (.packet packet .flow) t) m.program.events
    (fun r _ t fits => by
      obtain ⟨calls, grows, deliveries⟩ := dispatch_deliveries ordered packet.time (some packet) r
        (.packet packet .flow) t fits
      exact ⟨calls, grows, deliveries.mono (Nat.zero_le _)⟩) t fits
  obtain ⟨closed, still⟩ := finishEvents_follows (List.range m.program.size) _ grows.fits (grows.active.trans active)
  exact ⟨(grows.follows deliveries active).trans closed, still⟩

private theorem settle_follows (ordered : m.program.Ordered) (now : Int64) (t : Turn σ φ) (fits : m.Fits t.record)
    (active : t.record.active = true) : m.Follows t (m.settle now t).2 := by
  have restarted : ∀ t : Turn σ φ, m.Fits t.record →
      m.Follows t (if Signal.restarts t.signals then m.start now t else t) := by
    intro t fits
    split
    · exact start_follows m now t fits
    · exact .refl fits
  unfold settle
  split
  next reason _ => exact finish_follows ordered reason now t fits active
  next =>
    dsimp only
    split
    next reason time _ =>
      have finished := finish_follows ordered reason time t fits active
      exact finished.trans (restarted _ finished.fits)
    next => exact restarted t fits

private theorem run_follows (ordered : m.program.Ordered) (packet : Packet) (t : Turn σ φ) (fits : m.Fits t.record) :
    m.Follows t (m.run packet t).2 := by
  have started : ∃ s, s = (if t.record.active then t else m.start packet.time t) ∧ m.Follows t s ∧
      s.record.active = true := by
    by_cases active : t.record.active = true
    · exact ⟨t, by rw [if_pos active], .refl fits, active⟩
    · exact ⟨m.start packet.time t, by rw [if_neg active], start_follows m _ t fits, rfl⟩
  obtain ⟨s, same, begun, active⟩ := started
  obtain ⟨calls, controlled, deliveries⟩ := runControls_grows ordered packet m.program.controls s begun.fits
  have followed := begun.trans (controlled.follows deliveries active)
  have still := controlled.active.trans active
  unfold run
  simp only [← same]
  split
  next reason _ =>
    refine followed.trans (Follows.trans ?_
      (finish_follows ordered reason packet.time _ controlled.fits still))
    exact ⟨_, rfl, .quiet _ (.controlStop reason) (.done _), controlled.fits⟩
  next =>
    obtain ⟨delivered, open'⟩ := deliverPacket_follows ordered packet _ controlled.fits still
    exact (followed.trans delivered).trans (settle_follows ordered packet.time _ delivered.fits open')

variable [Filter φ]

theorem startFilters_quiet (fs : List φ) (i : Nat) : ∀ h ∈ (startFilters i fs).2, Quiet h := by
  induction fs generalizing i with
  | nil => exact fun _ member => absurd member List.not_mem_nil
  | cons f fs ih =>
    intro h member
    rcases List.mem_cons.mp member with rfl | member
    · exact .filter _ _ _
    · exact ih (i + 1) h member

theorem stopFilters_quiet (fs : List φ) (i : Nat) : ∀ h ∈ (stopFilters i fs).2, Quiet h := by
  induction fs generalizing i with
  | nil => exact fun _ member => absurd member List.not_mem_nil
  | cons f fs ih =>
    intro h member
    rcases List.mem_cons.mp member with rfl | member
    · exact .filter _ _ _
    · exact ih (i + 1) h member

omit [Feature σ] in
theorem stopStarted_quiet (t : Turn σ φ) : ∀ h ∈ (if t.record.filtersAlive then stopFilters 0 t.record.filters
    else (t.record.filters, [])).2, Quiet h := by
  split
  · exact stopFilters_quiet _ 0
  · exact fun _ member => absurd member List.not_mem_nil

theorem askFilters_quiet (packet : Packet) (fs : List φ) (i : Nat) :
    ∀ h ∈ (askFilters packet i fs).2.2, Quiet h := by
  induction fs generalizing i with
  | nil => exact fun _ member => absurd member List.not_mem_nil
  | cons f fs ih =>
    intro h member
    unfold askFilters at member
    split at member
    · rw [List.mem_singleton.mp member]
      exact .filter _ _ _
    · rcases List.mem_cons.mp member with rfl | member
      · exact .filter _ _ _
      · exact ih (i + 1) h member

omit [Feature σ] in
theorem screen_follows (packet : Packet) (t : Turn σ φ) (fits : m.Fits t.record) :
    m.Follows t (screen packet t).2 := by
  unfold screen
  dsimp only
  refine ⟨_, List.append_assoc _ _ _, leads_of_quiet ?_, fits⟩
  intro h member
  rcases List.mem_append.mp member with member | member
  · split at member
    · cases member
    · exact startFilters_quiet _ _ h member
  · exact askFilters_quiet _ _ _ h member

private theorem event_follows (ordered : m.program.Ordered) (r : Record σ φ) (packet : Packet) (fits : m.Fits r) :
    Leads m.built m.exporters r.active (m.event r packet).2.2 (m.event r packet).2.1.active ∧
      m.Fits (m.event r packet).2.1 := by
  unfold event
  split
  · exact ⟨.done _, fits⟩
  · have screened := screen_follows packet (.ofRecord r) fits
    split
    next t same =>
      rw [same] at screened
      obtain ⟨calls, grown, leads, fits⟩ := screened
      refine ⟨?_, fits⟩
      rw [Turn.log, grown]
      exact leads.append (.quiet _ .veto (.done _))
    next t same =>
      rw [same] at screened
      obtain ⟨calls, grown, leads, fits⟩ := screened.trans (run_follows ordered packet t screened.fits)
      refine ⟨?_, fits⟩
      dsimp only
      rw [grown]
      exact leads

private theorem stop_follows (ordered : m.program.Ordered) (r : Record σ φ) (reason : EndReason) (now : Int64)
    (fits : m.Fits r) :
    Leads m.built m.exporters r.active (m.stop r reason now).2 (m.stop r reason now).1.active ∧
      m.Fits (m.stop r reason now).1 := by
  unfold stop
  split
  · exact ⟨.done _, fits⟩
  · have finished : m.Follows (.ofRecord r) (if r.active then m.finish reason now (.ofRecord r) else .ofRecord r) := by
      split
      next active => exact finish_follows ordered reason now _ fits active
      next => exact .refl fits
    have quiet : ∀ t : Turn σ φ, ∀ h ∈ (if t.record.filtersAlive then stopFilters 0 t.record.filters
        else (t.record.filters, [])).2, Quiet h := by
      intro t
      split
      · exact stopFilters_quiet _ _
      · exact fun _ member => absurd member List.not_mem_nil
    obtain ⟨calls, grown, leads, fits⟩ := finished
    refine ⟨?_, fits⟩
    dsimp only
    rw [grown]
    exact leads.append (leads_of_quiet (quiet _))

private theorem perform_leads (ordered : m.program.Ordered) (r : Record σ φ) (operation : Operation) (fits : m.Fits r) :
    Leads m.built m.exporters r.active (m.perform r operation).2 (m.perform r operation).1.active ∧
      m.Fits (m.perform r operation).1 := by
  cases operation with
  | event packet => exact event_follows ordered r packet fits
  | stop reason now => exact stop_follows ordered r reason now fits

theorem performAll_fits (ordered : m.program.Ordered) (operations : List Operation) (r : Record σ φ) (fits : m.Fits r) :
    m.Fits (m.performAll r operations).1 := by
  induction operations generalizing r with
  | nil => exact fits
  | cons operation operations ih => exact ih _ (perform_leads ordered r operation fits).2

theorem performAll_leads (ordered : m.program.Ordered) (operations : List Operation) (r : Record σ φ)
    (fits : m.Fits r) :
    Leads m.built m.exporters r.active (m.performAll r operations).2 (m.performAll r operations).1.active := by
  induction operations generalizing r with
  | nil => exact .done _
  | cons operation operations ih =>
    have performed := perform_leads ordered r operation fits
    exact performed.1.append (ih _ performed.2)

/-- Every record of a compiled program keeps to the life cycle, whatever its features, filters and exporters do
and whatever is done with it. -/
theorem performAll_keeps_life_cycle {catalog : Catalog σ φ} {limit : Nat} {s : Specification} {m : Meter σ φ}
    (compiled : s.compile catalog limit = .ok m.program) (operations : List Operation) :
    Leads m.built m.exporters false (m.performAll m.make operations).2 (m.performAll m.make operations).1.active ∧
      Served [] (m.performAll m.make operations).2 := by
  have leads := performAll_leads (Specification.compile_ordered compiled) operations m.make m.make_fits
  exact ⟨leads, leads.served m.nodup_built nofun⟩

/-- A control that cuts flows, a filter, and registers that share and that read constants. -/
def segmented : Specification :=
  ⟨[.array [.string "add", .array [.string "min", .string "ipTotalLength"], .number (.natural 20)],
    .array [.string "max", .string "ipTotalLength"]], [.string "_tcpEnd"], ["tcp"]⟩

/-- The control cuts the first segment off and the stop ends the second. -/
def twoSegments : List Operation :=
  [.event ((Packet.ofLength 1 60).withTcp 40000 443 Packet.rst),
   .event ((Packet.ofLength 2 90).withTcp 40000 443 Packet.ack), .stop .forcedEnd 3]

/-- The sweeps that a journal tells of: when each of them is made, and the reason if it is a stop. -/
def sweeps (journal : Journal) : List (Option EndReason × Int64) :=
  journal.filterMap fun
    | .segment now => some (none, now)
    | .finish reason now => some (some reason, now)
    | _ => none

theorem performAll_keeps_life_cycle_segmented :
    ∃ m : Meter Library.Instance Library.PacketFilter, segmented.compile Library.catalog 4096 = .ok m.program ∧
      sweeps (m.performAll m.make twoSegments).2 =
        [(none, 1), (some .endOfFlowDetected, 1), (none, 2), (some .forcedEnd, 3)] ∧
      Leads m.built m.exporters false (m.performAll m.make twoSegments).2
        (m.performAll m.make twoSegments).1.active ∧
      Served [] (m.performAll m.make twoSegments).2 := by
  have facts : (segmented.compile Library.catalog 4096).toOption.any (fun p => decide (
      sweeps (performAll ⟨p, []⟩ (make ⟨p, []⟩) twoSegments).2 =
        [(none, 1), (some .endOfFlowDetected, 1), (none, 2), (some .forcedEnd, 3)])) = true := by decide +kernel
  obtain ⟨p, compiled, swept⟩ := ok_of_any facts
  exact ⟨⟨p, []⟩, compiled, swept, performAll_keeps_life_cycle compiled twoSegments⟩

end FlowMetering.Meter
