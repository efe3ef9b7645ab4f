import FlowMetering.Proofs.CircuitRuns

/-! Instances and journals. The instances of a record follow from the calls that the journal has; an attempt to export
follows from the instances. -/

namespace FlowMetering

def Happening.packet? : Happening → Option Packet
  | .call _ (.event (.packet packet _)) _ => some packet
  | _ => none

/-- The outcome of an attempt to export: the template of the row, or that there is none. -/
def Happening.attempt? : Happening → Option (Option Template)
  | .noTemplate _ => some none
  | .row _ shown => some (some shown.template)
  | _ => none

private def Happening.isAside : Happening → Bool
  | .call .. | .noTemplate _ | .row .. => false
  | _ => true

namespace Library

variable {φ : Type} {p : Program Instance φ} {m : Meter Instance φ}

/-- What instances go by when they are called. The values are those of the constants. -/
def footing (p : Program Instance φ) (r : Nat) : Context :=
  ⟨r, p.args r, p.nodes.map (·.constant), 0, 0⟩

namespace Instance

def called (c : Context) : Phase → Instance → Instance
  | .start, s => s.start c
  | .event input, s => (s.event input c).1
  | .finishEvent, s => s.finishEvent
  | .stop reason, s => (s.stop reason).1

theorem event_congr {c c' : Context} (same : c.args = c'.args) (input : Input) (s : Instance) :
    s.event input c = s.event input c' := by
  cases input with
  | packet packet source => rfl
  | value v source =>
    rw [event, event, Context.positions, Context.positions, same]

end Instance

def recallOne (p : Program Instance φ) (r : Nat) (s : Instance) : Happening → Instance
  | .call q phase _ => if q = r then s.called (footing p r) phase else s
  | _ => s

def recallAll (p : Program Instance φ) (r : Nat) (journal : Journal) (s : Instance) : Instance :=
  journal.foldl (recallOne p r) s

/-- The instance that a register of a fresh record has after a journal. -/
def recalled (m : Meter Instance φ) (journal : Journal) (r : Nat) : Option (Option Instance) :=
  (m.make.instances[r]?).map (Option.map (recallAll m.program r journal))

private theorem recalled_nil (m : Meter Instance φ) (r : Nat) : recalled m [] r = m.make.instances[r]? := by
  rw [recalled]
  cases m.make.instances[r]? with
  | none => rfl
  | some found => cases found <;> rfl

private theorem recalled_snoc (m : Meter Instance φ) (journal : Journal) (h : Happening) (r : Nat) :
    recalled m (journal ++ [h]) r =
      (recalled m journal r).map (Option.map fun s => recallOne m.program r s h) := by
  rw [recalled, recalled]
  cases m.make.instances[r]? with
  | none => rfl
  | some found =>
    cases found with
    | none => rfl
    | some s => exact congrArg (some ∘ some) List.foldl_append

private theorem recalled_aside (m : Meter Instance φ) (journal : Journal) {h : Happening} (aside : h.isAside = true) (r : Nat) :
    recalled m (journal ++ [h]) r = recalled m journal r := by
  have kept : (fun s => recallOne m.program r s h) = id := by
    cases h with
    | call q phase remarks => cases aside
    | _ => rfl
  rw [recalled_snoc, kept, Option.map_id_fun, Option.map_id_fun]
  rfl

/-- An attempt to export has the outcome that the instances have then. -/
def Accounted (m : Meter Instance φ) : Journal → Journal → Prop
  | _, [] => True
  | past, h :: journal =>
    (∀ outcome, h.attempt? = some outcome → ∃ record : Record Instance φ,
      (∀ r, record.instances[r]? = recalled m past r) ∧
        m.program.template.select (Meter.variant record) = outcome) ∧ Accounted m (past ++ [h]) journal

theorem accounted_append {past one other : Journal} :
    Accounted m past (one ++ other) ↔ Accounted m past one ∧ Accounted m (past ++ one) other := by
  induction one generalizing past with
  | nil => rw [List.nil_append, List.append_nil, Accounted, true_and]
  | cons h one ih => rw [List.cons_append, Accounted, Accounted, ih, and_assoc, List.append_assoc, List.singleton_append]

/-- A turn whose instances follow from the past and its own journal, in which packets are allowed and attempts to export
have the outcomes that they should. -/
structure Recorded (m : Meter Instance φ) (allowed : Packet → Prop) (past : Journal) (t : Turn Instance φ) : Prop where
  instances : ∀ r, t.record.instances[r]? = recalled m (past ++ t.journal) r
  accounted : Accounted m past t.journal
  packets : ∀ h ∈ t.journal, ∀ packet, h.packet? = some packet → allowed packet

namespace Recorded

variable {allowed : Packet → Prop} {past : Journal} {t : Turn Instance φ}

private theorem aside (recorded : Recorded m allowed past t) {h : Happening} (aside : h.isAside = true) :
    Recorded m allowed past (t.log h) where
  instances r := by
    rw [Turn.log, ← List.append_assoc, recalled_aside m _ aside]
    exact recorded.instances r
  accounted := by
    refine accounted_append.mpr ⟨recorded.accounted, ?_, trivial⟩
    cases h with
    | noTemplate | row => cases aside
    | _ => rintro _ ⟨⟩
  packets h' member packet same := by
    rcases List.mem_append.mp member with member | member
    · exact recorded.packets h' member packet same
    · obtain rfl := List.mem_singleton.mp member
      cases h' with
      | call => cases aside
      | _ => cases same

private theorem foldl {ι : Type} {step : Turn Instance φ → ι → Turn Instance φ} (is : List ι)
    (each : ∀ i ∈ is, ∀ t, Recorded m allowed past t → Recorded m allowed past (step t i))
    (recorded : Recorded m allowed past t) : Recorded m allowed past (is.foldl step t) :=
  List.foldlRecOn is step recorded fun t recorded i member => each i member t recorded

private theorem setInstance (recorded : Recorded m allowed past t) {r : Nat} {s : Instance} {phase : Phase}
    (held : t.record.instances[r]? = some (some s))
    (fine : ∀ packet source, phase = .event (.packet packet source) → allowed packet) (signals : List Signal)
    (remarks : List String) :
    Recorded m allowed past
      (((t.setInstance r (s.called (footing m.program r) phase)).raise signals).log (.call r phase remarks)) where
  instances q := by
    change (t.record.instances.set r (some (s.called (footing m.program r) phase)))[q]? =
      recalled m (past ++ (t.journal ++ [.call r phase remarks])) q
    rw [← List.append_assoc, recalled_snoc, ← recorded.instances]
    by_cases same : r = q
    · subst same
      rw [List.getElem?_set_self (List.getElem?_eq_some_iff.mp held).1, held]
      exact congrArg (some ∘ some) (if_pos rfl).symm
    · have kept : (fun s => recallOne m.program q s (.call r phase remarks)) = id := funext fun s => if_neg same
      rw [List.getElem?_set_ne same, kept, Option.map_id_fun, Option.map_id_fun]
      rfl
  accounted := accounted_append.mpr ⟨recorded.accounted, by rintro _ ⟨⟩, trivial⟩
  packets h member packet same := by
    rcases List.mem_append.mp member with member | member
    · exact recorded.packets h member packet same
    · obtain rfl := List.mem_singleton.mp member
      cases phase with
      | event input =>
        cases input with
        | packet given source =>
          cases same
          exact fine packet source rfl
        | value => cases same
      | _ => cases same

private theorem call (recorded : Recorded m allowed past t) (now : Int64) (r : Nat) (phase : Phase)
    {answer : Context → Instance → Instance × Reaction}
    (follows : ∀ s, (answer (m.context t now r) s).1 = s.called (footing m.program r) phase)
    (fine : ∀ packet source, phase = .event (.packet packet source) → allowed packet) :
    Recorded m allowed past (m.call now r phase answer t).1 := by
  rcases t.idle_or_held r with idle | ⟨s, held⟩
  · rw [Meter.call_idle idle]
    exact recorded
  · rw [Meter.call_eq held, follows]
    exact recorded.setInstance held fine _ _

private theorem propagate (recorded : Recorded m allowed past t) {next : Nat → Input → Turn Instance φ → Turn Instance φ}
    {packet : Option Packet}
    (each : ∀ d input t, (∀ given source, input = .packet given source → packet = some given) →
      Recorded m allowed past t → Recorded m allowed past (next d input t)) (r : Nat) (e : Emission) :
    Recorded m allowed past (m.propagate next packet r t e) := by
  have placed (v : Option Value) : Recorded m allowed past (t.setValue r v) :=
    ⟨recorded.instances, recorded.accounted, recorded.packets⟩
  cases e with
  | nothing => exact recorded
  | value v =>
    cases v with
    | none => exact placed none
    | some v => exact foldl _ (fun d _ t => each d (.value v r) t (by rintro _ _ ⟨⟩)) (placed (some v))
  | forward =>
    cases packet with
    | none => exact recorded
    | some given => exact foldl _ (fun d _ t => each d (.packet given (.register r)) t (by rintro _ _ ⟨⟩; rfl)) recorded

private theorem deliver (recorded : Recorded m allowed past t) (now : Int64) {packet : Option Packet}
    (fine : ∀ given, packet = some given → allowed given) (fuel r : Nat) {input : Input}
    (suits : ∀ given source, input = .packet given source → packet = some given) :
    Recorded m allowed past (m.deliver now packet fuel r input t) := by
  induction fuel generalizing r input t with
  | zero => exact recorded
  | succ fuel ih =>
    have called : Recorded m allowed past (m.call now r (.event input) (Feature.event input) t).1 := by
      refine recorded.call now r (.event input) (fun s => congrArg Prod.fst (Instance.event_congr rfl input s)) ?_
      rintro given source ⟨⟩
      exact fine given (suits given source rfl)
    exact called.propagate (fun d input t suits recorded => ih recorded d suits) r _

private theorem startOne (recorded : Recorded m allowed past t) (cleared : t.record.values = m.program.nodes.map (·.constant))
    (now : Int64) (r : Nat) :
    Recorded m allowed past (m.startOne now t r) ∧
      (m.startOne now t r).record.values = m.program.nodes.map (·.constant) := by
  have called : Recorded m allowed past (m.call now r .start Feature.start t).1 := by
    refine recorded.call now r .start (fun s => ?_) (by rintro _ _ ⟨⟩)
    have same : (m.context t now r).args = (footing m.program r).args := rfl
    refine Instance.start_congr (congrArg List.length same) (fun i => ?_) s
    rw [Context.argument, Context.argument, Meter.context, cleared]
    rfl
  rw [m.startOne_eq]
  refine ⟨called, ?_⟩
  rcases t.idle_or_held r with idle | ⟨s, held⟩
  · rw [Meter.call_idle idle]
    exact cleared
  · rw [Meter.call_eq held]
    exact cleared

theorem start (recorded : Recorded m allowed past t) (now : Int64) : Recorded m allowed past (m.start now t) := by
  have begun := recorded.aside (h := .segment now) rfl
  have swept := List.foldlRecOn (List.range m.program.size) (m.startOne now)
    (motive := fun t => Recorded m allowed past t ∧ t.record.values = m.program.nodes.map (·.constant))
    (b := { t.log (.segment now) with record := { t.record with values := m.program.nodes.map (·.constant) } })
    ⟨⟨begun.instances, begun.accounted, begun.packets⟩, rfl⟩
    fun t known r _ => known.1.startOne known.2 now r
  exact ⟨swept.1.instances, swept.1.accounted, swept.1.packets⟩

private theorem stopOne (recorded : Recorded m allowed past t) (reason : EndReason) (time : Int64) (r : Nat) :
    Recorded m allowed past (m.stopOne reason time t r) := by
  have called : Recorded m allowed past (m.call time r (.stop reason) (Feature.stop reason) t).1 :=
    recorded.call time r (.stop reason) (fun _ => rfl) (by rintro _ _ ⟨⟩)
  exact called.propagate (fun d _ _ suits recorded => recorded.deliver time (by rintro _ ⟨⟩) _ d suits) r _

private theorem exportRow (recorded : Recorded m allowed past t) (reason : EndReason) (time : Int64) :
    Recorded m allowed past (m.exportRow reason time t) := by
  -- What is said of the attempt is what the record has at that point.
  have attempted {h : Happening} (none : h.packet? = none) (kept : ∀ r s, recallOne m.program r s h = s)
      (outcome : ∀ outcome, h.attempt? = some outcome → m.program.template.select (Meter.variant t.record) = outcome) :
      Recorded m allowed past (t.log h) := by
    refine ⟨fun r => ?_, accounted_append.mpr ⟨recorded.accounted, fun answer same => ?_, trivial⟩, ?_⟩
    · rw [Turn.log, ← List.append_assoc, recalled_snoc, funext (kept r), ← Function.id_def, Option.map_id_fun,
        Option.map_id_fun]
      exact recorded.instances r
    · exact ⟨t.record, recorded.instances, outcome answer same⟩
    · intro h' member packet same
      rcases List.mem_append.mp member with member | member
      · exact recorded.packets h' member packet same
      · obtain rfl := List.mem_singleton.mp member
        rw [none] at same
        cases same
  rw [Meter.exportRow]
  split
  next row found =>
    obtain ⟨template, selected, rfl⟩ := Option.map_eq_some_iff.mp found
    refine foldl _ (fun exporter _ t recorded => recorded.aside rfl) (attempted rfl (fun _ _ => rfl) ?_)
    rintro _ ⟨⟩
    exact selected
  next found =>
    refine attempted rfl (fun _ _ => rfl) ?_
    rintro _ ⟨⟩
    exact Option.map_eq_none_iff.mp found

private theorem finish (recorded : Recorded m allowed past t) (reason : EndReason) (time : Int64) :
    Recorded m allowed past (m.finish reason time t) := by
  have swept := foldl (List.range m.program.size) (fun r _ t recorded => recorded.stopOne reason time r)
    (recorded.aside (h := .finish reason time) rfl)
  have exported := swept.exportRow reason time
  exact ⟨exported.instances, exported.accounted, exported.packets⟩

section Packets

variable {packet : Packet} (fine : allowed packet)
include fine

private theorem dispatch (recorded : Recorded m allowed past t) (r : Nat) :
    Recorded m allowed past (m.dispatch packet.time (some packet) r (.packet packet .flow) t) := by
  refine recorded.deliver packet.time ?_ _ r ?_
  · rintro _ ⟨⟩
    exact fine
  · rintro _ _ ⟨⟩
    rfl

theorem runControls (recorded : Recorded m allowed past t) (controls : List Nat) :
    Recorded m allowed past (m.runControls packet controls t) := by
  induction controls generalizing t with
  | nil => exact recorded
  | cons control controls ih =>
    have next := dispatch fine recorded control
    rw [Meter.runControls]
    split
    · exact next
    · exact ih next

omit fine in
private theorem finishEventOne (recorded : Recorded m allowed past t) (r : Nat) :
    Recorded m allowed past (Meter.finishEventOne t r) := by
  rw [Meter.finishEventOne]
  split
  next s held =>
    have closed : Recorded m allowed past
        (((t.setInstance r (s.called (footing m.program r) .finishEvent)).raise []).log (.call r .finishEvent [])) :=
      recorded.setInstance held (by rintro _ _ ⟨⟩) [] []
    exact ⟨closed.instances, closed.accounted, closed.packets⟩
  next => exact recorded

private theorem deliverPacket (recorded : Recorded m allowed past t) : Recorded m allowed past (m.deliverPacket packet t) :=
  foldl _ (fun r _ _ recorded => recorded.finishEventOne r)
    (foldl _ (fun r _ _ recorded => dispatch fine recorded r) recorded)

omit fine in
private theorem settle (recorded : Recorded m allowed past t) (now : Int64) : Recorded m allowed past (m.settle now t).2 := by
  have restarted {t : Turn Instance φ} (recorded : Recorded m allowed past t) :
      Recorded m allowed past (if Signal.restarts t.signals then m.start now t else t) := by
    split
    · exact recorded.start now
    · exact recorded
  rw [Meter.settle]
  split
  next reason _ => exact recorded.finish reason now
  next =>
    dsimp only
    split
    next reason time _ => exact restarted (recorded.finish reason time)
    next => exact restarted recorded

private theorem run (recorded : Recorded m allowed past t) : Recorded m allowed past (m.run packet t).2 := by
  have begun : Recorded m allowed past (if t.record.active then t else m.start packet.time t) := by
    split
    · exact recorded
    · exact recorded.start packet.time
  have controlled := runControls fine begun m.program.controls
  rw [Meter.run]
  split
  next reason _ =>
    have ended := (controlled.aside (h := .controlStop reason) rfl).finish reason packet.time
    exact ⟨ended.instances, ended.accounted, ended.packets⟩
  next =>
    have settled := (deliverPacket fine controlled).settle packet.time
    exact ⟨settled.instances, settled.accounted, settled.packets⟩

end Packets

private theorem quiet (recorded : Recorded m allowed past t) {journal : Journal} (quiet : ∀ h ∈ journal, LifeCycle.Quiet h) :
    Recorded m allowed past { t with journal := t.journal ++ journal } := by
  induction journal generalizing t with
  | nil => rwa [List.append_nil]
  | cons h journal ih =>
    rw [List.forall_mem_cons] at quiet
    have aside : h.isAside = true := by cases quiet.1 <;> rfl
    rw [List.append_cons]
    exact ih (recorded.aside aside) quiet.2

theorem make (m : Meter Instance φ) : Recorded m allowed [] ⟨m.make, [], []⟩ :=
  ⟨fun r => (recalled_nil m r).symm, trivial, fun _ member => absurd member List.not_mem_nil⟩

section Operations

variable {r : Record Instance φ} (before : Recorded m allowed [] ⟨r, [], past⟩)
include before

theorem begin : Recorded m allowed past (.ofRecord r) where
  instances q := by
    rw [Turn.ofRecord, List.append_nil]
    exact before.instances q
  accounted := trivial
  packets _ member := absurd member List.not_mem_nil

private theorem join (after : Recorded m allowed past t) : Recorded m allowed [] ⟨t.record, [], past ++ t.journal⟩ where
  instances := after.instances
  accounted := accounted_append.mpr ⟨before.accounted, after.accounted⟩
  packets h member := (List.mem_append.mp member).elim (before.packets h) (after.packets h)

variable [Filter φ]

omit before in
theorem screen (recorded : Recorded m allowed past t) (packet : Packet) :
    Recorded m allowed past (Meter.screen packet t).2 := by
  have started : ∀ h ∈ (if t.record.filtersAlive then (t.record.filters, [])
      else Meter.startFilters 0 t.record.filters).2, LifeCycle.Quiet h := by
    split
    · exact fun _ member => absurd member List.not_mem_nil
    · exact Meter.startFilters_quiet t.record.filters 0
  have asked (fs : List φ) := (recorded.quiet started).quiet (Meter.askFilters_quiet packet fs 0)
  exact ⟨(asked _).instances, (asked _).accounted, (asked _).packets⟩

theorem event {packet : Packet} (fine : allowed packet) :
    Recorded m allowed [] ⟨(m.event r packet).2.1, [], past ++ (m.event r packet).2.2⟩ := by
  rw [Meter.event]
  split
  · rwa [List.append_nil]
  · have screened := before.begin.screen packet
    split
    next t same =>
      rw [same] at screened
      exact before.join (screened.aside (h := .veto) rfl)
    next t same =>
      rw [same] at screened
      exact before.join (run fine screened)

private theorem stop (reason : EndReason) (now : Int64) :
    Recorded m allowed [] ⟨(m.stop r reason now).1, [], past ++ (m.stop r reason now).2⟩ := by
  rw [Meter.stop]
  split
  · rwa [List.append_nil]
  · have ended : Recorded m allowed past (if r.active then m.finish reason now (.ofRecord r) else .ofRecord r) := by
      split
      · exact before.begin.finish reason now
      · exact before.begin
    generalize (if r.active then m.finish reason now (.ofRecord r) else .ofRecord r) = t at ended
    have stopped : ∀ h ∈ (if t.record.filtersAlive then Meter.stopFilters 0 t.record.filters
        else (t.record.filters, [])).2, LifeCycle.Quiet h := by
      split
      · exact Meter.stopFilters_quiet t.record.filters 0
      · exact fun _ member => absurd member List.not_mem_nil
    have closed := before.join (ended.quiet stopped)
    exact ⟨closed.instances, closed.accounted, closed.packets⟩

/-- The instances of a record follow from its journal, whatever is done with it. -/
theorem performAll {operations : List Operation} (fine : ∀ packet, .event packet ∈ operations → allowed packet) :
    Recorded m allowed [] ⟨(m.performAll r operations).1, [], past ++ (m.performAll r operations).2⟩ := by
  induction operations generalizing r past with
  | nil =>
    rw [Meter.performAll, List.append_nil]
    exact before
  | cons operation operations ih =>
    have performed : Recorded m allowed [] ⟨(m.perform r operation).1, [], past ++ (m.perform r operation).2⟩ := by
      cases operation with
      | event packet => exact before.event (fine packet List.mem_cons_self)
      | stop reason now => exact before.stop reason now
    rw [Meter.performAll, ← List.append_assoc]
    exact ih performed fun packet member => fine packet (List.mem_cons_of_mem _ member)

end Operations

end Recorded

end Library

end FlowMetering
