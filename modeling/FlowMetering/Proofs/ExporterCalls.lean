import FlowMetering.Proofs.DeliveryCalls
import FlowMetering.Proofs.ExportLookup
import FlowMetering.Proofs.LifeCycleRuns
import FlowMetering.Proofs.RecordRounds
import FlowMetering.Proofs.SelectedTemplates

/-! What exporters are given. Where a segment ends, all exporters are given one row in their order, and its values are in line
with the fields, the exported registers and the elements of its template. Nothing else in a run depends on exporters, which
may fail in one operation and not in another. -/

namespace FlowMetering

namespace TemplateTree

theorem templates_collapse (tree : TemplateTree) : tree.collapse.templates ⊆ tree.templates := by
  induction tree using induct with
  | leaf template => exact List.Subset.refl _
  | choice register alternatives ih =>
    have below : alternatives.flatMap (fun tree => tree.collapse.templates) ⊆ (choice register alternatives).templates := by
      rw [templates, allTemplates_eq_flatMap]
      intro t inside
      obtain ⟨tree, member, inside⟩ := List.mem_flatMap.mp inside
      exact List.mem_flatMap.mpr ⟨tree, member, ih tree member inside⟩
    rcases collapse_choice register alternatives with ⟨-, collapsed⟩ | ⟨tree, alike, collapsed⟩ | ⟨-, collapsed⟩
    · rw [collapsed]
      exact List.nil_subset _
    · cases alternatives with
      | nil => exact List.nil_subset _
      | cons first rest =>
        rw [collapsed, ← alike first List.mem_cons_self]
        exact fun t inside => below (List.mem_flatMap.mpr ⟨first, List.mem_cons_self, inside⟩)
    · rw [collapsed, templates, allTemplates_eq_flatMap, List.flatMap_map]
      exact below

variable {slots : List Slot} {registerOf : String → Nat}

/-- Whatever is chosen, a template has an element for each field. -/
theorem length_of_mem_enumerate (sources : List (String × Nat)) (taken : TypeTree.Choice) {t : Template}
    (member : t ∈ (enumerate slots registerOf sources taken).templates) : t.elements.length = slots.length := by
  induction sources generalizing taken with
  | nil =>
    obtain ⟨elements, found, rfl⟩ := Option.map_eq_some_iff.mp (Option.mem_toList.mp member)
    exact (forall₂_of_mapM found).length_eq.symm
  | cons point sources ih =>
    rw [enumerate, templates, allTemplates_eq_flatMap] at member
    obtain ⟨_, branch, member⟩ := List.mem_flatMap.mp member
    obtain ⟨i, -, rfl⟩ := List.mem_map.mp branch
    exact ih _ member

/-- A template that is selected has an element for each field. -/
theorem length_of_select {limit : Nat} {tree : TemplateTree} (built : ofSlots limit registerOf slots = .ok tree)
    {variant : Nat → Nat} {t : Template} (selected : tree.select variant = some t) : t.elements.length = slots.length := by
  rw [collapse_of_ofSlots built] at selected
  have unnumbered := select_number variant (enumerate slots registerOf (TypeTree.sources (slots.map (·.type))) []).collapse 0
  rw [selected] at unnumbered
  obtain ⟨t', selected', same⟩ := Option.map_eq_some_iff.mp unnumbered.symm
  rw [← same]
  exact length_of_mem_enumerate _ [] (templates_collapse _ (mem_templates_of_select selected'))

end TemplateTree

def Happening.isEnding : Happening → Bool
  | .finish .. | .noTemplate .. | .row .. | .export .. => true
  | _ => false

def Journal.endings (journal : Journal) : Journal :=
  journal.filter (·.isEnding)

/-- A happening without a word on whether an exporter has failed. -/
def Happening.forgiven : Happening → Happening
  | .export exporter shown _ => .export exporter shown false
  | h => h

def Journal.forgiven (journal : Journal) : Journal :=
  journal.map (·.forgiven)

theorem Journal.endings_append (one other : Journal) : endings (one ++ other) = endings one ++ endings other :=
  List.filter_append ..

theorem Journal.forgiven_append (one other : Journal) : forgiven (one ++ other) = forgiven one ++ forgiven other :=
  List.map_append ..

theorem Journal.endings_eq_nil {journal : Journal} : journal.endings = [] ↔ ∀ h ∈ journal, h.isEnding = false := by
  simp [endings]

theorem Journal.endings_quiet {journal : Journal} (quiet : ∀ h ∈ journal, LifeCycle.Quiet h) : journal.endings = [] :=
  endings_eq_nil.mpr fun h member => by cases quiet h member <;> rfl

structure Ending (σ φ : Type) where
  reason : EndReason
  time : Int64
  turn : Turn σ φ

variable {σ φ : Type} [Feature σ]

/-- A row that fits a program and shows a record that has been swept: under the template that the variants select there are,
for each field, an element and the value of an exported register. -/
structure Program.Aligned (p : Program σ φ) (swept : Record σ φ) (row : Row) : Prop where
  selected : p.template.select (Meter.variant swept) = some row.template
  elements : row.template.elements.length = p.fields.length
  exports : p.exports.length = p.fields.length
  values : row.values.length = p.fields.length
  contents : ∀ (i r : Nat), p.exports[i]? = some r → ∃ v, swept.values[r]? = some v ∧ row.values[i]? = some v

namespace Meter

variable {m : Meter σ φ}

/-- How the signals of a delivered packet end the segment, if they do. -/
def settling? (now : Int64) (t : Turn σ φ) : Option (Ending σ φ) :=
  match Signal.stopReason? t.signals with
  | some reason => some ⟨reason, now, t⟩
  | none => (Signal.export? t.signals).map fun (reason, time) => ⟨reason, time, t⟩

/-- How an operation ends a segment, if it does: a packet by a control that raises a stop or by what is raised until it has been
delivered, and a stop where a segment is open. -/
def ending? [Filter φ] (m : Meter σ φ) (r : Record σ φ) : Operation → Option (Ending σ φ)
  | .event packet =>
    match r.alive, screen packet (.ofRecord r) with
    | true, (true, t) =>
      let t := m.controlled packet t
      match Signal.stopReason? t.signals with
      | some reason => some ⟨reason, packet.time, t.log (.controlStop reason)⟩
      | none => settling? packet.time (m.deliverPacket packet t)
    | _, _ => none
  | .stop reason now => if r.alive && r.active then some ⟨reason, now, .ofRecord r⟩ else none

def swept (m : Meter σ φ) (e : Ending σ φ) : Turn σ φ :=
  (List.range m.program.size).foldl (m.stopOne e.reason e.time) (e.turn.log (.finish e.reason e.time))

/-- What an operation does about the end of a segment. Where none ends, nothing is told of it; else, after the sweep, either no
template is found and no exporter is called, or one row is given to each exporter in its turn. -/
inductive Concludes (m : Meter σ φ) : Option (Ending σ φ) → Journal → Prop
  | open {journal : Journal} (silent : journal.endings = []) : Concludes m none journal
  | noTemplate {e : Ending σ φ} {later : Journal} (told : (m.swept e).journal.endings = [.finish e.reason e.time])
    (unselected : m.program.template.select (variant (m.swept e).record) = none) (silent : later.endings = []) :
    Concludes m (some e) ((m.swept e).journal ++ .noTemplate e.reason :: later)
  | row {e : Ending σ φ} {row : Row} {later : Journal} (told : (m.swept e).journal.endings = [.finish e.reason e.time])
    (aligned : m.program.Aligned (m.swept e).record row) (time : row.time = e.time) (silent : later.endings = []) :
    Concludes m (some e) ((m.swept e).journal ++ .row e.reason row ::
      m.exporters.map (fun exporter => .export exporter.name row (exporter.fails row)) ++ later)

/-- What an operation without an end of a segment, or from the end on, adds to its journal. -/
private def Attempts (m : Meter σ φ) : Option (Ending σ φ) → Journal → Prop
  | none, journal => journal.endings = []
  | some e, journal => e.turn.journal.endings = [] ∧ ∃ later, later.endings = [] ∧
      journal = (m.finish e.reason e.time e.turn).journal ++ later

omit [Feature σ] in
private theorem Spares.endings {before after : Turn σ φ} (spares : Spares before after) :
    after.journal.endings = before.journal.endings := by
  obtain ⟨calls, grown, only⟩ := spares.calls
  have silent : calls.endings = [] := by
    refine Journal.endings_eq_nil.mpr fun h member => ?_
    obtain ⟨r, phase, remarks, rfl⟩ := only h member
    rfl
  rw [grown, Journal.endings_append, silent, List.append_nil]

theorem start_endings (m : Meter σ φ) (now : Int64) (t : Turn σ φ) :
    ∃ later, (m.start now t).journal = t.journal ++ later ∧ later.endings = [] := by
  have spared := Spares.foldl (m.startOne_spares now) (List.range m.program.size)
    { t.log (.segment now) with record := { t.record with values := m.program.nodes.map (·.constant) } }
  obtain ⟨calls, grown, only⟩ := spared.calls
  refine ⟨.segment now :: calls, ?_, Journal.endings_eq_nil.mpr fun h member => ?_⟩
  · rw [List.append_cons]
    exact grown
  · rcases List.mem_cons.mp member with rfl | member
    · rfl
    · obtain ⟨r, phase, remarks, rfl⟩ := only h member
      rfl

private theorem controlled_endings (m : Meter σ φ) (packet : Packet) (t : Turn σ φ) :
    (m.controlled packet t).journal.endings = t.journal.endings := by
  rw [controlled, (m.runControls_spares packet m.program.controls _).endings]
  split
  · rfl
  · obtain ⟨later, grown, silent⟩ := m.start_endings packet.time t
    rw [grown, Journal.endings_append, silent, List.append_nil]

private theorem settle_attempts (m : Meter σ φ) (now : Int64) {t : Turn σ φ} (silent : t.journal.endings = []) :
    m.Attempts (settling? now t) (m.settle now t).2.journal := by
  have restarted (t : Turn σ φ) : ∃ later, later.endings = [] ∧
      (if Signal.restarts t.signals then m.start now t else t).journal = t.journal ++ later := by
    split
    · obtain ⟨later, grown, silent⟩ := m.start_endings now t
      exact ⟨later, silent, grown⟩
    · exact ⟨[], rfl, (List.append_nil _).symm⟩
  rw [settle, settling?]
  cases Signal.stopReason? t.signals with
  | some reason => exact ⟨silent, [], rfl, (List.append_nil _).symm⟩
  | none =>
    cases Signal.export? t.signals with
    | some raised => exact ⟨silent, restarted (m.finish raised.1 raised.2 t)⟩
    | none =>
      obtain ⟨later, quiet, grown⟩ := restarted t
      change Journal.endings (if Signal.restarts t.signals then m.start now t else t).journal = []
      rw [grown, Journal.endings_append, silent, quiet, List.append_nil]

section Sizes

def Sized (n : Nat) : Picture σ := fun _ values => values.length = n

variable {n : Nat}

omit [Feature σ] in
private theorem Sized.setValue {t : Turn σ φ} (sized : t.Shows (Sized n)) (r : Nat) (v : Option Value) :
    (t.setValue r v).Shows (Sized n) :=
  (List.length_set ..).trans sized

omit [Feature σ] in
private theorem Sized.call {t : Turn σ φ} (sized : t.Shows (Sized n)) (m : Meter σ φ) (now : Int64) (r : Nat) (phase : Phase)
    (answer : Context → σ → σ × Reaction) : (m.call now r phase answer t).1.Shows (Sized n) := by
  rw [Meter.call]
  split <;> exact sized

omit [Feature σ] in
private theorem Sized.propagate {t : Turn σ φ} (sized : t.Shows (Sized n)) (m : Meter σ φ) {next : Nat → Input → Turn σ φ → Turn σ φ}
    (each : ∀ d input t, t.Shows (Sized n) → (next d input t).Shows (Sized n)) (packet : Option Packet) (r : Nat)
    (e : Emission) : (m.propagate next packet r t e).Shows (Sized n) := by
  cases e with
  | nothing => exact sized
  | value v =>
    cases v with
    | none => exact Sized.setValue sized r none
    | some v => exact Turn.shows_foldl (fun d _ => each d _) (Sized.setValue sized r (some v))
  | forward =>
    cases packet with
    | none => exact sized
    | some packet => exact Turn.shows_foldl (fun d _ => each d _) sized

private theorem Sized.deliver {t : Turn σ φ} (sized : t.Shows (Sized n)) (m : Meter σ φ) (now : Int64) (packet : Option Packet)
    (fuel r : Nat) (input : Input) : (m.deliver now packet fuel r input t).Shows (Sized n) := by
  induction fuel generalizing r input t with
  | zero => exact sized
  | succ fuel ih =>
    exact Sized.propagate (Sized.call sized m now r _ _) m (fun d input t sized => ih sized d input) packet r _

/-- No register is added or lost. -/
theorem sized_rounds (m : Meter σ φ) :
    m.Rounds (fun _ => True) (Sized m.program.size) (Sized m.program.size) (Sized m.program.size) where
  make := List.length_map ..
  start := by
    intro now t _
    refine Turn.shows_foldl (fun r _ t sized => ?_) (List.length_map ..)
    rw [startOne]
    have called := Sized.call sized m now r .start Feature.start
    generalize m.call now r .start Feature.start t = answer at called
    obtain ⟨t, emission⟩ := answer
    cases emission with
    | value v => exact Sized.setValue called r v
    | nothing => exact called
    | forward => exact called
  control := fun packet r t _ _ sized => Sized.deliver sized m _ _ _ r _
  deliver := by
    intro packet t _ sized
    refine shows_deliverPacket (fun r _ t sized => Sized.deliver sized m _ _ _ r _) (fun r t sized => ?_) sized
    rw [finishEventOne]
    split <;> exact sized
  finish := fun reason time t sized => Turn.shows_foldl (fun r _ t sized =>
    Sized.propagate (Sized.call sized m time r _ _) m (fun d input t sized => Sized.deliver sized m _ _ _ d input) none r _) sized
  rest := fun _ _ => id

/-- Once a packet has begun a segment and passed the controls, the record is as it is in a segment. -/
theorem Rounds.controlled {allowed : Packet → Prop} {idle live swept : Picture σ} (rounds : m.Rounds allowed idle live swept)
    {packet : Packet} (fine : allowed packet) {t : Turn σ φ} (stays : m.Stays idle live swept t) :
    m.Stays idle live swept (m.controlled packet t) ∧ (m.controlled packet t).record.active = true := by
  rw [Meter.controlled]
  refine rounds.controls fine m.program.controls (fun _ member => member) ?_ ?_
  · split
    · exact stays
    · exact rounds.begins stays packet.time
  · split
    next active => exact active
    next => rfl

omit [Feature σ] in
private theorem settling?_turn {now : Int64} {t : Turn σ φ} {e : Ending σ φ} (found : settling? now t = some e) : e.turn = t := by
  rw [settling?] at found
  split at found
  · cases found
    rfl
  · obtain ⟨raised, -, rfl⟩ := Option.map_eq_some_iff.mp found
    rfl

end Sizes

private theorem aligned_of_row? {catalog : Catalog σ φ} {limit : Nat} {s : Specification} (stages : s.Stages catalog limit m.program)
    {record : Record σ φ} (sized : record.values.length = m.program.size) {time : Int64} {row : Row}
    (shown : m.row? record time = some row) : m.program.Aligned record row ∧ row.time = time := by
  obtain ⟨template, selected, rfl⟩ := Option.map_eq_some_iff.mp shown
  obtain ⟨layout⟩ := stages.layout
  have exports := stages.length_exports
  refine ⟨⟨selected, ?_, exports, (List.length_map ..).trans exports, fun i r exported => ?_⟩, rfl⟩
  · rw [TemplateTree.length_of_select layout.template selected, List.length_map, ← exports, layout.exports, List.length_map]
  · obtain ⟨node, name, found, -, -⟩ := stages.bears exported
    have inside : r < record.values.length := sized ▸ (List.getElem?_eq_some_iff.mp found).1
    refine ⟨record.values[r], List.getElem?_eq_getElem inside, ?_⟩
    rw [List.getElem?_map, exported, Option.map_some, List.getElem?_eq_getElem inside, Option.join_some]

private theorem swept_endings (m : Meter σ φ) {e : Ending σ φ} (silent : e.turn.journal.endings = []) :
    (m.swept e).journal.endings = [.finish e.reason e.time] := by
  have spared := Spares.foldl (m.stopOne_spares e.reason e.time) (List.range m.program.size)
    (e.turn.log (.finish e.reason e.time))
  exact spared.endings.trans ((Journal.endings_append ..).trans (congrArg (· ++ [_]) silent))

private theorem Attempts.concludes {catalog : Catalog σ φ} {limit : Nat} {s : Specification} (stages : s.Stages catalog limit m.program)
    {ending? : Option (Ending σ φ)} {journal : Journal} (attempts : m.Attempts ending? journal)
    (sized : ∀ e, ending? = some e → (m.swept e).record.values.length = m.program.size) : m.Concludes ending? journal := by
  cases ending? with
  | none => exact .open attempts
  | some e =>
    obtain ⟨silent, later, quiet, rfl⟩ := attempts
    have told := m.swept_endings silent
    have finished : (m.finish e.reason e.time e.turn).journal = (m.exportRow e.reason e.time (m.swept e)).journal := rfl
    rw [finished, exportRow]
    cases shown : m.row? (m.swept e).record e.time with
    | none =>
      have unselected := Option.map_eq_none_iff.mp shown
      dsimp only [Turn.log]
      rw [List.append_assoc]
      exact .noTemplate told unselected quiet
    | some row =>
      obtain ⟨aligned, time⟩ := aligned_of_row? stages (sized e rfl) shown
      dsimp only
      rw [foldl_log]
      have concluded := Concludes.row told aligned time quiet
      rw [List.append_assoc] at concluded
      dsimp only [Turn.log]
      rw [List.append_assoc, List.append_assoc]
      exact concluded

section Exporters

variable (m)

private def reliable : Meter σ φ :=
  ⟨m.program, m.exporters.map fun exporter => { exporter with fails := fun _ => false }⟩

private theorem deliver_reliable (now : Int64) (packet : Option Packet) (fuel : Nat) :
    m.reliable.deliver now packet fuel = m.deliver now packet fuel := by
  induction fuel with
  | zero => rfl
  | succ fuel ih =>
    funext r input t
    rw [deliver, deliver, ih]
    rfl

private theorem dispatch_reliable : m.reliable.dispatch = m.dispatch := by
  funext now packet r input t
  rw [dispatch, dispatch, deliver_reliable]
  rfl

private theorem stopOne_reliable : m.reliable.stopOne = m.stopOne := by
  funext reason time t r
  rw [stopOne, stopOne, dispatch_reliable]
  rfl

private theorem runControls_reliable (packet : Packet) (controls : List Nat) :
    m.reliable.runControls packet controls = m.runControls packet controls := by
  induction controls with
  | nil => rfl
  | cons control controls ih =>
    funext t
    rw [runControls, runControls, ih, dispatch_reliable]

private theorem deliverPacket_reliable : m.reliable.deliverPacket = m.deliverPacket := by
  funext packet t
  rw [deliverPacket, deliverPacket, dispatch_reliable]
  rfl

private theorem start_reliable : m.reliable.start = m.start :=
  rfl

/-- Turns that differ at most in whether exporters have failed. -/
structure Veiled (t t' : Turn σ φ) : Prop where
  record : t'.record = t.record
  signals : t'.signals = t.signals
  journal : t'.journal.forgiven = t.journal.forgiven

variable {m}

omit [Feature σ] in
private theorem Veiled.refl (t : Turn σ φ) : Veiled t t :=
  ⟨rfl, rfl, rfl⟩

omit [Feature σ] in
private theorem Veiled.change {t t' : Turn σ φ} (veiled : Veiled t t') (f : Record σ φ → Record σ φ) :
    Veiled { t with record := f t.record } { t' with record := f t'.record } :=
  ⟨congrArg f veiled.record, veiled.signals, veiled.journal⟩

omit [Feature σ] in
private theorem Veiled.raise {t t' : Turn σ φ} (veiled : Veiled t t') (signals : List Signal) :
    Veiled (t.raise signals) (t'.raise signals) :=
  ⟨veiled.record, congrArg (· ++ signals) veiled.signals, veiled.journal⟩

omit [Feature σ] in
private theorem Veiled.log {t t' : Turn σ φ} (veiled : Veiled t t') (h : Happening) : Veiled (t.log h) (t'.log h) :=
  ⟨veiled.record, veiled.signals, by
    rw [Turn.log, Turn.log, Journal.forgiven_append, Journal.forgiven_append, veiled.journal]⟩

private theorem Veiled.startOne {t t' : Turn σ φ} (veiled : Veiled t t') (m : Meter σ φ) (now : Int64) (r : Nat) :
    Veiled (m.startOne now t r) (m.startOne now t' r) := by
  have called : Veiled (m.call now r .start Feature.start t).1 (m.call now r .start Feature.start t').1 ∧
      (m.call now r .start Feature.start t').2 = (m.call now r .start Feature.start t).2 := by
    rcases t.idle_or_held r with idle | ⟨s, held⟩
    · rw [call_idle idle, call_idle (veiled.record ▸ idle)]
      exact ⟨veiled, rfl⟩
    · have seen : m.context t' now r = m.context t now r := by
        rw [context, context, veiled.record]
      rw [call_eq held, call_eq (veiled.record ▸ held), seen]
      exact ⟨((veiled.change fun record => { record with instances := record.instances.set r _ }).raise _).log _, rfl⟩
  rw [Meter.startOne, Meter.startOne]
  generalize m.call now r .start Feature.start t = answer at called
  generalize m.call now r .start Feature.start t' = answer' at called
  obtain ⟨t, emission⟩ := answer
  obtain ⟨t', emission'⟩ := answer'
  obtain ⟨veiled, same⟩ := called
  dsimp only at veiled same
  subst same
  cases emission' with
  | value v => exact veiled.change fun record => { record with values := record.values.set r v }
  | nothing => exact veiled
  | forward => exact veiled

private theorem Veiled.start {t t' : Turn σ φ} (veiled : Veiled t t') (m : Meter σ φ) (now : Int64) :
    Veiled (m.start now t) (m.start now t') := by
  have cleared : Veiled
      { t.log (.segment now) with record := { t.record with values := m.program.nodes.map (·.constant) } }
      { t'.log (.segment now) with record := { t'.record with values := m.program.nodes.map (·.constant) } } :=
    (veiled.log (.segment now)).change fun record => { record with values := m.program.nodes.map (·.constant) }
  have swept (rs : List Nat) {t t' : Turn σ φ} (veiled : Veiled t t') :
      Veiled (rs.foldl (m.startOne now) t) (rs.foldl (m.startOne now) t') := by
    induction rs generalizing t t' with
    | nil => exact veiled
    | cons r rs ih => exact ih (veiled.startOne m now r)
  have done := swept (List.range m.program.size) cleared
  exact ⟨congrArg (fun record : Record σ φ => { record with active := true }) done.record, veiled.signals, done.journal⟩

private theorem veiled_finish (m : Meter σ φ) (reason : EndReason) (time : Int64) (t : Turn σ φ) :
    Veiled (m.finish reason time t) (m.reliable.finish reason time t) := by
  have exported (t : Turn σ φ) : Veiled (m.exportRow reason time t) (m.reliable.exportRow reason time t) := by
    have same : m.reliable.row? t.record time = m.row? t.record time := rfl
    rw [exportRow, exportRow, same]
    cases m.row? t.record time with
    | none => exact .refl _
    | some row =>
      dsimp only
      rw [foldl_log, foldl_log]
      refine ⟨rfl, rfl, ?_⟩
      dsimp only
      rw [Journal.forgiven_append, Journal.forgiven_append]
      congr 1
      simp [Journal.forgiven, reliable, Happening.forgiven]
  rw [finish, finish, stopOne_reliable]
  have done := exported ((List.range m.program.size).foldl (m.stopOne reason time) (t.log (.finish reason time)))
  exact ⟨congrArg (fun record : Record σ φ => { record with active := false }) done.record, rfl, done.journal⟩

private theorem veiled_settle (m : Meter σ φ) (now : Int64) (t : Turn σ φ) :
    Veiled (m.settle now t).2 (m.reliable.settle now t).2 := by
  rw [settle, settle]
  cases Signal.stopReason? t.signals with
  | some reason => exact m.veiled_finish reason now t
  | none =>
    cases Signal.export? t.signals with
    | some raised =>
      dsimp only
      have finished := m.veiled_finish raised.1 raised.2 t
      rw [finished.signals]
      split
      · exact finished.start m now
      · exact finished
    | none => exact .refl _

private theorem veiled_run (m : Meter σ φ) (packet : Packet) (t : Turn σ φ) :
    Veiled (m.run packet t).2 (m.reliable.run packet t).2 := by
  have later {t t' : Turn σ φ} (veiled : Veiled t t') : Veiled (setLast packet.time t) (setLast packet.time t') :=
    veiled.change fun record => { record with last := packet.time }
  have same : m.reliable.program = m.program := rfl
  rw [run, run, same, runControls_reliable, start_reliable, deliverPacket_reliable]
  dsimp only
  generalize m.runControls packet m.program.controls (if t.record.active then t else m.start packet.time t) = t
  cases Signal.stopReason? t.signals with
  | some reason => exact later (m.veiled_finish reason packet.time _)
  | none => exact later (m.veiled_settle packet.time _)

end Exporters

section Operations

variable [Filter φ]

omit [Feature σ] in
private theorem screen_endings (packet : Packet) (t : Turn σ φ) : (screen packet t).2.journal.endings = t.journal.endings := by
  have started : Journal.endings (if t.record.filtersAlive then (t.record.filters, [])
      else startFilters 0 t.record.filters).2 = [] := by
    split
    · rfl
    · exact Journal.endings_quiet (startFilters_quiet _ 0)
  rw [screen]
  dsimp only
  rw [Journal.endings_append, Journal.endings_append, started, Journal.endings_quiet (askFilters_quiet packet _ 0),
    List.append_nil, List.append_nil]

private theorem event_attempts (m : Meter σ φ) (r : Record σ φ) (packet : Packet) :
    m.Attempts (m.ending? r (.event packet)) (m.event r packet).2.2 := by
  rw [event, ending?]
  cases r.alive with
  | false => exact rfl
  | true =>
    have screened := screen_endings packet (.ofRecord r)
    generalize screen packet (.ofRecord r) = verdict at screened
    obtain ⟨accepted, t⟩ := verdict
    cases accepted with
    | false => exact (Journal.endings_append t.journal [.veto]).trans (congrArg (· ++ []) screened)
    | true =>
      have controlled := (m.controlled_endings packet t).trans screened
      have begun : m.runControls packet m.program.controls (if t.record.active then t else m.start packet.time t) =
          m.controlled packet t := rfl
      dsimp only [run]
      rw [begun]
      generalize m.controlled packet t = t at controlled
      cases Signal.stopReason? t.signals with
      | some reason =>
        refine ⟨?_, [], rfl, (List.append_nil _).symm⟩
        exact (Journal.endings_append t.journal [.controlStop reason]).trans (congrArg (· ++ []) controlled)
      | none =>
        exact m.settle_attempts packet.time ((m.deliverPacket_spares packet t).endings.trans controlled)

private theorem stop_attempts (m : Meter σ φ) (r : Record σ φ) (reason : EndReason) (now : Int64) :
    m.Attempts (m.ending? r (.stop reason now)) (m.stop r reason now).2 := by
  have quiet (t : Turn σ φ) := Journal.endings_quiet (stopStarted_quiet t)
  rw [stop, ending?]
  cases r.alive with
  | false => exact rfl
  | true =>
    cases r.active with
    | false => exact quiet (.ofRecord r)
    | true => exact ⟨rfl, _, quiet (m.finish reason now (.ofRecord r)), rfl⟩

private theorem perform_attempts (m : Meter σ φ) (r : Record σ φ) (operation : Operation) :
    m.Attempts (m.ending? r operation) (m.perform r operation).2 := by
  cases operation with
  | event packet => exact m.event_attempts r packet
  | stop reason now => exact m.stop_attempts r reason now

private theorem Rounds.ending {allowed : Packet → Prop} {idle live swept : Picture σ} (rounds : m.Rounds allowed idle live swept)
    {r : Record σ φ} (rests : Rests idle live r) {operation : Operation}
    (fine : ∀ packet, operation = .event packet → allowed packet) {e : Ending σ φ} (found : m.ending? r operation = some e) : e.turn.Shows live := by
  cases operation with
  | stop reason now =>
    obtain ⟨open', same⟩ := Option.ite_none_right_eq_some.mp found
    rw [Bool.and_eq_true] at open'
    cases same
    exact rests.live open'.2
  | event packet =>
    have stays : m.Stays idle live swept (screen packet (.ofRecord r)).2 := screen_stays ⟨rests, hands_of_rows rfl⟩
    rw [ending?] at found
    generalize screen packet (.ofRecord r) = verdict at stays found
    split at found
    next t _ =>
      obtain ⟨controlled, active⟩ := rounds.controlled (fine packet rfl) stays
      dsimp only at found
      split at found
      · cases found
        exact controlled.rests.live active
      · obtain ⟨delivered, active⟩ := rounds.delivers (fine packet rfl) controlled active
        rw [settling?_turn found]
        exact delivered.rests.live active
    next => cases found

private theorem perform_reliable (m : Meter σ φ) (r : Record σ φ) (operation : Operation) :
    (m.reliable.perform r operation).1 = (m.perform r operation).1 ∧
      (m.reliable.perform r operation).2.forgiven = (m.perform r operation).2.forgiven := by
  cases operation with
  | event packet =>
    rw [perform, perform, event, event]
    split
    · exact ⟨rfl, rfl⟩
    · split
      · exact ⟨rfl, rfl⟩
      next t _ => exact ⟨(m.veiled_run packet t).record, (m.veiled_run packet t).journal⟩
  | stop reason now =>
    have ended : Veiled (if r.active then m.finish reason now (.ofRecord r) else .ofRecord r)
        (if r.active then m.reliable.finish reason now (.ofRecord r) else .ofRecord r) := by
      split
      · exact m.veiled_finish reason now _
      · exact .refl _
    rw [perform, perform, stop, stop]
    split
    · exact ⟨rfl, rfl⟩
    · dsimp only
      rw [ended.record, Journal.forgiven_append, Journal.forgiven_append, ended.journal]
      exact ⟨rfl, rfl⟩

end Operations

end Meter

variable [Filter φ]

/-- An operation and the exporters as they are at that time. -/
structure Occasion where
  exporters : List Exporter
  operation : Operation

namespace Occasion

def meter (p : Program σ φ) (occasion : Occasion) : Meter σ φ :=
  ⟨p, occasion.exporters⟩

def reliable (occasion : Occasion) : Occasion :=
  { occasion with exporters := occasion.exporters.map fun exporter => { exporter with fails := fun _ => false } }

end Occasion

namespace Program

def fresh (p : Program σ φ) : Record σ φ :=
  Meter.make ⟨p, []⟩

/-- Performs operations in their order, each with its own exporters; the journals follow each other. -/
def performEach (p : Program σ φ) (r : Record σ φ) : List Occasion → Record σ φ × Journal
  | [] => (r, [])
  | occasion :: occasions =>
    let (r, journal) := (occasion.meter p).perform r occasion.operation
    let (r, later) := p.performEach r occasions
    (r, journal ++ later)

theorem performEach_reliable (p : Program σ φ) (r : Record σ φ) (occasions : List Occasion) :
    (p.performEach r (occasions.map (·.reliable))).1 = (p.performEach r occasions).1 ∧
      (p.performEach r (occasions.map (·.reliable))).2.forgiven = (p.performEach r occasions).2.forgiven := by
  induction occasions generalizing r with
  | nil => exact ⟨rfl, rfl⟩
  | cons occasion occasions ih =>
    obtain ⟨record, journal⟩ := (occasion.meter p).perform_reliable r occasion.operation
    obtain ⟨record', journal'⟩ := ih ((occasion.meter p).perform r occasion.operation).1
    have first : occasion.reliable.meter p = (occasion.meter p).reliable := rfl
    have same : occasion.reliable.operation = occasion.operation := rfl
    rw [List.map_cons, performEach, performEach, first, same]
    dsimp only
    rw [record]
    refine ⟨record', ?_⟩
    rw [Journal.forgiven_append, Journal.forgiven_append, journal, journal']

theorem performEach_sized (p : Program σ φ) {r : Record σ φ} (occasions : List Occasion)
    (rests : Meter.Rests (Meter.Sized p.size) (Meter.Sized p.size) r) :
    Meter.Rests (Meter.Sized p.size) (Meter.Sized p.size) (p.performEach r occasions).1 := by
  induction occasions generalizing r with
  | nil => exact rests
  | cons occasion occasions ih =>
    refine ih ?_
    have rounds := (occasion.meter p).sized_rounds
    cases occasion.operation with
    | event packet => exact (rounds.event rests trivial).1
    | stop reason now => exact (rounds.stop rests reason now).1

/-- Whatever features do and exporters have done so far, the next operation of a compiled program gives all exporters one row in
line with the program where it ends a segment, and calls no exporter where it ends none or no template fits. A run in which no
exporter fails leaves the same record and makes the same calls. -/
theorem performEach_exports {catalog : Catalog σ φ} {limit : Nat} {s : Specification} {p : Program σ φ}
    (compiled : s.compile catalog limit = .ok p) (occasions : List Occasion) (next : Occasion) :
    (next.meter p).Concludes ((next.meter p).ending? (p.performEach p.fresh occasions).1 next.operation)
      ((next.meter p).perform (p.performEach p.fresh occasions).1 next.operation).2 ∧
    (p.performEach p.fresh (occasions.map (·.reliable))).1 = (p.performEach p.fresh occasions).1 ∧
    (p.performEach p.fresh (occasions.map (·.reliable))).2.forgiven = (p.performEach p.fresh occasions).2.forgiven := by
  refine ⟨?_, p.performEach_reliable p.fresh occasions⟩
  obtain ⟨stages⟩ := Specification.compile_stages compiled
  have fresh : Meter.Sized p.size p.fresh.instances p.fresh.values := List.length_map ..
  have rests := p.performEach_sized occasions ⟨fun _ => fresh, fun _ => fresh⟩
  have rounds := (next.meter p).sized_rounds
  refine ((next.meter p).perform_attempts _ next.operation).concludes (m := next.meter p) stages fun e found => ?_
  exact rounds.finish e.reason e.time _ (rounds.ending rests (fun _ _ => trivial) found)

/-- One exporter always fails, the other one only on the last row. -/
def flaky (operation : Operation) : Occasion :=
  ⟨[⟨"broken", fun _ => true⟩, ⟨"late", fun row => row.time == 3⟩], operation⟩

theorem performEach_exports_flaky : ∃ p : Program Library.Instance Library.PacketFilter,
    Meter.segmented.compile Library.catalog 4096 = .ok p ∧
    ((flaky (.stop .forcedEnd 3)).meter p).Concludes
      (((flaky (.stop .forcedEnd 3)).meter p).ending? (p.performEach p.fresh ((Meter.twoSegments.take 2).map flaky)).1
        (.stop .forcedEnd 3))
      (((flaky (.stop .forcedEnd 3)).meter p).perform (p.performEach p.fresh ((Meter.twoSegments.take 2).map flaky)).1
        (.stop .forcedEnd 3)).2 ∧
    (p.performEach p.fresh (Meter.twoSegments.map flaky)).2.filterMap (fun
      | .export exporter _ failed => some (exporter, failed)
      | _ => none) = [("broken", true), ("late", false), ("broken", true), ("late", true)] := by
  have facts : (Meter.segmented.compile Library.catalog 4096).toOption.any (fun p => decide (
      (p.performEach p.fresh (Meter.twoSegments.map flaky)).2.filterMap (fun
        | .export exporter _ failed => some (exporter, failed)
        | _ => none) = [("broken", true), ("late", false), ("broken", true), ("late", true)])) = true := by
    decide +kernel
  obtain ⟨p, compiled, exported⟩ := ok_of_any facts
  have concluded := performEach_exports compiled ((Meter.twoSegments.take 2).map flaky) (flaky (.stop .forcedEnd 3))
  exact ⟨p, compiled, concluded.1, exported⟩

end Program

end FlowMetering
