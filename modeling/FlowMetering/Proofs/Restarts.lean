import FlowMetering.Proofs.RecordRounds
import FlowMetering.Proofs.RecordedInstances

/-! Segments are independent. A start makes an instance forget what it has been called for, and nothing else in an inactive
record matters to the exporters. -/

namespace FlowMetering

def Journal.exports (journal : Journal) : Journal :=
  journal.filter fun
    | .export .. => true
    | _ => false

theorem Journal.exports_append (one other : Journal) : exports (one ++ other) = exports one ++ exports other :=
  List.filter_append ..

theorem Journal.exports_quiet {journal : Journal} (quiet : ∀ h ∈ journal, LifeCycle.Quiet h) : exports journal = [] := by
  refine List.filter_eq_nil_iff.mpr fun h member => ?_
  cases quiet h member <;> exact Bool.false_ne_true

namespace Library

/-- A start forgets what an instance has been called for. -/
theorem Instance.start_called (c c' : Context) (phase : Phase) (s : Instance) :
    (s.called c' phase).start c = s.start c := by
  cases phase with
  | start => cases s <;> rfl
  | event input =>
    cases input with
    | packet packet source => cases s <;> rfl
    | value v source =>
      cases s with
      | mean sum count =>
        rw [called, event, value]
        cases v.asFloat <;> rfl
      | _ => rfl
  | finishEvent => cases s <;> rfl
  | stop reason => cases s <;> rfl

theorem start_recallAll {φ : Type} (p : Program Instance φ) (r : Nat) (journal : Journal) (c : Context) (s : Instance) :
    (recallAll p r journal s).start c = s.start c := by
  rw [recallAll]
  induction journal generalizing s with
  | nil => rfl
  | cons h journal ih =>
    rw [List.foldl_cons, ih]
    cases h with
    | call q phase remarks =>
      rw [recallOne]
      split
      · exact Instance.start_called c _ phase s
      · rfl
    | _ => rfl

variable {φ : Type} {m : Meter Instance φ} {t t' : Turn Instance φ}

/-- Turns that agree in all but instances and values, for those who watch the exporters. Filters do not matter once a
packet has passed them. -/
structure Abreast (t t' : Turn Instance φ) : Prop where
  active : t.record.active = t'.record.active
  alive : t.record.alive = t'.record.alive
  signals : t.signals = t'.signals
  exports : Journal.exports t.journal = Journal.exports t'.journal

structure Alike (t t' : Turn Instance φ) : Prop extends Abreast t t' where
  instances : t.record.instances = t'.record.instances
  values : t.record.values = t'.record.values

namespace Alike

private theorem log (alike : Alike t t') (h : Happening) : Alike (t.log h) (t'.log h) :=
  { alike with exports := by rw [Turn.log, Turn.log, Journal.exports_append, Journal.exports_append, alike.exports] }

private theorem setValue (alike : Alike t t') (r : Nat) (v : Option Value) : Alike (t.setValue r v) (t'.setValue r v) :=
  { alike with values := congrArg (List.set · r v) alike.values }

private theorem foldl {ι : Type} {step : Turn Instance φ → ι → Turn Instance φ}
    (each : ∀ t t' i, Alike t t' → Alike (step t i) (step t' i)) (is : List ι) (alike : Alike t t') :
    Alike (is.foldl step t) (is.foldl step t') := by
  induction is generalizing t t' with
  | nil => exact alike
  | cons i is ih => exact ih (each t t' i alike)

private theorem call (alike : Alike t t') (m : Meter Instance φ) (now : Int64) (r : Nat) (phase : Phase)
    (answer : Context → Instance → Instance × Reaction)
    (blind : ∀ c c' s, c.args = c'.args → c.values = c'.values → answer c s = answer c' s) :
    Alike (m.call now r phase answer t).1 (m.call now r phase answer t').1 ∧
      (m.call now r phase answer t).2 = (m.call now r phase answer t').2 := by
  rcases t.idle_or_held r with idle | ⟨s, held⟩
  · rw [Meter.call_idle idle, Meter.call_idle (alike.instances ▸ idle)]
    exact ⟨alike, rfl⟩
  · rw [Meter.call_eq held, Meter.call_eq (alike.instances ▸ held),
      blind (m.context t now r) (m.context t' now r) s rfl alike.values]
    generalize answer (m.context t' now r) s = reply
    have answered : Alike ((t.setInstance r reply.1).raise reply.2.signals) ((t'.setInstance r reply.1).raise reply.2.signals) :=
      { alike with
        signals := congrArg (· ++ reply.2.signals) alike.signals
        instances := congrArg (List.set · r (some reply.1)) alike.instances }
    exact ⟨answered.log _, rfl⟩

private theorem propagate (alike : Alike t t') (m : Meter Instance φ) {next : Nat → Input → Turn Instance φ → Turn Instance φ}
    (each : ∀ d input t t', Alike t t' → Alike (next d input t) (next d input t')) (packet : Option Packet) (r : Nat)
    (e : Emission) : Alike (m.propagate next packet r t e) (m.propagate next packet r t' e) := by
  cases e with
  | nothing => exact alike
  | value v =>
    cases v with
    | none => exact alike.setValue r none
    | some v => exact foldl (fun t t' d => each d (.value v r) t t') _ (alike.setValue r (some v))
  | forward =>
    cases packet with
    | none => exact alike
    | some p => exact foldl (fun t t' d => each d (.packet p (.register r)) t t') _ alike

private theorem deliver (alike : Alike t t') (m : Meter Instance φ) (now : Int64) (packet : Option Packet) (fuel r : Nat)
    (input : Input) : Alike (m.deliver now packet fuel r input t) (m.deliver now packet fuel r input t') := by
  induction fuel generalizing r input t t' with
  | zero => exact alike
  | succ fuel ih =>
    obtain ⟨called, same⟩ := alike.call m now r (.event input) (Feature.event input)
      fun c c' s args _ => Instance.event_congr args input s
    rw [Meter.deliver, Meter.deliver]
    dsimp only
    rw [same]
    exact called.propagate m (fun d input t t' alike => ih alike d input) packet r _

private theorem dispatch (alike : Alike t t') (m : Meter Instance φ) (now : Int64) (packet : Option Packet) (r : Nat)
    (input : Input) : Alike (m.dispatch now packet r input t) (m.dispatch now packet r input t') :=
  alike.deliver m now packet _ r input

private theorem stopOne (alike : Alike t t') (m : Meter Instance φ) (reason : EndReason) (time : Int64) (r : Nat) :
    Alike (m.stopOne reason time t r) (m.stopOne reason time t' r) := by
  obtain ⟨called, same⟩ := alike.call m time r (.stop reason) (Feature.stop reason) fun _ _ _ _ _ => rfl
  rw [Meter.stopOne, Meter.stopOne]
  dsimp only
  rw [same]
  exact called.propagate m (fun d input t t' alike => alike.dispatch m time none d input) none r _

private theorem exportRow (alike : Alike t t') (m : Meter Instance φ) (reason : EndReason) (time : Int64) :
    Alike (m.exportRow reason time t) (m.exportRow reason time t') := by
  have variants : Meter.variant t.record = Meter.variant t'.record := by
    funext r
    rw [Meter.variant, Meter.variant, alike.instances]
  have same : m.row? t.record time = m.row? t'.record time := by
    rw [Meter.row?, Meter.row?, variants, alike.values]
  rw [Meter.exportRow, Meter.exportRow, same]
  cases m.row? t'.record time with
  | none => exact alike.log (.noTemplate reason)
  | some row =>
    exact foldl (fun t t' exporter alike => alike.log (.export exporter.name row (exporter.fails row))) m.exporters
      (alike.log (.row reason row))

private theorem finish (alike : Alike t t') (m : Meter Instance φ) (reason : EndReason) (time : Int64) :
    Alike (m.finish reason time t) (m.finish reason time t') := by
  have swept := foldl (fun t t' r alike => alike.stopOne m reason time r) (List.range m.program.size)
    (alike.log (.finish reason time))
  exact { swept.exportRow m reason time with active := rfl, signals := alike.signals }

end Alike

/-- Instances that are the same once they are started, or no instances. -/
inductive Reviving : Option (Option Instance) → Option (Option Instance) → Prop
  | outside : Reviving none none
  | idle : Reviving (some none) (some none)
  | held {s s' : Instance} (same : ∀ c, s.start c = s'.start c) : Reviving (some (some s)) (some (some s'))

private theorem Reviving.refl (held : Option (Option Instance)) : Reviving held held := by
  cases held with
  | none => exact .outside
  | some held =>
    cases held with
    | none => exact .idle
    | some s => exact .held fun _ => rfl

private theorem reviving_recalled (m : Meter Instance φ) (past past' : Journal) (r : Nat) :
    Reviving (recalled m past r) (recalled m past' r) := by
  rw [recalled, recalled]
  cases m.make.instances[r]? with
  | none => exact .outside
  | some held =>
    cases held with
    | none => exact .idle
    | some s => exact .held fun c => (start_recallAll _ r past c s).trans (start_recallAll _ r past' c s).symm

/-- Where a sweep has started instances both turns have the same; elsewhere they will have once they are started. -/
structure Starting (started : Nat → Prop) (t t' : Turn Instance φ) : Prop extends Abreast t t' where
  values : t.record.values = t'.record.values
  revives : ∀ r : Nat, Reviving (t.record.instances[r]?) (t'.record.instances[r]?)
  same : ∀ r, started r → t.record.instances[r]? = t'.record.instances[r]?

namespace Starting

variable {started : Nat → Prop}

private theorem setInstance (starting : Starting started t t') {r : Nat} {old old' : Instance} (s : Instance)
    (held : t.record.instances[r]? = some (some old)) (held' : t'.record.instances[r]? = some (some old'))
    (remarks : List String) :
    Starting (fun q => q = r ∨ started q) (((t.setInstance r s).raise []).log (.call r .start remarks))
      (((t'.setInstance r s).raise []).log (.call r .start remarks)) := by
  have placed := getElem?_setInstance held s
  have placed' := getElem?_setInstance held' s
  have moved (t : Turn Instance φ) (q : Nat) (other : q ≠ r) :
      (t.setInstance r s).record.instances[q]? = t.record.instances[q]? := List.getElem?_set_ne (Ne.symm other)
  refine ⟨⟨starting.active, starting.alive, congrArg (· ++ []) starting.signals, ?_⟩, starting.values,
    fun q => ?_, fun q member => ?_⟩
  · exact (Journal.exports_append _ _).trans ((congrArg (· ++ _) starting.exports).trans (Journal.exports_append _ _).symm)
  · change Reviving ((t.setInstance r s).record.instances[q]?) ((t'.setInstance r s).record.instances[q]?)
    by_cases here : q = r
    · subst here
      rw [placed, placed']
      exact .refl _
    · rw [moved t q here, moved t' q here]
      exact starting.revives q
  · change (t.setInstance r s).record.instances[q]? = (t'.setInstance r s).record.instances[q]?
    by_cases here : q = r
    · subst here
      rw [placed, placed']
    · rw [moved t q here, moved t' q here]
      exact starting.same q (member.resolve_left here)

private theorem startOne (starting : Starting started t t') (m : Meter Instance φ) (now : Int64) (r : Nat) :
    Starting (fun q => q = r ∨ started q) (m.startOne now t r) (m.startOne now t' r) := by
  have revives := starting.revives r
  have idle {t : Turn Instance φ} (idle : ∀ s, t.record.instances[r]? ≠ some (some s)) : m.startOne now t r = t := by
    rw [m.startOne_eq, Meter.call_idle idle]
  generalize found : t.record.instances[r]? = held at revives
  generalize found' : t'.record.instances[r]? = held' at revives
  cases revives with
  | outside | idle =>
    rw [idle (by rw [found]; rintro s ⟨⟩), idle (by rw [found']; rintro s ⟨⟩)]
    refine { starting with same := fun q member => ?_ }
    rcases member with rfl | member
    · exact found.trans found'.symm
    · exact starting.same q member
  | held same =>
    rename_i s s'
    have answer : s.start (m.context t now r) = s'.start (m.context t' now r) := by
      have args : (m.context t now r).args = (m.context t' now r).args := rfl
      rw [same]
      refine Instance.start_congr (congrArg List.length args) (fun i => ?_) s'
      rw [Context.argument, Context.argument, Meter.context, Meter.context, starting.values]
    have begun := starting.setInstance (s.start (m.context t now r)) found found' []
    have left : m.startOne now t r =
        ((t.setInstance r (s.start (m.context t now r))).raise []).log (.call r .start []) := by
      rw [m.startOne_eq, Meter.call_eq found]
      rfl
    have right : m.startOne now t' r =
        ((t'.setInstance r (s.start (m.context t now r))).raise []).log (.call r .start []) := by
      rw [answer, m.startOne_eq, Meter.call_eq found']
      rfl
    rw [left, right]
    exact begun

private theorem sweep (starting : Starting started t t') (m : Meter Instance φ) (now : Int64) (rs : List Nat) :
    Starting (fun q => q ∈ rs ∨ started q) (rs.foldl (m.startOne now) t) (rs.foldl (m.startOne now) t') := by
  induction rs generalizing started t t' with
  | nil => exact { starting with same := fun q member => starting.same q (member.resolve_left List.not_mem_nil) }
  | cons r rs ih =>
    have swept := ih (starting.startOne m now r)
    refine { swept with same := fun q member => swept.same q ?_ }
    rcases member with member | member
    · exact (List.mem_cons.mp member).symm.imp_right .inl
    · exact .inr (.inr member)

end Starting

private theorem Abreast.start (abreast : Abreast t t') (m : Meter Instance φ) (now : Int64)
    (revives : ∀ r : Nat, Reviving (t.record.instances[r]?) (t'.record.instances[r]?))
    (beyond : ∀ r, m.program.size ≤ r → t.record.instances[r]? = t'.record.instances[r]?) :
    Alike (m.start now t) (m.start now t') := by
  have begun : Starting (m.program.size ≤ ·)
      { t.log (.segment now) with record := { t.record with values := m.program.nodes.map (·.constant) } }
      { t'.log (.segment now) with record := { t'.record with values := m.program.nodes.map (·.constant) } } :=
    ⟨⟨abreast.active, abreast.alive, abreast.signals, by
      rw [Turn.log, Turn.log, Journal.exports_append, Journal.exports_append, abreast.exports]⟩, rfl, revives, beyond⟩
  have swept := begun.sweep m now (List.range m.program.size)
  refine ⟨⟨rfl, swept.alive, abreast.signals, swept.exports⟩,
    List.ext_getElem? fun r => swept.same r ?_, swept.values⟩
  rw [List.mem_range]
  exact Nat.lt_or_ge r m.program.size

theorem Alike.start (alike : Alike t t') (m : Meter Instance φ) (now : Int64) :
    Alike (m.start now t) (m.start now t') :=
  alike.toAbreast.start m now (fun _ => alike.instances ▸ .refl _) fun r _ => congrArg (·[r]?) alike.instances

namespace Alike

variable {packet : Packet}

private theorem runControls (alike : Alike t t') (m : Meter Instance φ) (packet : Packet) (controls : List Nat) :
    Alike (m.runControls packet controls t) (m.runControls packet controls t') := by
  induction controls generalizing t t' with
  | nil => exact alike
  | cons control controls ih =>
    have next := alike.dispatch m packet.time (some packet) control (.packet packet .flow)
    rw [Meter.runControls, Meter.runControls, next.signals]
    split
    · exact next
    · exact ih next

private theorem finishEventOne (alike : Alike t t') (r : Nat) : Alike (Meter.finishEventOne t r) (Meter.finishEventOne t' r) := by
  rw [Meter.finishEventOne, Meter.finishEventOne, alike.instances]
  split
  next s held =>
    have closed : Alike (t.setInstance r s.finishEvent) (t'.setInstance r s.finishEvent) :=
      { alike with instances := congrArg (List.set · r (some s.finishEvent)) alike.instances }
    exact closed.log (.call r .finishEvent [])
  next => exact alike

private theorem deliverPacket (alike : Alike t t') (m : Meter Instance φ) (packet : Packet) :
    Alike (m.deliverPacket packet t) (m.deliverPacket packet t') :=
  foldl (fun _ _ r alike => alike.finishEventOne r) _
    (foldl (fun _ _ r alike => alike.dispatch m packet.time (some packet) r (.packet packet .flow)) _ alike)

private theorem settle (alike : Alike t t') (m : Meter Instance φ) (now : Int64) :
    Alike (m.settle now t).2 (m.settle now t').2 := by
  have restarted {t t' : Turn Instance φ} (alike : Alike t t') :
      Alike (if Signal.restarts t.signals then m.start now t else t)
        (if Signal.restarts t'.signals then m.start now t' else t') := by
    rw [alike.signals]
    split
    · exact alike.start m now
    · exact alike
  rw [Meter.settle, Meter.settle, alike.signals]
  split
  next reason _ => exact alike.finish m reason now
  next =>
    dsimp only
    cases Signal.export? t'.signals with
    | some ends => exact restarted (alike.finish m ends.1 ends.2)
    | none => exact restarted alike

end Alike

/-- A packet for turns that agree, up to a start where they are inactive. -/
theorem Abreast.run (abreast : Abreast t t') (m : Meter Instance φ) (packet : Packet)
    (awake : t.record.active = true → Alike t t')
    (asleep : t.record.active = false → Alike (m.start packet.time t) (m.start packet.time t')) :
    Alike (m.run packet t).2 (m.run packet t').2 := by
  have begun : Alike (if t.record.active then t else m.start packet.time t)
      (if t'.record.active then t' else m.start packet.time t') := by
    rw [← abreast.active]
    cases active : t.record.active with
    | true => exact awake active
    | false => exact asleep active
  have controlled := begun.runControls m packet m.program.controls
  rw [Meter.run, Meter.run]
  dsimp only
  rw [controlled.signals]
  split
  next reason _ => exact { (controlled.log (.controlStop reason)).finish m reason packet.time with }
  next => exact { (controlled.deliverPacket m packet).settle m packet.time with }

theorem screen_eq (packet : Packet) (t : Turn Instance PacketFilter) :
    ∃ journal, (∀ h ∈ journal, LifeCycle.Quiet h) ∧ Meter.screen packet t =
      (t.record.filters.all (·.accepts packet), { t with
        record := { t.record with filtersAlive := !t.record.filters.isEmpty }
        journal := t.journal ++ journal }) := by
  have started (fs : List PacketFilter) (i : Nat) : (Meter.startFilters i fs).1 = fs := by
    induction fs generalizing i with
    | nil => rfl
    | cons f fs ih => exact congrArg (f :: ·) (ih (i + 1))
  have asked (fs : List PacketFilter) (i : Nat) : (Meter.askFilters packet i fs).1 = fs.all (·.accepts packet) ∧
      (Meter.askFilters packet i fs).2.1 = fs := by
    induction fs generalizing i with
    | nil => exact ⟨rfl, rfl⟩
    | cons f fs ih =>
      have answer : Filter.accepts packet f = (f.accepts packet, f, []) := rfl
      rw [Meter.askFilters, answer, List.all_cons]
      cases f.accepts packet with
      | false => exact ⟨rfl, rfl⟩
      | true => exact ⟨(ih (i + 1)).1, congrArg (f :: ·) (ih (i + 1)).2⟩
  refine ⟨(if t.record.filtersAlive then (t.record.filters, []) else Meter.startFilters 0 t.record.filters).2 ++
    (Meter.askFilters packet 0 t.record.filters).2.2, fun h member => ?_, ?_⟩
  · rcases List.mem_append.mp member with member | member
    · split at member
      · cases member
      · exact Meter.startFilters_quiet t.record.filters 0 h member
    · exact Meter.askFilters_quiet packet t.record.filters 0 h member
  · have begun : (if t.record.filtersAlive then (t.record.filters, []) else Meter.startFilters 0 t.record.filters).1 =
        t.record.filters := by
      split
      · rfl
      · exact started _ 0
    rw [Meter.screen]
    dsimp only
    rw [begun, (asked _ 0).1, (asked _ 0).2, List.append_assoc]

def asked (r : Record Instance PacketFilter) (journal : Journal) : Turn Instance PacketFilter :=
  ⟨{ r with filtersAlive := !r.filters.isEmpty }, [], journal⟩

/-- A packet that passes the filters runs, and others change nothing that matters. -/
theorem event_eq (m : Meter Instance PacketFilter) {r : Record Instance PacketFilter} (alive : r.alive = true)
    (packet : Packet) : ∃ journal, (∀ h ∈ journal, LifeCycle.Quiet h) ∧ (m.event r packet).2 =
      if r.filters.all (·.accepts packet) then
        ((m.run packet (asked r journal)).2.record, (m.run packet (asked r journal)).2.journal)
      else ((asked r journal).record, journal ++ [.veto]) := by
  obtain ⟨journal, quiet, screened⟩ := screen_eq packet (.ofRecord r)
  refine ⟨journal, quiet, ?_⟩
  have awake : (!r.alive) = false := by rw [alive]; rfl
  rw [Meter.event, awake, screened, Turn.ofRecord, asked]
  dsimp only
  cases r.filters.all (·.accepts packet) <;> rfl

/-- A stop hands to the exporters what an open segment has come to. -/
theorem exports_stop (m : Meter Instance PacketFilter) {r r' : Record Instance PacketFilter} (active : r.active = r'.active)
    (alive : r.alive = r'.alive) (awake : r.active = true → Alike (.ofRecord r) (.ofRecord r')) (reason : EndReason)
    (now : Int64) : Journal.exports (m.stop r reason now).2 = Journal.exports (m.stop r' reason now).2 := by
  have stopped (t : Turn Instance PacketFilter) := Journal.exports_quiet (Meter.stopStarted_quiet t)
  rw [Meter.stop, Meter.stop, ← alive, ← active]
  split
  · rfl
  · dsimp only
    rw [Journal.exports_append, Journal.exports_append, stopped, stopped, List.append_nil, List.append_nil]
    split
    next active => exact ((awake active).finish m reason now).exports
    next => rfl

/-- Records between their operations that agree for those who watch the exporters. -/
structure Twins (m : Meter Instance PacketFilter) (r r' : Record Instance PacketFilter) : Prop where
  filters : r.filters = r'.filters
  active : r.active = r'.active
  alive : r.alive = r'.alive
  awake : r.active = true → r.instances = r'.instances ∧ r.values = r'.values
  recorded : ∃ past, Recorded m (fun _ => True) [] ⟨r, [], past⟩
  recorded' : ∃ past, Recorded m (fun _ => True) [] ⟨r', [], past⟩

namespace Twins

variable {m : Meter Instance PacketFilter} {r r' : Record Instance PacketFilter}

private theorem of_alike {t t' : Turn Instance PacketFilter} (alike : Alike t t')
    (filters : t.record.filters = t'.record.filters)
    (recorded : ∃ past, Recorded m (fun _ => True) [] ⟨t.record, [], past⟩)
    (recorded' : ∃ past, Recorded m (fun _ => True) [] ⟨t'.record, [], past⟩) : Twins m t.record t'.record :=
  ⟨filters, alike.active, alike.alive, fun _ => ⟨alike.instances, alike.values⟩, recorded, recorded'⟩

private theorem start (twins : Twins m r r') {t t' : Turn Instance PacketFilter} (abreast : Abreast t t') (now : Int64)
    (same : t.record.instances = r.instances) (same' : t'.record.instances = r'.instances) :
    Alike (m.start now t) (m.start now t') := by
  obtain ⟨past, recorded⟩ := twins.recorded
  obtain ⟨past', recorded'⟩ := twins.recorded'
  have held (q : Nat) : t.record.instances[q]? = recalled m past q := same ▸ recorded.instances q
  have held' (q : Nat) : t'.record.instances[q]? = recalled m past' q := same' ▸ recorded'.instances q
  refine abreast.start m now (fun q => ?_) fun q outside => ?_
  · rw [held, held']
    exact reviving_recalled m past past' q
  · have none : m.make.instances[q]? = none :=
      List.getElem?_eq_none (by rw [Meter.make, List.length_map]; exact outside)
    rw [held, held', recalled, recalled, none]
    rfl

private theorem event (twins : Twins m r r') (packet : Packet) :
    Twins m (m.event r packet).2.1 (m.event r' packet).2.1 ∧
      Journal.exports (m.event r packet).2.2 = Journal.exports (m.event r' packet).2.2 := by
  obtain ⟨past, recorded⟩ := twins.recorded
  obtain ⟨past', recorded'⟩ := twins.recorded'
  have next : ∃ past, Recorded m (fun _ => True) [] ⟨(m.event r packet).2.1, [], past⟩ := ⟨_, recorded.event trivial⟩
  have next' : ∃ past, Recorded m (fun _ => True) [] ⟨(m.event r' packet).2.1, [], past⟩ := ⟨_, recorded'.event trivial⟩
  cases alive : r.alive with
  | false =>
    have dead (r : Record Instance PacketFilter) (dead : r.alive = false) : m.event r packet = (.stopped, r, []) := by
      rw [Meter.event, dead]
      rfl
    rw [dead r alive, dead r' (twins.alive ▸ alive)]
    exact ⟨twins, rfl⟩
  | true =>
    obtain ⟨journal, quiet, same⟩ := event_eq m alive packet
    obtain ⟨journal', quiet', same'⟩ := event_eq m (twins.alive ▸ alive) packet
    have exports : Journal.exports journal = Journal.exports journal' :=
      (Journal.exports_quiet quiet).trans (Journal.exports_quiet quiet').symm
    have abreast : Abreast (asked r journal) (asked r' journal') :=
      ⟨twins.active, twins.alive, rfl, exports⟩
    rw [same] at next ⊢
    rw [same'] at next' ⊢
    rw [← twins.filters] at next' ⊢
    split at next
    next accepted =>
      rw [if_pos accepted] at next' ⊢
      rw [if_pos accepted]
      have ran := abreast.run m packet
        (fun active => { abreast with instances := (twins.awake active).1, values := (twins.awake active).2 })
        (fun _ => twins.start abreast packet.time rfl rfl)
      have filters := (congrArg Prod.fst (m.run_frame packet (asked r journal))).trans
        (twins.filters.trans (congrArg Prod.fst (m.run_frame packet (asked r' journal'))).symm)
      exact ⟨of_alike ran filters next next', ran.exports⟩
    next refused =>
      rw [if_neg refused] at next' ⊢
      rw [if_neg refused]
      refine ⟨⟨twins.filters, twins.active, twins.alive, twins.awake, next, next'⟩, ?_⟩
      rw [Journal.exports_append, Journal.exports_append, exports]

private theorem stop (twins : Twins m r r') (reason : EndReason) (now : Int64) :
    Journal.exports (m.stop r reason now).2 = Journal.exports (m.stop r' reason now).2 :=
  exports_stop m twins.active twins.alive (fun active =>
    ⟨⟨twins.active, twins.alive, rfl, rfl⟩, (twins.awake active).1, (twins.awake active).2⟩) reason now

private theorem exports (twins : Twins m r r') (packets : List Packet) (reason : EndReason) (now : Int64) :
    Journal.exports (m.performAll r (packets.map .event ++ [.stop reason now])).2 =
      Journal.exports (m.performAll r' (packets.map .event ++ [.stop reason now])).2 := by
  induction packets generalizing r r' with
  | nil =>
    change Journal.exports ((m.stop r reason now).2 ++ []) = Journal.exports ((m.stop r' reason now).2 ++ [])
    rw [List.append_nil, List.append_nil]
    exact twins.stop reason now
  | cons packet packets ih =>
    obtain ⟨next, same⟩ := twins.event packet
    change Journal.exports ((m.event r packet).2.2 ++ _) = Journal.exports ((m.event r' packet).2.2 ++ _)
    rw [Journal.exports_append, Journal.exports_append, same]
    exact congrArg _ (ih next)

end Twins

theorem performAll_append {σ φ : Type} [Feature σ] [Filter φ] (m : Meter σ φ) (r : Record σ φ)
    (one other : List Operation) : (m.performAll r (one ++ other)).2 =
      (m.performAll r one).2 ++ (m.performAll (m.performAll r one).1 other).2 := by
  induction one generalizing r with
  | nil => rfl
  | cons operation one ih =>
    rw [List.cons_append, Meter.performAll, Meter.performAll, ih, List.append_assoc]

/-- Packets change neither the filters of a record nor whether it is alive. -/
theorem performAll_frame (m : Meter Instance PacketFilter) {r : Record Instance PacketFilter} (alive : r.alive = true)
    (packets : List Packet) : (m.performAll r (packets.map .event)).1.filters = r.filters ∧
      (m.performAll r (packets.map .event)).1.alive = true := by
  induction packets generalizing r with
  | nil => exact ⟨rfl, alive⟩
  | cons packet packets ih =>
    obtain ⟨journal, -, same⟩ := event_eq m alive packet
    have kept : (m.event r packet).2.1.filters = r.filters ∧ (m.event r packet).2.1.alive = true := by
      rw [same]
      split
      · have frame := m.run_frame packet (asked r journal)
        exact ⟨congrArg Prod.fst frame, (congrArg (fun frame => frame.2.2) frame : _).trans alive⟩
      · exact ⟨rfl, alive⟩
    obtain ⟨filters, last⟩ := ih kept.2
    exact ⟨filters.trans kept.1, last⟩

/-- What a record that has become inactive hands to the exporters from then on is what a fresh record would. -/
theorem performAll_restarts (m : Meter Instance PacketFilter) (before after : List Packet) (reason : EndReason) (now : Int64)
    (inactive : (m.performAll m.make (before.map .event)).1.active = false) :
    Journal.exports (m.performAll m.make ((before ++ after).map .event ++ [.stop reason now])).2 =
      Journal.exports (m.performAll m.make (before.map .event)).2 ++
        Journal.exports (m.performAll m.make (after.map .event ++ [.stop reason now])).2 := by
  obtain ⟨filters, alive⟩ := performAll_frame m (r := m.make) rfl before
  have twins : Twins m (m.performAll m.make (before.map .event)).1 m.make :=
    ⟨filters, inactive, alive, fun active => absurd (inactive.symm.trans active) Bool.false_ne_true,
      ⟨_, (Recorded.make m).performAll fun _ _ => trivial⟩, ⟨[], .make m⟩⟩
  rw [List.map_append, List.append_assoc, performAll_append, Journal.exports_append, twins.exports after reason now]

def resets : List Packet :=
  [(Packet.ofLength 1 60).withTcp 40000 443 Packet.rst]

def sink : Exporter :=
  ⟨"sink", fun _ => false⟩

/-- What exporters are called with, as it is displayed. -/
def displayed (journal : Journal) : List (List (Option String)) :=
  journal.filterMap fun
    | .export _ row _ => some (row.values.map (Option.map Value.display))
    | _ => none

theorem performAll_restarts_segmented : ∃ p, Meter.segmented.compile catalog 4096 = .ok p ∧
    (Meter.performAll ⟨p, [sink]⟩ (Meter.make ⟨p, [sink]⟩) (resets.map .event)).1.active = false ∧
    displayed (Meter.performAll ⟨p, [sink]⟩ (Meter.make ⟨p, [sink]⟩)
        ((resets ++ resets).map .event ++ [.stop .forcedEnd 3])).2 = [[some "80", some "60"], [some "80", some "60"]] ∧
    Journal.exports (Meter.performAll ⟨p, [sink]⟩ (Meter.make ⟨p, [sink]⟩)
        ((resets ++ resets).map .event ++ [.stop .forcedEnd 3])).2 =
      Journal.exports (Meter.performAll ⟨p, [sink]⟩ (Meter.make ⟨p, [sink]⟩) (resets.map .event)).2 ++
        Journal.exports (Meter.performAll ⟨p, [sink]⟩ (Meter.make ⟨p, [sink]⟩)
          (resets.map .event ++ [.stop .forcedEnd 3])).2 := by
  have facts : (Meter.segmented.compile catalog 4096).toOption.any (fun p => decide (
      (Meter.performAll ⟨p, [sink]⟩ (Meter.make ⟨p, [sink]⟩) (resets.map .event)).1.active = false ∧
      displayed (Meter.performAll ⟨p, [sink]⟩ (Meter.make ⟨p, [sink]⟩)
        ((resets ++ resets).map .event ++ [.stop .forcedEnd 3])).2 =
          [[some "80", some "60"], [some "80", some "60"]])) = true := by decide +kernel
  obtain ⟨p, compiled, inactive, rows⟩ := ok_of_any facts
  exact ⟨p, compiled, inactive, rows, performAll_restarts ⟨p, [sink]⟩ resets resets .forcedEnd 3 inactive⟩

end Library

end FlowMetering
