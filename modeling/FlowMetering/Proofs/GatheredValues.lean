import FlowMetering.Proofs.AddressFamilies
import FlowMetering.Proofs.CompiledFeatures
import FlowMetering.Proofs.JournalledRounds

/-! What running aggregates keep. Over a segment the instance of a minimum, a maximum, a sum and the like folds its rule over
the values that its register is given, and the row that ends the segment shows what has been kept. -/

namespace FlowMetering

/-- The values that a register has been given since the segment began, after one more happening. -/
def gatherOne (r : Nat) (values : List Value) : Happening → List Value
  | .segment _ => []
  | .call q (.event (.value v _)) _ => if q = r then values ++ [v] else values
  | _ => values

/-- The values that a register has been given since the last segment began. -/
def Journal.gathered (journal : Journal) (r : Nat) : List Value :=
  journal.foldl (gatherOne r) []

theorem Journal.gathered_snoc (journal : Journal) (h : Happening) (r : Nat) :
    Journal.gathered (journal ++ [h]) r = gatherOne r (Journal.gathered journal r) h :=
  List.foldl_append

private theorem gatherOne_elsewhere {r q : Nat} (other : q ≠ r) (values : List Value) (phase : Phase) (remarks : List String) :
    gatherOne r values (.call q phase remarks) = values := by
  cases phase with
  | event input =>
    cases input with
    | packet packet source => rfl
    | value v source => exact if_neg other
  | _ => rfl

namespace Library

def Aggregate.kept (rule : Aggregate) (values : List Value) : Option Value :=
  values.foldl rule.step none

theorem Aggregate.kept_snoc (rule : Aggregate) (values : List Value) (v : Value) :
    rule.kept (values ++ [v]) = rule.step (rule.kept values) v :=
  List.foldl_append

variable {φ : Type} {m : Meter Instance φ} {rule : Aggregate} {r : Nat}

private def Tallies (rule : Aggregate) (r : Nat) : Scene Instance := fun _ instances _ =>
  ∃ current, instances[r]? = some (some (.running rule current))

/-- The aggregate keeps what follows from the values that it has been given in the segment. -/
private def Tallying (rule : Aggregate) (r : Nat) : Scene Instance := fun journal instances values =>
  instances[r]? = some (some (.running rule (rule.kept (Journal.gathered journal r)))) ∧ r < values.length

private def Tallied (rule : Aggregate) (r : Nat) : Scene Instance := fun journal instances values =>
  (∃ current, instances[r]? = some (some (.running rule current))) ∧
    values[r]? = some (rule.kept (Journal.gathered journal r))

variable {past : Journal} {t : Turn Instance φ}

namespace Tallied

private theorem call (tallied : t.Plays past (Tallied rule r)) (m : Meter Instance φ) (now : Int64) {q : Nat} (other : q ≠ r)
    (phase : Phase) (answer : Context → Instance → Instance × Reaction) :
    (m.call now q phase answer t).1.Plays past (Tallied rule r) := by
  rcases t.idle_or_held q with idle | ⟨s, held⟩
  · rwa [Meter.call_idle idle]
  · obtain ⟨⟨current, running⟩, value⟩ := tallied
    rw [Meter.call_eq held]
    refine ⟨⟨current, (List.getElem?_set_ne other).trans running⟩, value.trans ?_⟩
    change some (rule.kept (Journal.gathered (past ++ t.journal) r)) =
      some (rule.kept (Journal.gathered (past ++ (t.journal ++ [.call q phase _])) r))
    rw [← List.append_assoc, Journal.gathered_snoc, gatherOne_elsewhere other]

private theorem setValue (tallied : t.Plays past (Tallied rule r)) {q : Nat} (other : q ≠ r) (v : Option Value) :
    (t.setValue q v).Plays past (Tallied rule r) :=
  ⟨tallied.1, (List.getElem?_set_ne other).trans tallied.2⟩

/-- What is handed on by the register of the aggregate and by those behind it does not come back. -/
private theorem spread (tallied : t.Plays past (Tallied rule r)) (ordered : m.program.Ordered)
    {next : Nat → Input → Turn Instance φ → Turn Instance φ}
    (each : ∀ d input t, r < d → t.Plays past (Tallied rule r) → (next d input t).Plays past (Tallied rule r))
    {q : Nat} (behind : r ≤ q) (input : Input) :
    ((m.program.dependents q).foldl (fun t d => next d input t) t).Plays past (Tallied rule r) :=
  Turn.plays_foldl (fun d reads t => each d input t (Nat.lt_of_le_of_lt behind (ordered.lt_of_dependent reads))) tallied

private theorem propagate (tallied : t.Plays past (Tallied rule r)) (ordered : m.program.Ordered)
    {next : Nat → Input → Turn Instance φ → Turn Instance φ}
    (each : ∀ d input t, r < d → t.Plays past (Tallied rule r) → (next d input t).Plays past (Tallied rule r))
    (packet : Option Packet) {q : Nat} (behind : r < q) (emission : Emission) :
    (m.propagate next packet q t emission).Plays past (Tallied rule r) := by
  have placed (v : Option Value) := setValue tallied (Nat.ne_of_gt behind) v
  cases emission with
  | nothing => exact tallied
  | value v =>
    cases v with
    | none => exact placed none
    | some v => exact spread (placed (some v)) ordered each behind.le (.value v q)
  | forward =>
    cases packet with
    | none => exact tallied
    | some p => exact spread tallied ordered each behind.le (.packet p (.register q))

private theorem deliver (tallied : t.Plays past (Tallied rule r)) (ordered : m.program.Ordered) (now : Int64) (packet : Option Packet)
    (fuel : Nat) {q : Nat} (behind : r < q) (input : Input) :
    (m.deliver now packet fuel q input t).Plays past (Tallied rule r) := by
  induction fuel generalizing q input t with
  | zero => exact tallied
  | succ fuel ih =>
    have called := call tallied m now (Nat.ne_of_gt behind) (.event input) (Feature.event input)
    exact propagate called ordered (fun d input t behind tallied => ih tallied behind input) packet behind _

private theorem stopOne (tallied : t.Plays past (Tallied rule r)) (ordered : m.program.Ordered) (reason : EndReason) (time : Int64)
    {q : Nat} (behind : r < q) : (m.stopOne reason time t q).Plays past (Tallied rule r) := by
  have called := call tallied m time (Nat.ne_of_gt behind) (.stop reason) (Feature.stop reason)
  exact propagate called ordered (fun d input t behind tallied => deliver tallied ordered time none _ behind input) none
    behind _

end Tallied

namespace Tallying

private theorem event (tallying : t.Plays past (Tallying rule r)) (m : Meter Instance φ) (now : Int64) (q : Nat) (input : Input) :
    (m.call now q (.event input) (Feature.event input) t).1.Plays past (Tallying rule r) := by
  rcases t.idle_or_held q with idle | ⟨s, held⟩
  · rwa [Meter.call_idle idle]
  · obtain ⟨running, slot⟩ := tallying
    rw [Meter.call_eq held]
    refine ⟨?_, slot⟩
    change (t.record.instances.set q _)[r]? = some (some (.running rule (rule.kept
      (Journal.gathered (past ++ (t.journal ++ [.call q (.event input) _])) r))))
    rw [← List.append_assoc, Journal.gathered_snoc]
    by_cases here : q = r
    · subst here
      cases held.symm.trans running
      rw [List.getElem?_set_self (List.getElem?_eq_some_iff.mp held).1]
      cases input with
      | packet packet source => rfl
      | value v source =>
        rw [gatherOne, if_pos rfl, Aggregate.kept_snoc]
        rfl
    · rw [List.getElem?_set_ne here, gatherOne_elsewhere here]
      exact running

private theorem finishEventOne (tallying : t.Plays past (Tallying rule r)) (q : Nat) :
    (Meter.finishEventOne t q).Plays past (Tallying rule r) := by
  rw [Meter.finishEventOne]
  split
  next s held =>
    obtain ⟨running, slot⟩ := tallying
    refine ⟨?_, slot⟩
    change (t.record.instances.set q _)[r]? = some (some (.running rule (rule.kept
      (Journal.gathered (past ++ (t.journal ++ [.call q .finishEvent _])) r))))
    rw [← List.append_assoc, Journal.gathered_snoc]
    by_cases here : q = r
    · subst here
      cases held.symm.trans running
      exact List.getElem?_set_self (List.getElem?_eq_some_iff.mp held).1
    · rw [List.getElem?_set_ne here]
      exact running
  next => exact tallying

private theorem setValue (tallying : t.Plays past (Tallying rule r)) (q : Nat) (v : Option Value) :
    (t.setValue q v).Plays past (Tallying rule r) :=
  ⟨tallying.1, by rw [Turn.setValue, List.length_set]; exact tallying.2⟩

private theorem propagate (tallying : t.Plays past (Tallying rule r)) (m : Meter Instance φ)
    {next : Nat → Input → Turn Instance φ → Turn Instance φ}
    (each : ∀ d input t, t.Plays past (Tallying rule r) → (next d input t).Plays past (Tallying rule r))
    (packet : Option Packet) (q : Nat) (emission : Emission) :
    (m.propagate next packet q t emission).Plays past (Tallying rule r) := by
  cases emission with
  | nothing => exact tallying
  | value v =>
    cases v with
    | none => exact setValue tallying q none
    | some v => exact Turn.plays_foldl (fun d _ => each d (.value v q)) (setValue tallying q (some v))
  | forward =>
    cases packet with
    | none => exact tallying
    | some p => exact Turn.plays_foldl (fun d _ => each d (.packet p (.register q))) tallying

private theorem deliver (tallying : t.Plays past (Tallying rule r)) (m : Meter Instance φ) (now : Int64) (packet : Option Packet)
    (fuel q : Nat) (input : Input) : (m.deliver now packet fuel q input t).Plays past (Tallying rule r) := by
  induction fuel generalizing q input t with
  | zero => exact tallying
  | succ fuel ih => exact propagate (event tallying m now q input) m (fun d input t tallying => ih tallying d input) packet q _

/-- The stop of a register before that of the aggregate may still give it values. -/
private theorem stopBefore (tallying : t.Plays past (Tallying rule r)) (m : Meter Instance φ) (reason : EndReason) (time : Int64)
    {q : Nat} (before : q < r) : (m.stopOne reason time t q).Plays past (Tallying rule r) := by
  have called : (m.call time q (.stop reason) (Feature.stop reason) t).1.Plays past (Tallying rule r) := by
    rcases t.idle_or_held q with idle | ⟨s, held⟩
    · rwa [Meter.call_idle idle]
    · rw [Meter.call_eq held]
      refine ⟨(List.getElem?_set_ne (Nat.ne_of_lt before)).trans (tallying.1.trans ?_), tallying.2⟩
      change some (some (Instance.running rule (rule.kept (Journal.gathered (past ++ t.journal) r)))) =
        some (some (.running rule (rule.kept (Journal.gathered (past ++ (t.journal ++ [.call q (.stop reason) _])) r))))
      rw [← List.append_assoc, Journal.gathered_snoc]
      rfl
  exact propagate called m (fun d input t tallying => deliver tallying m time none _ d input) none q _

private theorem stopHere (tallying : t.Plays past (Tallying rule r)) (ordered : m.program.Ordered) (reason : EndReason) (time : Int64) :
    (m.stopOne reason time t r).Plays past (Tallied rule r) := by
  obtain ⟨running, slot⟩ := tallying
  have result : m.stopOne reason time t r = m.propagate (m.dispatch time none) none r
      (((t.setInstance r (.running rule none)).raise []).log (.call r (.stop reason) []))
      (.value (rule.kept (Journal.gathered (past ++ t.journal) r))) := by
    rw [Meter.stopOne, Meter.call_eq running]
    rfl
  have placed : ((((t.setInstance r (.running rule none)).raise []).log (.call r (.stop reason) [])).setValue r
      (rule.kept (Journal.gathered (past ++ t.journal) r))).Plays past (Tallied rule r) := by
    refine ⟨⟨none, getElem?_setInstance running _⟩, (List.getElem?_set_self slot).trans ?_⟩
    change _ = some (rule.kept (Journal.gathered (past ++ (t.journal ++ [.call r (.stop reason) []])) r))
    rw [← List.append_assoc, Journal.gathered_snoc]
    rfl
  rw [result]
  generalize rule.kept (Journal.gathered (past ++ t.journal) r) = kept at placed
  cases kept with
  | none => exact placed
  | some v =>
    exact Tallied.spread placed ordered (fun d input t behind tallied => Tallied.deliver tallied ordered time none _ behind input)
      (Nat.le_refl r) (.value v r)

end Tallying

private theorem startOne_tallies (m : Meter Instance φ) (now : Int64) {q : Nat} {current : Option Value}
    (running : t.record.instances[r]? = some (some (.running rule current))) :
    (m.startOne now t q).record.instances[r]? = some (some (.running rule (if q = r then none else current))) := by
  rw [Meter.startOne_eq]
  rcases t.idle_or_held q with idle | ⟨s, held⟩
  · rw [Meter.call_idle idle, if_neg]
    · exact running
    · rintro rfl
      exact idle _ running
  · rw [Meter.call_eq held]
    split
    next here =>
      subst here
      cases held.symm.trans running
      exact getElem?_setInstance running _
    next other => exact (List.getElem?_set_ne other).trans running

private theorem startSweep_tallies (m : Meter Instance φ) (now : Int64) {current : Option Value}
    (running : t.record.instances[r]? = some (some (.running rule current))) (count : Nat) :
    ((List.range count).foldl (m.startOne now) t).record.instances[r]? =
      some (some (.running rule (if r < count then none else current))) := by
  induction count with
  | zero => exact running
  | succ count ih =>
    rw [List.range_succ, List.foldl_append, List.foldl_cons, List.foldl_nil, startOne_tallies m now ih]
    by_cases here : count = r
    · rw [if_pos here, if_pos (by omega)]
    · rw [if_neg here]
      by_cases below : r < count
      · rw [if_pos below, if_pos (by omega)]
      · rw [if_neg below, if_neg (by omega)]

private theorem startSweep_gathered (m : Meter Instance φ) (now : Int64) (t : Turn Instance φ) (rs : List Nat) :
    Journal.gathered (past ++ (rs.foldl (m.startOne now) t).journal) r = Journal.gathered (past ++ t.journal) r := by
  refine List.foldlRecOn rs (m.startOne now)
    (motive := fun t' => Journal.gathered (past ++ t'.journal) r = Journal.gathered (past ++ t.journal) r) rfl
    fun t same q _ => ?_
  rw [Meter.startOne_eq]
  rcases t.idle_or_held q with idle | ⟨s, held⟩
  · rw [Meter.call_idle idle]
    exact same
  · rw [Meter.call_eq held]
    change Journal.gathered (past ++ (t.journal ++ [.call q .start _])) r = _
    rw [← List.append_assoc, Journal.gathered_snoc]
    exact same

private theorem start_tallying (inside : r < m.program.size) (now : Int64) (tallies : t.Plays past (Tallies rule r)) :
    (m.start now t).Plays past (Tallying rule r) := by
  obtain ⟨current, running⟩ := tallies
  let cleared : Turn Instance φ := { t.log (.segment now) with
    record := { t.record with values := m.program.nodes.map (·.constant) } }
  have started := startSweep_tallies (t := cleared) m now running m.program.size
  rw [if_pos inside] at started
  have none : Journal.gathered (past ++ (m.start now t).journal) r = [] := by
    have same : Journal.gathered (past ++ (m.start now t).journal) r =
        Journal.gathered (past ++ (t.journal ++ [.segment now])) r :=
      startSweep_gathered m now cleared (List.range m.program.size)
    rw [same, ← List.append_assoc, Journal.gathered_snoc]
    rfl
  refine ⟨?_, ?_⟩
  · rw [none]
    exact started
  · have length := congrArg List.length (start_sweep (m := m) now cleared m.program.size).1
    exact Nat.lt_of_lt_of_eq inside ((List.length_map ..).symm.trans length.symm)

private theorem finish_tallied (ordered : m.program.Ordered) (inside : r < m.program.size) (reason : EndReason) (time : Int64)
    (tallying : t.Plays past (Tallying rule r)) :
    ((List.range m.program.size).foldl (m.stopOne reason time) t).Plays past (Tallied rule r) := by
  refine foldl_range_reaches (Turn.Plays · past (Tallying rule r)) (Turn.Plays · past (Tallied rule r)) inside tallying ?_
    ?_ ?_
  · exact fun q ahead t still => Tallying.stopBefore still m reason time ahead
  · exact fun t still => Tallying.stopHere still ordered reason time
  · exact fun q behind t done => Tallied.stopOne done ordered reason time behind

private theorem acts_tallying (m : Meter Instance φ) (ordered : m.program.Ordered) {node : Node Instance}
    (found : m.program.nodes[r]? = some node) (built : node.build? = some fun _ => .running rule none) :
    m.Acts (Tallies rule r) (Tallying rule r) (Tallied rule r) where
  make := by
    refine ⟨none, ?_⟩
    rw [Meter.make, List.getElem?_map, found, Option.map_some, built, Option.map_some]
  aside h quiet journal instances values := by
    refine ⟨id, fun tallying => ?_⟩
    rw [Tallying, Journal.gathered_snoc]
    cases h with
    | segment | call => cases quiet
    | _ => exact tallying
  start past now t shown := by
    have inside : r < m.program.size := (List.getElem?_eq_some_iff.mp found).1
    refine start_tallying inside now (shown.elim id fun tallying => ⟨_, tallying.1⟩)
  control past packet q t _ tallying := Tallying.deliver tallying m packet.time (some packet) _ q _
  deliver past packet t tallying :=
    Turn.plays_foldl (fun q _ _ tallying => Tallying.finishEventOne tallying q)
      (Turn.plays_foldl (fun q _ _ tallying => Tallying.deliver tallying m packet.time (some packet) _ q _) tallying)
  finish past reason time t tallying := finish_tallied ordered (List.getElem?_eq_some_iff.mp found).1 reason time tallying
  rest journal instances values tallied := tallied.1

section Compiled

variable {limit : Nat} {s : Specification} {p : Program Instance PacketFilter}

private theorem build_aggregate : ∀ entry ∈ entries, ∀ rule : Aggregate, entry.name = rule.name →
    entry.build = some fun _ => .running rule none := by
  intro entry member rule named
  simp only [entries, List.map_cons, List.map_nil, List.cons_append, List.nil_append, List.mem_cons, List.not_mem_nil,
    or_false] at member
  casesm* _ ∨ _ <;> subst member <;> cases rule <;> first | rfl | exact absurd named (by decide)

private theorem CompiledTo.aggregate {nodes : List (Node Instance)} {rule : Aggregate} {argument : Json}
    (compiledTo : CompiledTo nodes (.array [.string rule.name, argument]) r) : ∃ node, nodes[r]? = some node ∧
      node.build? = some fun _ => .running rule none := by
  obtain ⟨e, bound, read, takes, -, refers⟩ := compiledTo
  obtain ⟨args, inner, rfl⟩ := map_eq_ok.mp read
  have plain : definition? rule.name = none := by cases rule <;> rfl
  rw [unfolded, plain, Option.getD_none] at takes
  obtain ⟨candidate, found, bounds, -, rfl⟩ := Bound.ofExpression_call takes
  obtain ⟨entered, named, -, -⟩ := Catalog.mem_find found
  have built := build_aggregate _ entered rule named
  rw [Bound.settled_call built] at refers
  cases refers with
  | call found varies entry plain count each => exact ⟨_, found, by rw [Node.build?, entry]; exact built⟩

private theorem exported_aggregate (compiled : s.compile catalog limit = .ok p) {i : Nat} {rule : Aggregate} {argument : Json}
    (feature : s.features[i]? = some (.array [.string rule.name, argument])) : ∃ r node, p.exports[i]? = some r ∧
      p.nodes[r]? = some node ∧ node.build? = some fun _ => .running rule none := by
  obtain ⟨stages⟩ := Specification.compile_stages compiled
  obtain ⟨made, exported, same⟩ := exported_of_stages stages
  have controlled := Allocation.addControls_controlled stages.controls.zipIdx made
  rw [← same] at controlled
  obtain ⟨inside, here⟩ := List.getElem?_eq_some_iff.mp feature
  have each := features_compiled stages exported
  have inside' : i < made.exports.length := each.length_eq ▸ inside
  have compiledTo : CompiledTo made.nodes s.features[i] made.exports[i].register := each.get inside inside'
  rw [here] at compiledTo
  obtain ⟨node, found, built⟩ := compiledTo.aggregate
  obtain ⟨more, nodes, -⟩ := controlled.nodes
  refine ⟨made.exports[i].register, node, ?_, ?_, built⟩
  · rw [Allocation.program_exports stages.finished, controlled.exports, List.getElem?_map, List.getElem?_eq_getElem inside']
    rfl
  · rw [Allocation.program_nodes stages.finished, nodes, List.getElem?_append_left (List.getElem?_eq_some_iff.mp found).1]
    exact found

/-- Every row shows for a feature that is an aggregate what the aggregate keeps of the values that its register has been given
in the segment. -/
theorem rows_kept (compiled : s.compile catalog limit = .ok p) {i : Nat} {rule : Aggregate} {argument : Json}
    (feature : s.features[i]? = some (.array [.string rule.name, argument])) (exporters : List Exporter)
    (operations : List Operation) : ∃ r, p.exports[i]? = some r ∧ ∀ before reason row after,
      (Meter.performAll ⟨p, exporters⟩ (Meter.make ⟨p, exporters⟩) operations).2 = before ++ .row reason row :: after →
      row.values[i]? = some (rule.kept (Journal.gathered before r)) := by
  obtain ⟨r, node, exported, found, built⟩ := exported_aggregate compiled feature
  refine ⟨r, exported, fun before reason row after split => ?_⟩
  have acts := acts_tallying ⟨p, exporters⟩ (Specification.compile_ordered compiled) found built
  obtain ⟨record, time, ⟨-, value⟩, shown⟩ := (acts.tells operations).row split
  obtain ⟨template, -, rfl⟩ := Option.map_eq_some_iff.mp shown
  rw [List.nil_append] at value
  rw [List.getElem?_map, exported, Option.map_some, value]
  rfl

end Compiled

end Library

end FlowMetering
