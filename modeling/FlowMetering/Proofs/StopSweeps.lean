import FlowMetering.Proofs.CircuitRuns

/-! The end of a segment in circuits. Registers are stopped in ascending order, so that an operator on whole flows has
been told the results of its arguments when its own turn comes; the row has the results of the trees. -/

namespace FlowMetering.Library

variable {φ : Type} {p : Program Instance φ} {m : Meter Instance φ} {lives : Nat → Live} {good : Nat → Prop}

namespace Instance

theorem receive_congr (position : Nat) {e e' : Emission} (same : e.value? = e'.value?) (s : Instance) :
    s.receive position e = s.receive position e' := by
  have value (e : Emission) : s.receive position e = (e.value?.map fun v => (s.value v [position]).1).getD s := by
    cases e with
    | nothing | forward => rfl
    | value v => cases v <;> rfl
  rw [value, value, same]

theorem gather_congr {es es' : List Emission} (same : es.map Emission.value? = es'.map Emission.value?) (position : Nat)
    (s : Instance) : s.gather position es = s.gather position es' := by
  induction es generalizing es' position s with
  | nil =>
    rw [List.map_nil] at same
    rw [List.map_eq_nil_iff.mp same.symm]
  | cons e es ih =>
    cases es' with
    | nil => cases same
    | cons e' es' =>
      obtain ⟨first, rest⟩ := List.cons_eq_cons.mp same
      rw [gather, gather, receive_congr position first, ih rest]

end Instance

/-- What the readers of an argument have been told when so many registers are stopped. -/
def told (reason : EndReason) (lives : Nat → Live) (count : Nat) : Argument → Emission
  | .raw => .nothing
  | .register r => if r < count then Live.close reason (lives r) else .nothing

private theorem told_succ {reason : EndReason} {count : Nat} {arg : Argument} (other : arg ≠ .register count) :
    told reason lives (count + 1) arg = told reason lives count arg := by
  cases arg with
  | raw => rfl
  | register r =>
    have different : r ≠ count := fun same => other (congrArg Argument.register same)
    rw [told, told]
    by_cases below : r < count
    · rw [if_pos below, if_pos (by omega)]
    · rw [if_neg below, if_neg (by omega)]

private theorem told_arguments {reason : EndReason} {r : Nat} {args : List Argument} (below : ∀ arg ∈ args, arg.Below r) :
    args.map (told reason lives r) = (args.map (Live.at lives)).map (Live.close reason) := by
  rw [List.map_map]
  refine List.map_congr_left fun arg member => ?_
  cases arg with
  | raw => rfl
  | register q => exact if_pos (below _ member)

/-- The record of a stop sweep after so many registers: the others have been told the results, and the values of those
that are stopped are the results. -/
structure Stopping (p : Program Instance φ) (lives : Nat → Live) (good : Nat → Prop) (reason : EndReason) (count : Nat)
    (r : Record Instance φ) : Prop where
  held : ∀ q node s, good q → count ≤ q → p.nodes[q]? = some node →
    lives q = .call (some s) (node.args.map (Live.at lives)) →
      r.instances[q]? = some (some (s.gather 0 (node.args.map (told reason lives count))))
  idle : ∀ q value, good q → lives q = .constant value → ∀ s, r.instances[q]? ≠ some (some s)
  values : ∀ q, Steady lives good q →
    r.values[q]? = some (if q < count then Live.result reason (lives q) else constant? (lives q))

/-- The registers from a number on in the middle of being told a result. Those that wait have not been told yet. -/
private def Telling (p : Program Instance φ) (lives : Nat → Live) (good : Nat → Prop) (reason : EndReason) (count : Nat)
    (waiting : List Nat) (instances : List (Option Instance)) : Prop :=
  ∀ q node s, good q → count < q → p.nodes[q]? = some node → lives q = .call (some s) (node.args.map (Live.at lives)) →
    instances[q]? =
      some (some (s.gather 0 (node.args.map (told reason lives (if q ∈ waiting then count else count + 1)))))

/-- Only an operator on whole flows reads a register that has something to say when the flow ends. -/
private theorem Wiring.of_close {s : Instance} {args : List Argument} (wiring : Wiring p lives s args) {arg : Argument}
    (member : arg ∈ args) {reason : EndReason} {v : Value} (given : Live.close reason (Live.at lives arg) = .value (some v)) :
    ∃ op, s = .operator op .flowFeature (slotsOn lives args) ((slotsOn lives args).map Option.isSome) := by
  have silent {role : Role} (has : Live.HasRole role (Live.at lives arg)) (other : role ≠ .flow) : False := by
    rw [has.close_silent other] at given
    cases given
  cases wiring with
  | single before role known has other =>
    rcases List.mem_append.mp member with member | member
    · have constant := known arg member
      cases held : Live.at lives arg with
      | constant value =>
        rw [held] at given
        cases given
      | raw mark | call head args =>
        rw [held] at constant
        cases constant
    · rw [List.mem_singleton.mp member] at silent
      exact (silent has other).elim
  | packetOperator has varies => exact (silent (has arg member) nofun).elim
  | flowOperator has => exact ⟨_, rfl⟩
  | predicate has inside within =>
    rcases List.mem_cons.mp member with rfl | member
    · exact (silent has nofun).elim
    · rw [List.mem_singleton.mp member] at silent
      exact (silent inside nofun).elim

private theorem deliver_result (circuit : Circuit m.program lives good) {reason : EndReason} (time : Int64) {r d : Nat} {v : Value}
    (held : good d) {reader : Node Instance} (found : m.program.nodes[d]? = some reader)
    (reads : .register r ∈ reader.args) (given : Live.close reason (lives r) = .value (some v)) {t : Turn Instance φ}
    (current : ∀ s, lives d = .call (some s) (reader.args.map (Live.at lives)) →
      t.record.instances[d]? = some (some (s.gather 0 (reader.args.map (told reason lives r)))))
    (calm : Calm t.record) :
    Keeps good t (m.dispatch time none d (.value v r) t) ∧
      (∀ q, q ≠ d → (m.dispatch time none d (.value v r) t).record.instances[q]? = t.record.instances[q]?) ∧
      ∀ s, lives d = .call (some s) (reader.args.map (Live.at lives)) →
        (m.dispatch time none d (.value v r) t).record.instances[d]? =
          some (some (s.gather 0 (reader.args.map (told reason lives (r + 1))))) := by
  obtain ⟨keeps, others⟩ := m.call_keeps good time d (.event (.value v r)) (Feature.event (.value v r)) calm
    (fun c s working => s.signals_event working (.value v r) c) (fun c s => s.role?_event (.value v r) c)
  cases circuit.placed d held with
  | constant found' known args shown =>
    obtain rfl := Option.some.inj (found.symm.trans found')
    rw [args] at reads
    cases reads
  | call found' varies shown wiring closed free plain =>
    rename_i node s
    obtain rfl := Option.some.inj (found.symm.trans found')
    obtain ⟨op, rfl⟩ := wiring.of_close reads given
    have inside : d < m.program.size := (List.getElem?_eq_some_iff.mp found).1
    have state := current _ shown
    have gathered (count : Nat) := Instance.gather_operator op .flowFeature ((slotsOn lives reader.args).map Option.isSome)
      (reader.args.map (told reason lives count)) [] (slotsOn lives reader.args)
      (by rw [slotsOn, List.length_map, List.length_map])
    simp only [List.nil_append, List.length_nil] at gathered
    have same : m.dispatch time none d (.value v r) t = (m.call time d (.event (.value v r)) (Feature.event (.value v r)) t).1 := by
      obtain ⟨fuel, enough⟩ : ∃ fuel, m.program.size - d = fuel + 1 := ⟨m.program.size - d - 1, by omega⟩
      rw [Meter.dispatch, enough, Meter.deliver, m.call_eq state, gathered]
      rfl
    rw [same]
    refine ⟨keeps, others, fun s' shown' => ?_⟩
    rw [shown] at shown'
    injection shown' with heads
    obtain rfl := Option.some.inj heads
    have reads' : (m.context t time d).args = reader.args := by
      rw [Meter.context, Program.args, Program.node?, found]
    rw [m.call_eq state, gathered, gathered]
    refine (getElem?_setInstance state _).trans (congrArg (some ∘ some) ?_)
    change (Instance.operator op .flowFeature (fill _ _ v) _) = _
    rw [← reads', fill_filled (by rw [slotsOn, List.length_map])]
    congr 2
    refine List.map_congr_left fun arg _ => ?_
    by_cases here : arg = .register r
    · rw [here, if_pos rfl, told, if_pos (Nat.lt_succ_self r), given]
    · rw [if_neg here, told_succ here]

private theorem tell (circuit : Circuit m.program lives good) {reason : EndReason} (time : Int64) {r : Nat} {v : Value}
    (given : Live.close reason (lives r) = .value (some v)) {ds : List Nat} (distinct : ds.Nodup)
    (readers : ∀ d ∈ ds, d ∈ m.program.dependents r) {t : Turn Instance φ}
    (telling : Telling m.program lives good reason r ds t.record.instances) (calm : Calm t.record) :
    Telling m.program lives good reason r []
        (ds.foldl (fun t d => m.dispatch time none d (.value v r) t) t).record.instances ∧
      Keeps good t (ds.foldl (fun t d => m.dispatch time none d (.value v r) t) t) ∧
      ∀ q, good q → q ∉ ds → (ds.foldl (fun t d => m.dispatch time none d (.value v r) t) t).record.instances[q]? =
        t.record.instances[q]? := by
  induction ds generalizing t with
  | nil => exact ⟨telling, .refl calm, fun _ _ _ => rfl⟩
  | cons d ds ih =>
    obtain ⟨absent, distinct⟩ := List.nodup_cons.mp distinct
    have reads := readers d List.mem_cons_self
    have larger : r < d := circuit.ordered.lt_of_dependent reads
    rw [List.foldl_cons]
    have advanced : Keeps good t (m.dispatch time none d (.value v r) t) ∧
        Telling m.program lives good reason r ds (m.dispatch time none d (.value v r) t).record.instances ∧
        ∀ q, good q → q ≠ d → (m.dispatch time none d (.value v r) t).record.instances[q]? = t.record.instances[q]? := by
      by_cases held : good d
      · obtain ⟨reader, found, member⟩ := Program.mem_arguments.mp (Program.mem_dependents.mp reads).2.2
        obtain ⟨keeps, others, state⟩ := deliver_result circuit time held found member given (t := t)
          (fun s shown => by
            have waiting := telling d reader s held larger found shown
            rwa [if_pos List.mem_cons_self] at waiting) calm
        refine ⟨keeps, ?_, fun q _ other => others q other⟩
        intro q node s held' later found' shown
        by_cases here : q = d
        · subst here
          obtain rfl := Option.some.inj (found.symm.trans found')
          rw [if_neg absent]
          exact state s shown
        · rw [others q here, telling q node s held' later found' shown]
          simp only [List.mem_cons, here, false_or]
      · have spared : Spares good t (m.dispatch time none d (.value v r) t) := deliver_outside circuit time none held calm
        refine ⟨spared.toKeeps, ?_, fun q held' _ => spared.instances q held'⟩
        intro q node s held' later found' shown
        have here : q ≠ d := fun same => held (same ▸ held')
        rw [spared.instances q held', telling q node s held' later found' shown]
        simp only [List.mem_cons, here, false_or]
    obtain ⟨keeps, telling', others⟩ := advanced
    obtain ⟨done, keeps', rest⟩ := ih distinct (fun d member => readers d (List.mem_cons_of_mem _ member)) telling' keeps.calm
    refine ⟨done, keeps.trans keeps', fun q held outside => ?_⟩
    obtain ⟨other, outside⟩ := not_or.mp fun either => outside (List.mem_cons.mpr either)
    rw [rest q held outside, others q held other]

private theorem Circuit.not_reading (circuit : Circuit p lives good) {r q : Nat} {node : Node Instance} (outside : ¬good r)
    (held : good q) (found : p.nodes[q]? = some node) {arg : Argument} (member : arg ∈ node.args) : arg ≠ .register r :=
  fun same => outside (circuit.closed held found (same ▸ member))

private theorem Circuit.unread (circuit : Circuit p lives good) {r q : Nat} {value : Value} (held : good q)
    (shown : lives q = .constant value) : q ∉ p.dependents r := by
  intro reads
  obtain ⟨reader, found, member⟩ := Program.mem_arguments.mp (Program.mem_dependents.mp reads).2.2
  cases circuit.placed q held with
  | constant found' known args shown' =>
    obtain rfl := Option.some.inj (found.symm.trans found')
    rw [args] at member
    cases member
  | call found' varies shown' wiring closed free plain =>
    rw [shown'] at shown
    cases shown

private theorem Stopping.values_succ {reason : EndReason} {r : Nat} {record : Record Instance φ}
    (stopping : Stopping p lives good reason r record) {q : Nat} (steady : Steady lives good q) (other : q ≠ r) :
    record.values[q]? = some (if q < r + 1 then Live.result reason (lives q) else constant? (lives q)) := by
  rw [stopping.values q steady]
  congr 1
  by_cases below : q < r
  · rw [if_pos below, if_pos (by omega)]
  · rw [if_neg below, if_neg (by omega)]

private theorem Stopping.outside (circuit : Circuit p lives good) {reason : EndReason} {r : Nat} {before after : Turn Instance φ}
    (stopping : Stopping p lives good reason r before.record) (outside : ¬good r) (spares : Spares good before after) :
    Stopping p lives good reason (r + 1) after.record where
  held q node s held later found shown := by
    rw [spares.instances q held, stopping.held q node s held (by omega) found shown]
    congr 3
    exact List.map_congr_left fun arg member => (told_succ (circuit.not_reading outside held found member)).symm
  idle q value held shown := by
    rw [spares.instances q held]
    exact stopping.idle q value held shown
  values q steady := by
    exact (spares.values q steady.1).trans (stopping.values_succ steady fun same => outside (same ▸ steady.1))

private theorem Stopping.silent {reason : EndReason} {r : Nat} {before after : Turn Instance φ}
    (stopping : Stopping p lives good reason r before.record) (none : (Live.close reason (lives r)).value? = none)
    (others : ∀ q, q ≠ r → after.record.instances[q]? = before.record.instances[q]?)
    (kept : ∀ q, q ≠ r → after.record.values[q]? = before.record.values[q]?)
    (idle : ∀ value, lives r = .constant value → ∀ s, after.record.instances[r]? ≠ some (some s))
    (result : Steady lives good r → after.record.values[r]? = some (Live.result reason (lives r))) :
    Stopping p lives good reason (r + 1) after.record where
  held q node s held later found shown := by
    rw [others q (by omega), stopping.held q node s held (by omega) found shown]
    refine congrArg (some ∘ some) (Instance.gather_congr ?_ 0 s)
    rw [List.map_map, List.map_map]
    refine List.map_congr_left fun arg _ => ?_
    by_cases here : arg = .register r
    · rw [here, Function.comp, Function.comp, told, told, if_pos (Nat.lt_succ_self r), if_neg (Nat.lt_irrefl r), none]
      rfl
    · exact congrArg Emission.value? (told_succ here).symm
  idle q value held shown := by
    by_cases here : q = r
    · subst here
      exact idle value shown
    · rw [others q here]
      exact stopping.idle q value held shown
  values q steady := by
    by_cases here : q = r
    · subst here
      rw [if_pos (Nat.lt_succ_self q)]
      exact result steady
    · exact (kept q here).trans (stopping.values_succ steady here)

private theorem getElem?_setValue {t : Turn Instance φ} {r : Nat} {old : Option Value}
    (held : t.record.values[r]? = some old) (v : Option Value) : (t.setValue r v).record.values[r]? = some v :=
  List.getElem?_set_self (List.getElem?_eq_some_iff.mp held).1

private theorem Stopping.telling {reason : EndReason} {r : Nat} {before : Turn Instance φ} {node : Node Instance}
    (stopping : Stopping p lives good reason r before.record) (after : Turn Instance φ) (found : p.nodes[r]? = some node)
    (varies : node.constant = none) (others : ∀ q, q ≠ r → after.record.instances[q]? = before.record.instances[q]?) :
    Telling p lives good reason r (p.dependents r) after.record.instances := by
  intro q reader s held later found' shown
  rw [others q (by omega), stopping.held q reader s held (by omega) found' shown]
  split
  next => rfl
  next outside =>
    congr 3
    refine List.map_congr_left fun arg member => (told_succ ?_).symm
    rintro rfl
    exact outside (mem_dependents_of_reads found varies found' member)

private theorem Stopping.told (circuit : Circuit m.program lives good) {reason : EndReason} (time : Int64) {r : Nat}
    {t t₁ : Turn Instance φ} {node : Node Instance} {s : Instance} {args : List Live}
    (stopping : Stopping m.program lives good reason r t.record) (held : good r) (found : m.program.nodes[r]? = some node)
    (varies : node.constant = none) (shown : lives r = .call (some s) args)
    (others : ∀ q, q ≠ r → t₁.record.instances[q]? = t.record.instances[q]?)
    (values : ∀ q : Nat, t₁.record.values[q]? = t.record.values[q]?) (calm : Calm t₁.record) {v : Value}
    (given : Live.close reason (lives r) = .value (some v)) :
    Stopping m.program lives good reason (r + 1)
        (m.propagate (m.dispatch time none) none r t₁ (.value (some v))).record ∧
      Keeps (fun _ => False) t₁ (m.propagate (m.dispatch time none) none r t₁ (.value (some v))) := by
  have placed : Keeps (fun _ => False) t₁ (t₁.setValue r (some v)) :=
    Keeps.setValue (.refl calm) (fun never => never) (some v)
  obtain ⟨told', keeps, kept⟩ := tell circuit time given ((m.program.dependents_ascending r).imp Nat.ne_of_lt)
    (fun _ member => member) (stopping.telling (t₁.setValue r (some v)) found varies others) placed.calm
  refine ⟨⟨?_, ?_, ?_⟩, placed.trans (keeps.mono fun _ => False.elim)⟩
  · intro q reader s' held' later found' shown'
    exact (told' q reader s' held' (by omega) found' shown').trans (by rw [if_neg List.not_mem_nil])
  · intro q value held' shown' s'
    have here : q ≠ r := by
      rintro rfl
      cases shown.symm.trans shown'
    have before : _ = t.record.instances[q]? := (kept q held' (circuit.unread held' shown')).trans (others q here)
    exact fun holds => stopping.idle q value held' shown' s' (before.symm.trans holds)
  · intro q steady
    refine (keeps.values q steady.1).trans ?_
    by_cases here : q = r
    · subst here
      have waiting : t₁.record.values[q]? = some none := by
        rw [values, stopping.values q steady, if_neg (Nat.lt_irrefl q), shown]
        rfl
      have result : Live.result reason (lives q) = some v := by
        rw [shown, Live.result_call, ← shown, given]
        rfl
      rw [if_pos (Nat.lt_succ_self q), result]
      exact getElem?_setValue waiting (some v)
    · exact ((List.getElem?_set_ne (Ne.symm here)).trans (values q)).trans (stopping.values_succ steady here)

private theorem stopOne_next (circuit : Circuit m.program lives good) {reason : EndReason} (time : Int64) {r : Nat}
    {t : Turn Instance φ} (stopping : Stopping m.program lives good reason r t.record) (calm : Calm t.record) :
    Stopping m.program lives good reason (r + 1) (m.stopOne reason time t r).record ∧
      Keeps (fun _ => False) t (m.stopOne reason time t r) := by
  obtain ⟨keeps, others⟩ := m.call_keeps (fun _ => True) time r (.stop reason) (Feature.stop reason) calm
    (fun c s _ => s.signals_stop reason) (fun c s => s.role?_stop reason)
  have unheld {t' : Turn Instance φ} (keeps : Keeps (fun _ => True) t t') : Keeps (fun _ => False) t t' :=
    keeps.mono fun _ => False.elim
  by_cases held : good r
  · cases circuit.placed r held with
    | constant found known args shown =>
      have same : m.stopOne reason time t r = t := by
        rw [Meter.stopOne, Meter.call_idle (stopping.idle r _ held shown)]
        rfl
      rw [same]
      refine ⟨stopping.silent (by rw [shown]; rfl) (fun _ _ => rfl) (fun _ _ => rfl)
        (fun value shown' => stopping.idle r value held shown') fun steady => ?_, .refl calm⟩
      rw [stopping.values r steady, if_neg (Nat.lt_irrefl r), shown]
      rfl
    | call found varies shown wiring closed free plain =>
      rename_i node s
      have current := stopping.held r node s held (Nat.le_refl r) found shown
      have emits : (m.call time r (.stop reason) (Feature.stop reason) t).2 = Live.close reason (lives r) := by
        rw [m.call_eq current, shown, Live.close_call, ← told_arguments (circuit.ordered r node found)]
        rfl
      have result : Live.result reason (lives r) = (Live.close reason (lives r)).value? := by
        rw [shown, Live.result_call]
      have waiting (steady : Steady lives good r) : t.record.values[r]? = some none := by
        rw [stopping.values r steady, if_neg (Nat.lt_irrefl r), shown]
        rfl
      have varied (value : Value) (shown' : lives r = .constant value) : False := by
        rw [shown] at shown'
        cases shown'
      rw [Meter.stopOne]
      generalize called : m.call time r (.stop reason) (Feature.stop reason) t = reply at keeps others emits ⊢
      obtain ⟨t₁, e⟩ := reply
      dsimp only at keeps others emits ⊢
      have values (q : Nat) : t₁.record.values[q]? = t.record.values[q]? := keeps.values q trivial
      -- Without a value nobody is told anything.
      have quiet (none : e.value? = none) (unheard : m.propagate (m.dispatch time Option.none) Option.none r t₁ e = t₁) :
          Stopping m.program lives good reason (r + 1)
              (m.propagate (m.dispatch time Option.none) Option.none r t₁ e).record ∧
            Keeps (fun _ => False) t (m.propagate (m.dispatch time Option.none) Option.none r t₁ e) := by
        rw [unheard]
        refine ⟨stopping.silent (emits ▸ none) others (fun q _ => values q)
          (fun value shown' => (varied value shown').elim) fun steady => ?_, unheld keeps⟩
        rw [values, waiting steady, result, ← emits, none]
      cases e with
      | nothing => exact quiet rfl rfl
      | forward => exact quiet rfl rfl
      | value v =>
        cases v with
        | none =>
          refine ⟨stopping.silent (emits ▸ rfl) others (fun q other => ?_)
            (fun value shown' => (varied value shown').elim) fun steady => ?_,
            (unheld keeps).setValue (fun never => never) none⟩
          · rw [← values q]
            exact List.getElem?_set_ne (Ne.symm other)
          · refine (getElem?_setValue ((values r).trans (waiting steady)) none).trans ?_
            rw [result, ← emits]
            rfl
        | some v =>
          obtain ⟨stopping', keeps'⟩ := stopping.told circuit time held found varies shown others values keeps.calm emits.symm
          exact ⟨stopping', (unheld keeps).trans keeps'⟩
  · have called : Spares good t (m.call time r (.stop reason) (Feature.stop reason) t).1 :=
      ⟨keeps.mono fun _ _ => trivial, fun q held' => others q fun same => held (same ▸ held')⟩
    have spares : Spares good t (m.stopOne reason time t r) := by
      rw [Meter.stopOne]
      exact called.trans (propagate_outside circuit (m.dispatch time none)
        (fun d input t outside calm => deliver_outside circuit time none outside calm) held called.calm _)
    exact ⟨stopping.outside circuit held spares, spares.toKeeps.mono fun _ => False.elim⟩

private theorem Running.stopping (circuit : Circuit m.program lives good) {r : Record Instance φ}
    (running : Running m lives good r) (reason : EndReason) : Stopping m.program lives good reason 0 r where
  held q node s held _ found shown := by
    have untold : s.gather 0 (node.args.map (told reason lives 0)) = s := by
      have nothing : node.args.map (told reason lives 0) = node.args.map fun _ => .nothing :=
        List.map_congr_left fun arg _ => by cases arg <;> rfl
      rw [nothing]
      generalize node.args = args
      have gathers (position : Nat) : s.gather position (args.map fun _ => .nothing) = s := by
        induction args generalizing position with
        | nil => rfl
        | cons arg args ih => exact ih (position + 1)
      exact gathers 0
    rw [untold]
    exact running.rests q node s held found shown
  idle q value held shown s stored := by
    obtain ⟨node, found, built⟩ := Meter.mem_built.mp (running.fits.mem_built.mpr ⟨s, stored⟩)
    cases circuit.placed q held with
    | constant found' known args shown' idle =>
      obtain rfl := Option.some.inj (found.symm.trans found')
      rw [idle] at built
      cases built
    | call found' varies shown' wiring closed free plain =>
      rw [shown'] at shown
      cases shown
  values q steady := by rw [running.values q steady, if_neg (Nat.not_lt_zero q)]

private theorem stopSweep_next (circuit : Circuit m.program lives good) {reason : EndReason} (time : Int64) (count r : Nat)
    {t : Turn Instance φ} (stopping : Stopping m.program lives good reason r t.record) (calm : Calm t.record) :
    Stopping m.program lives good reason (r + count) ((List.range' r count).foldl (m.stopOne reason time) t).record ∧
      Keeps (fun _ => False) t ((List.range' r count).foldl (m.stopOne reason time) t) := by
  induction count generalizing r t with
  | zero => exact ⟨stopping, .refl calm⟩
  | succ count ih =>
    obtain ⟨next, keeps⟩ := stopOne_next circuit time stopping calm
    obtain ⟨last, keeps'⟩ := ih (r + 1) next keeps.calm
    rw [List.range'_succ, List.foldl_cons]
    refine ⟨?_, keeps.trans keeps'⟩
    rwa [Nat.add_assoc, Nat.add_comm 1] at last

/-- A row with the results of the trees where exports are steady registers of a circuit. -/
structure Reports (p : Program Instance φ) (lives : Nat → Live) (good : Nat → Prop) (reason : EndReason) (row : Row) :
    Prop where
  count : row.values.length = p.exports.length
  results : ∀ i e : Nat, p.exports[i]? = some e → Steady lives good e →
    row.values[i]? = some (Live.result reason (lives e))

private theorem finish_reports (circuit : Circuit m.program lives good) {reason : EndReason} {time : Int64} {t : Turn Instance φ}
    (running : Running m lives good t.record) (row : Row) (member : row ∈ (m.finish reason time t).journal.rows) :
    row ∈ t.journal.rows ∨ Reports m.program lives good reason row := by
  obtain ⟨stopped, keeps⟩ := stopSweep_next circuit time m.program.size 0
    (t := t.log (.finish reason time)) (running.stopping circuit reason) running.calm
  rw [← List.range_eq_range', Nat.zero_add] at stopped
  rw [← List.range_eq_range'] at keeps
  have quiet : (t.log (.finish reason time)).journal.rows = t.journal.rows := by
    rw [Turn.log, Journal.rows_append]
    exact List.append_nil _
  generalize swept : (List.range m.program.size).foldl (m.stopOne reason time) (t.log (.finish reason time)) = t' at stopped keeps
  have exported : row ∈ (m.exportRow reason time t').journal.rows := by
    rw [← swept]
    exact member
  have before : t'.journal.rows = t.journal.rows := keeps.rows.trans quiet
  rcases Meter.exportRow_rows exported with old | found
  · exact .inl (before ▸ old)
  · refine .inr ?_
    rw [Meter.row?] at found
    obtain ⟨template, -, rfl⟩ := Option.map_eq_some_iff.mp found
    refine ⟨List.length_map _, fun i e held steady => ?_⟩
    have inside : e < m.program.size := by
      obtain ⟨node, found⟩ := circuit.node steady.1
      exact (List.getElem?_eq_some_iff.mp found).1
    change (m.program.exports.map fun e => (t'.record.values[e]?).join)[i]? = _
    rw [List.getElem?_map, held, Option.map_some, stopped.values e steady, if_pos inside, Option.join_some]

theorem rows_stopFilters [Filter φ] (filters : List φ) (i : Nat) : Journal.rows (Meter.stopFilters i filters).2 = [] := by
  induction filters generalizing i with
  | nil => rfl
  | cons filter filters ih => exact ih (i + 1)

private theorem stop_reports [Filter φ] (circuit : Circuit m.program lives good) {reason : EndReason} {now : Int64}
    {r : Record Instance φ} (running : Running m lives good r) (row : Row)
    (member : row ∈ (m.stop r reason now).2.rows) : Reports m.program lives good reason row := by
  have finished : ∀ row ∈ (m.finish reason now (.ofRecord r)).journal.rows, Reports m.program lives good reason row :=
    fun row member => (finish_reports circuit (t := .ofRecord r) running row member).resolve_left List.not_mem_nil
  rw [Meter.stop, running.alive, running.active] at member
  simp only [Bool.not_true, Bool.false_eq_true, if_false, if_true, Journal.rows_append] at member
  rcases List.mem_append.mp member with member | member
  · exact finished row member
  · split at member
    · rw [rows_stopFilters] at member
      cases member
    · cases member

/-- What a record hands out for some packets and a stop are the results of the trees that the packets have been pulled
through. -/
theorem performAll_reports [Filter φ] (circuit : Circuit m.program lives good) (built : Built m.program lives good)
    (uncontrolled : m.program.controls = []) (unfiltered : m.program.filters = []) (calm : Calm m.make)
    (packets : List Packet) {reason : EndReason} {now : Int64} (row : Row)
    (member : row ∈ (m.performAll m.make (packets.map .event ++ [.stop reason now])).2.rows) :
    Reports m.program (Live.afters packets lives) good reason row := by
  cases packets with
  | nil =>
    have idle : (m.performAll m.make [.stop reason now]).2.rows = [] := by
      rw [Meter.performAll, Meter.performAll, Journal.rows_append]
      change Journal.rows (m.stop m.make reason now).2 ++ [] = []
      rw [Meter.stop, Meter.make]
      simp only [Bool.not_true, Bool.false_eq_true, if_false, List.append_nil]
      rfl
    rw [List.map_nil, List.nil_append, idle] at member
    cases member
  | cons packet packets =>
    obtain ⟨r, running, same⟩ := events_make circuit built uncontrolled unfiltered calm packet packets [.stop reason now]
    rw [same, Meter.performAll, Meter.performAll, Journal.rows_append] at member
    exact stop_reports (circuit.after _) running row ((List.mem_append.mp member).resolve_right List.not_mem_nil)

end FlowMetering.Library
