import FlowMetering.Proofs.Roles
import Mathlib.Data.List.ReduceOption

/-! What live trees do over a whole flow. A source answers each packet that its input hands on, an operator folds its
operation over the readings of its arguments, and what gathers packets or values has its result when the flow ends. -/

namespace FlowMetering.Library

/-- An instance that reads a field of every packet it is given. -/
inductive Reads : Instance → (Packet → Option Value) → Prop
  | field (field : PacketField) : Reads (.packetField field) field.extract
  | address (endpoint : Endpoint) (variant : Nat) :
    Reads (.packetAddress endpoint variant) fun p => (endpoint.address p).map .address

def Instance.absorb (s : Instance) (packets : List Packet) : Instance :=
  packets.foldl (fun s p => (s.packet p).1) s

def Instance.collect (s : Instance) (values : List Value) : Instance :=
  values.foldl (fun s v => (s.value v [0]).1) s

structure Sums (s : Instance) (gather : EndReason → List Packet → Option Value) : Prop where
  finish : ∀ packets, (s.absorb packets).finishEvent = s.absorb packets
  start : ∀ c, s.start c = s
  role : s.role? = some .flow
  stop : ∀ reason packets, ((s.absorb packets).stop reason).2.emission = .value (gather reason packets)

structure Collects (s : Instance) (gather : List Value → Option Value) : Prop where
  finish : ∀ values, (s.collect values).finishEvent = s.collect values
  start : ∀ c, s.start c = s
  role : s.role? = some .flow
  stop : ∀ reason values, ((s.collect values).stop reason).2.emission = .value (gather values)

@[simp] theorem awake_call {binding : Binding Instance} {s : Instance} (built : instance? binding = some s)
    (args : List Plain) :
    awake (.call binding args) = .call (some (s.startOn (args.map constant?))) (args.map awake) := by
  rw [awake, built, awakeAll_eq_map, Option.map_some]

theorem constant_of_constant? {ι : Type} {tree : Tree Unit ι} {value : Value} (known : constant? tree = some value) :
    tree = .constant value := by
  cases tree with
  | constant value' =>
    cases known
    rfl
  | raw mark | call head args => cases known

theorem constant?_awake (tree : Plain) : constant? (awake tree) = constant? tree := by
  cases tree <;> rfl

theorem Reads.role {s : Instance} {read : Packet → Option Value} (reads : Reads s read) : s.role? = some .packet := by
  cases reads <;> rfl

/-- What stands in the slots of an operator after its arguments have emitted. -/
def filled (es : List Emission) (slots : List (Option Value)) : List (Option Value) :=
  List.zipWith (fun e slot => e.value?.or slot) es slots

private theorem filled_silent {es : List Emission} {slots : List (Option Value)} (count : es.length = slots.length)
    (silent : ¬es.any (·.value?.isSome) = true) : filled es slots = slots := by
  induction es generalizing slots with
  | nil => exact (List.length_eq_zero_iff.mp count.symm).symm
  | cons e es ih =>
    cases slots with
    | nil => cases count
    | cons slot slots =>
      rw [List.any_cons, Bool.or_eq_true, not_or] at silent
      have none : e.value? = none := Option.not_isSome_iff_eq_none.mp silent.1
      rw [filled, List.zipWith_cons_cons, none, Option.none_or]
      exact List.cons_eq_cons.mpr ⟨rfl, ih (Nat.succ.inj count) silent.2⟩

private theorem fill_one (before after : List (Option Value)) (slot : Option Value) (v : Value) :
    fill (before ++ slot :: after) [before.length] v = before ++ some v :: after := by
  rw [fill, List.foldl_cons, List.foldl_nil, List.set_append_right _ _ (Nat.le_refl _), Nat.sub_self, List.set_cons_zero]

namespace Instance

theorem feed_operator (p : Packet) (op : Operator) (constant : List Bool) (es : List Emission)
    (before slots : List (Option Value)) (count : es.length = slots.length) (values : ∀ e ∈ es, e ≠ .forward)
    (answer : Emission) :
    feed p before.length es (.operator op .packetFeature (before ++ slots) constant, answer) =
      (.operator op .packetFeature (before ++ filled es slots) constant,
        if es.any (·.value?.isSome) = true then (op.reaction (before ++ filled es slots)).emission else answer) := by
  induction es generalizing before slots answer with
  | nil =>
    rw [List.length_eq_zero_iff.mp count.symm]
    rfl
  | cons e es ih =>
    cases slots with
    | nil => cases count
    | cons slot slots =>
      have rest := fun slot => ih (before ++ [slot]) slots (Nat.succ.inj count)
        (fun e member => values e (List.mem_cons_of_mem _ member))
      simp only [List.length_append, List.length_singleton, List.append_assoc, List.singleton_append] at rest
      rw [feed]
      cases e with
      | forward => exact absurd rfl (values .forward List.mem_cons_self)
      | nothing => exact rest slot answer
      | value v =>
        cases v with
        | none => exact rest slot answer
        | some v =>
          have given : take p before.length (.value (some v))
              (.operator op .packetFeature (before ++ slot :: slots) constant, answer) =
                (.operator op .packetFeature (before ++ some v :: slots) constant,
                  (op.reaction (before ++ some v :: slots)).emission) := by
            rw [take, value, fill_one, if_pos rfl]
          rw [given, rest (some v)]
          refine Prod.ext rfl ?_
          change (if _ then _ else _) = (op.reaction (before ++ some v :: filled es slots)).emission
          split
          next => rfl
          next silent => rw [filled_silent (Nat.succ.inj count) silent]

theorem gather_operator (op : Operator) (kind : Kind) (constant : List Bool) (es : List Emission)
    (before slots : List (Option Value)) (count : es.length = slots.length) :
    gather before.length es (.operator op kind (before ++ slots) constant) =
      .operator op kind (before ++ filled es slots) constant := by
  induction es generalizing before slots with
  | nil =>
    rw [List.length_eq_zero_iff.mp count.symm]
    rfl
  | cons e es ih =>
    cases slots with
    | nil => cases count
    | cons slot slots =>
      have rest := fun slot => ih (before ++ [slot]) slots (Nat.succ.inj count)
      simp only [List.length_append, List.length_singleton, List.append_assoc, List.singleton_append] at rest
      rw [gather]
      cases e with
      | forward => exact rest slot
      | nothing => exact rest slot
      | value v =>
        cases v with
        | none => exact rest slot
        | some v =>
          rw [receive, value, fill_one]
          exact rest (some v)

end Instance

/-- An operation has no result where a value is missing. -/
theorem Operator.evaluate_missing (op : Operator) {row : List (Option Value)} (missing : none ∈ row) :
    op.evaluate row = none := by
  have folded (result : Value) (rest : List (Option Value)) (missing : none ∈ rest) :
      rest.foldlM (fun result arg => do op.apply result (← arg)) result = none := by
    induction rest generalizing result with
    | nil => cases missing
    | cons arg rest ih =>
      rw [List.foldlM_cons]
      cases arg with
      | none => rfl
      | some v =>
        have later : none ∈ rest := (List.mem_cons.mp missing).resolve_left nofun
        cases applied : op.apply result v with
        | none => exact congrArg (Option.bind · _) applied
        | some next => exact (congrArg (Option.bind · _) applied).trans (ih next later)
  cases row with
  | nil => rfl
  | cons first rest =>
    cases first with
    | none => rfl
    | some v => exact folded v rest ((List.mem_cons.mp missing).resolve_left nofun)

/-- An operator that reacts does so with the result of its operation. -/
theorem Operator.reaction_value? (op : Operator) (row : List (Option Value)) :
    (op.reaction row).emission.value? = op.evaluate row := by
  rw [reaction]
  split
  next => rfl
  next missing =>
    rw [List.all_eq_true] at missing
    push Not at missing
    obtain ⟨slot, member, empty⟩ := missing
    obtain rfl : slot = none := Option.not_isSome_iff_eq_none.mp empty
    exact (op.evaluate_missing member).symm

namespace Live

private theorem emissions_cons (live : Live) (p : Packet) (packets : List Packet) :
    emissions live (p :: packets) = emission p live :: emissions (next p live) packets := rfl

private theorem stream_cons (live : Live) (p : Packet) (packets : List Packet) :
    stream live (p :: packets) =
      (if (emission p live).isForward then some p else none) :: stream (next p live) packets := rfl

theorem stream_raw (mark : Unit) (packets : List Packet) : stream (.raw mark) packets = packets.map some := by
  induction packets with
  | nil => rfl
  | cons p packets ih => exact List.cons_eq_cons.mpr ⟨rfl, ih⟩

private theorem emission_one (p : Packet) (s : Instance) (arg : Live) :
    emission p (.call (some s) [arg]) = (Instance.take p 0 (emission p arg) (s, .nothing)).2 := by
  rw [emission_call]
  rfl

private theorem next_one (p : Packet) (s : Instance) (arg : Live) :
    next p (.call (some s) [arg]) =
      .call (some (Instance.take p 0 (emission p arg) (s, .nothing)).1.finishEvent) [next p arg] := by
  rw [next_call]
  rfl

/-- A packet feature has a value for each packet that its input hands on. -/
theorem emissions_reads {s : Instance} {read : Packet → Option Value} (reads : Reads s read) {input : Live}
    (has : HasRole .selection input) (packets : List Packet) :
    (emissions (.call (some s) [input]) packets).map Emission.value? =
      (stream input packets).map fun packet => packet.bind read := by
  induction packets generalizing s input with
  | nil => rfl
  | cons p packets ih =>
    rw [emissions_cons, stream_cons, List.map_cons, List.map_cons, emission_one, next_one]
    rcases has.emission_selection p with nothing | forward
    · have finish : Reads s.finishEvent read := by cases reads <;> constructor
      rw [nothing, ← ih finish (has.next p)]
      rfl
    · have answer : (s.packet p).2.emission.value? = read p ∧ Reads (s.packet p).1.finishEvent read := by
        cases reads <;> exact ⟨rfl, by constructor⟩
      rw [forward, ← ih answer.2 (has.next p)]
      exact List.cons_eq_cons.mpr ⟨answer.1, rfl⟩

def after (live : Live) (packets : List Packet) : Live :=
  packets.foldl (fun live p => next p live) live

private theorem after_cons (live : Live) (p : Packet) (packets : List Packet) :
    after live (p :: packets) = after (next p live) packets := rfl

theorem HasRole.after {role : Role} {live : Live} (has : HasRole role live) (packets : List Packet) :
    HasRole role (after live packets) := by
  induction packets generalizing live with
  | nil => exact has
  | cons p packets ih => exact ih (has.next p)

private theorem after_sums {s : Instance} {gather : EndReason → List Packet → Option Value} (sums : Sums s gather) {input : Live}
    (has : HasRole .selection input) (packets before : List Packet) :
    after (.call (some (s.absorb before)) [input]) packets =
      .call (some (s.absorb (before ++ (stream input packets).reduceOption))) [after input packets] := by
  induction packets generalizing before input with
  | nil => rw [show (stream input []).reduceOption = [] from rfl, List.append_nil]; rfl
  | cons p packets ih =>
    rw [after_cons, after_cons, next_one, stream_cons]
    rcases has.emission_selection p with nothing | forward
    · rw [nothing, Instance.take, sums.finish, ih (has.next p)]
      rfl
    · have absorbed : ((s.absorb before).packet p).1 = s.absorb (before ++ [p]) := by
        rw [Instance.absorb, Instance.absorb, List.foldl_append]
        rfl
      rw [forward, Instance.take, absorbed, sums.finish, ih (has.next p), List.append_assoc]
      rfl

private theorem after_collects {s : Instance} {gather : List Value → Option Value} (collects : Collects s gather) {arg : Live}
    (has : HasRole .packet arg) (packets : List Packet) (before : List Value) :
    after (.call (some (s.collect before)) [arg]) packets =
      .call (some (s.collect (before ++ ((emissions arg packets).map Emission.value?).reduceOption)))
        [after arg packets] := by
  induction packets generalizing before arg with
  | nil => rw [show ((emissions arg []).map Emission.value?).reduceOption = [] from rfl, List.append_nil]; rfl
  | cons p packets ih =>
    rw [after_cons, after_cons, next_one, emissions_cons, List.map_cons]
    have values := has.emission_packet p
    cases emitted : emission p arg with
    | nothing =>
      rw [Instance.take, collects.finish, ih (has.next p)]
      rfl
    | forward => exact absurd emitted values
    | value v =>
      cases v with
      | none =>
        rw [Instance.take, collects.finish, ih (has.next p)]
        rfl
      | some v =>
        have collected : ((s.collect before).value v [0]).1 = s.collect (before ++ [v]) := by
          rw [Instance.collect, Instance.collect, List.foldl_append]
          rfl
        rw [Instance.take, collected, collects.finish, ih (has.next p), List.append_assoc]
        rfl

theorem result_sums {s : Instance} {gather : EndReason → List Packet → Option Value} (sums : Sums s gather) {input : Live}
    (has : HasRole .selection input) (packets : List Packet) (reason : EndReason) :
    result reason (after (.call (some s) [input]) packets) = gather reason (stream input packets).reduceOption := by
  have begun := after_sums sums has packets []
  rw [show s.absorb [] = s from rfl, List.nil_append] at begun
  have silent : close reason (after input packets) = .nothing := (has.after packets).close_silent nofun reason
  rw [begun, result_call, close_call, List.map_singleton, silent, Instance.gather, Instance.gather, Instance.receive,
    sums.stop]
  rfl

theorem result_collects {s : Instance} {gather : List Value → Option Value} (collects : Collects s gather) {arg : Live}
    (has : HasRole .packet arg) (packets : List Packet) (reason : EndReason) :
    result reason (after (.call (some s) [arg]) packets) =
      gather ((emissions arg packets).map Emission.value?).reduceOption := by
  have begun := after_collects collects has packets []
  rw [show s.collect [] = s from rfl, List.nil_append] at begun
  have silent : close reason (after arg packets) = .nothing := (has.after packets).close_silent nofun reason
  rw [begun, result_call, close_call, List.map_singleton, silent, Instance.gather, Instance.gather, Instance.receive,
    collects.stop]
  rfl

def readings (live : Live) (packets : List Packet) : List (Option Value) :=
  match constant? live with
  | some value => packets.map fun _ => some value
  | none => (emissions live packets).map Emission.value?

theorem stream_length (live : Live) (packets : List Packet) : (stream live packets).length = packets.length := by
  induction packets generalizing live with
  | nil => rfl
  | cons p packets ih => rw [stream_cons, List.length_cons, List.length_cons, ih]

private theorem readings_cons (live : Live) (p : Packet) (packets : List Packet) :
    readings live (p :: packets) =
      (constant? live).or (emission p live).value? :: readings (next p live) packets := by
  rw [readings, readings, constant?_next]
  cases constant? live <;> rfl

private theorem passed_if {passes holds : Prop} [Decidable passes] [Decidable holds] (same : passes ↔ holds) (p : Packet) :
    (if (if passes then Reaction.forward else Reaction.silent).emission.isForward = true then some p else none) =
      if holds then some p else none := by
  by_cases passing : passes
  · rw [if_pos passing, if_pos (same.mp passing)]
    rfl
  · rw [if_neg passing, if_neg fun held => passing (same.mpr held)]
    rfl

theorem stream_direction {forward : Bool} {input : Live} (inside : HasRole .selection input) (packets : List Packet) :
    stream (.call (some (.direction forward)) [input]) packets =
      (stream input packets).map fun packet => packet.filter fun p => p.forward = forward := by
  induction packets generalizing input with
  | nil => rfl
  | cons p packets ih =>
    rw [stream_cons, stream_cons, emission_one, next_one, List.map_cons]
    rcases inside.emission_selection p with nothing | passes
    · rw [nothing]
      exact List.cons_eq_cons.mpr ⟨rfl, ih (inside.next p)⟩
    · rw [passes]
      refine List.cons_eq_cons.mpr ⟨?_, ih (inside.next p)⟩
      change _ = Option.filter _ (some p)
      rw [Option.filter_some]
      exact passed_if decide_eq_true_iff.symm p

theorem stream_slice {constants : List Live} (known : ∀ arg ∈ constants, (constant? arg).isSome = true) {input : Live}
    (inside : HasRole .selection input) (start : Nat) (stop : Option Nat) (index : Nat) (packets : List Packet) :
    stream (.call (some (.slice start stop index)) (constants ++ [input])) packets =
      slice start stop index (stream input packets) := by
  induction packets generalizing input index with
  | nil => rfl
  | cons p packets ih =>
    have silent : ∀ e ∈ constants.map (emission p), e = .nothing :=
      List.forall_mem_map.mpr fun arg member => emission_constant p (known arg member)
    have same : constants.map (next p) = constants := by
      conv_rhs => rw [← List.map_id constants]
      exact List.map_congr_left fun arg member => next_constant p (known arg member)
    rw [stream_cons, stream_cons, emission_call, next_call, List.map_append, List.map_append, same,
      Instance.feed_append, Instance.feed_nothing p 0 silent, List.map_singleton, List.map_singleton, Instance.feed,
      Instance.feed]
    rcases inside.emission_selection p with nothing | passes
    · rw [nothing]
      exact List.cons_eq_cons.mpr ⟨rfl, ih (inside.next p) index⟩
    · rw [passes]
      refine List.cons_eq_cons.mpr ⟨?_, ih (inside.next p) (index + 1)⟩
      exact passed_if Iff.rfl p

/-- A predicate lets a packet through if what it reads there holds. -/
theorem stream_select {arg input : Live} (has : HasRole .packet arg) (inside : HasRole .selection input)
    (packets : List Packet) :
    stream (.call (some (.predicate ((constant? arg).map Value.isTruthy) none)) [arg, input]) packets =
      List.zipWith (fun packet reading => if reading.any Value.isTruthy then packet else none) (stream input packets)
        (readings arg packets) := by
  induction packets generalizing arg input with
  | nil => rfl
  | cons p packets ih =>
    have rest := ih (has.next p) (inside.next p)
    rw [constant?_next] at rest
    rw [stream_cons, stream_cons, readings_cons, List.zipWith_cons_cons, emission_call, next_call]
    have predicts : Instance.take p 0 (emission p arg) (.predicate ((constant? arg).map Value.isTruthy) none, .nothing) =
        (.predicate ((constant? arg).map Value.isTruthy) ((emission p arg).value?.map Value.isTruthy), .nothing) := by
      cases emitted : emission p arg with
      | nothing => rfl
      | forward => exact absurd emitted (has.emission_packet p)
      | value v => cases v <;> rfl
    have reads : ((emission p arg).value?.map Value.isTruthy).or ((constant? arg).map Value.isTruthy) = some true ↔
        ((constant? arg).or (emission p arg).value?).any Value.isTruthy = true := by
      cases known : constant? arg with
      | some value =>
        rw [emission_constant p (by rw [known]; rfl)]
        simp [Emission.value?]
      | none => cases (emission p arg).value? <;> simp
    rw [List.map_cons, List.map_singleton, List.map_cons, List.map_singleton, Instance.feed, Instance.feed,
      Instance.feed, predicts]
    rcases inside.emission_selection p with nothing | passes
    · rw [nothing]
      exact List.cons_eq_cons.mpr ⟨(ite_self _).symm, rest⟩
    · rw [passes]
      exact List.cons_eq_cons.mpr ⟨passed_if reads p, rest⟩

def slots (args : List Live) : List (Option Value) :=
  args.map constant?

private theorem filled_slots (p : Packet) (args : List Live) :
    filled (args.map (emission p)) (slots args) = args.map fun arg => (constant? arg).or (emission p arg).value? := by
  rw [filled, slots, List.zipWith_map, List.zipWith_self]
  refine List.map_congr_left fun arg _ => ?_
  cases known : constant? arg with
  | none => cases (emission p arg).value? <;> rfl
  | some value =>
    rw [emission_constant p (by rw [known]; rfl)]
    rfl

/-- An operator on packet features folds its operation over what its arguments have at each packet, and is then as it
was before. -/
theorem operator_packet (op : Operator) (args : List Live) (has : ∀ arg ∈ args, HasRole .packet arg)
    (varies : ∃ arg ∈ args, constant? arg = none) (p : Packet) :
    (emission p (.call (some (.operator op .packetFeature (slots args) ((slots args).map Option.isSome))) args)).value? =
        op.evaluate (args.map fun arg => (constant? arg).or (emission p arg).value?) ∧
      next p (.call (some (.operator op .packetFeature (slots args) ((slots args).map Option.isSome))) args) =
        .call (some (.operator op .packetFeature (slots args) ((slots args).map Option.isSome))) (args.map (next p)) := by
  have fed := Instance.feed_operator p op ((slots args).map Option.isSome) (args.map (emission p)) [] (slots args)
    (by rw [slots, List.length_map, List.length_map])
    (List.forall_mem_map.mpr fun arg member => (has arg member).emission_packet p) .nothing
  rw [List.nil_append, List.nil_append, List.length_nil, filled_slots] at fed
  rw [emission_call, next_call, fed]
  constructor
  · dsimp only
    split
    next => exact op.reaction_value? _
    next silent =>
      obtain ⟨arg, member, unknown⟩ := varies
      refine (op.evaluate_missing (List.mem_map.mpr ⟨arg, member, ?_⟩)).symm
      rw [List.any_map, List.any_eq_true] at silent
      push Not at silent
      rw [unknown, Option.none_or]
      exact Option.not_isSome_iff_eq_none.mp (silent arg member)
  · have kept (known got : Option Value) : (if known.isSome = true then known.or got else none) = known := by
      cases known <;> rfl
    have cleared : clear (args.map fun arg => (constant? arg).or (emission p arg).value?) ((slots args).map Option.isSome) =
        slots args := by
      rw [clear, slots, List.map_map, List.zipWith_map, List.zipWith_self]
      exact List.map_congr_left fun arg _ => kept _ _
    rw [Instance.finishEvent, if_pos rfl, cleared]

theorem emissions_operator (op : Operator) {args : List Live} (has : ∀ arg ∈ args, HasRole .packet arg)
    (varies : ∃ arg ∈ args, constant? arg = none) (packets : List Packet) :
    (emissions (.call (some (.operator op .packetFeature (slots args) ((slots args).map Option.isSome))) args)
        packets).map Emission.value? =
      Meaning.operate op packets.length (args.map fun arg => readings arg packets) := by
  induction packets generalizing args with
  | nil => rfl
  | cons p packets ih =>
    obtain ⟨emitted, rest⟩ := operator_packet op args has varies p
    have same : slots (args.map (next p)) = slots args := by
      rw [slots, List.map_map]
      exact List.map_congr_left fun arg _ => constant?_next p arg
    have step := @ih (args.map (next p)) (List.forall_mem_map.mpr fun arg member => (has arg member).next p) (by
      obtain ⟨arg, member, unknown⟩ := varies
      exact ⟨_, List.mem_map_of_mem member, (constant?_next p arg).trans unknown⟩)
    rw [same, List.map_map] at step
    rw [emissions_cons, List.map_cons, emitted, rest, step, List.length_cons, Meaning.operate, List.map_map, List.map_map]
    simp only [Function.comp_def, readings_cons, List.head?_cons, List.tail_cons, Option.join_some]

private theorem result_eq (reason : EndReason) (live : Live) :
    result reason live = (close reason live).value?.or (constant? live) := by
  cases live with
  | raw mark => rfl
  | constant value => rfl
  | call head args => exact (Option.or_none).symm

/-- An operator on features of whole flows folds its operation over their results. -/
theorem result_operator (op : Operator) {args : List Live} (has : ∀ arg ∈ args, HasRole .flow arg)
    (packets : List Packet) (reason : EndReason) :
    result reason (after (.call (some (.operator op .flowFeature (slots args) ((slots args).map Option.isSome))) args)
        packets) =
      op.evaluate (args.map fun arg => result reason (after arg packets)) := by
  induction packets generalizing args with
  | nil =>
    have got := Instance.gather_operator op .flowFeature ((slots args).map Option.isSome) (args.map (close reason)) []
      (slots args) (by rw [slots, List.length_map, List.length_map])
    rw [List.nil_append, List.nil_append, List.length_nil] at got
    change (close reason (.call _ args)).value? = op.evaluate (args.map (result reason))
    rw [close_call, got, Instance.stop]
    change (op.reaction _).emission.value? = _
    rw [op.reaction_value?, filled, slots, List.zipWith_map, List.zipWith_self]
    congr 1
    exact List.map_congr_left fun arg _ => (result_eq reason arg).symm
  | cons p packets ih =>
    have silent : ∀ e ∈ args.map (emission p), e = .nothing :=
      List.forall_mem_map.mpr fun arg member => (has arg member).emission_flow p
    have same : slots (args.map (next p)) = slots args := by
      rw [slots, List.map_map]
      exact List.map_congr_left fun arg _ => constant?_next p arg
    have step := @ih (args.map (next p)) (List.forall_mem_map.mpr fun arg member => (has arg member).next p)
    rw [same, List.map_map] at step
    rw [after_cons, next_call, Instance.feed_nothing p 0 silent]
    exact step

end Live

theorem Reads.startOn {s : Instance} {read : Packet → Option Value} (reads : Reads s read)
    (constants : List (Option Value)) : Reads (s.startOn constants) read := by
  cases reads <;> constructor

namespace Live

theorem after_constant (value : Value) (packets : List Packet) : after (.constant value) packets = .constant value := by
  induction packets with
  | nil => rfl
  | cons p packets ih => exact ih

theorem values_constant (value : Value) (packets : List Packet) :
    (emissions (.constant value) packets).map Emission.value? = packets.map fun _ => none := by
  induction packets with
  | nil => rfl
  | cons p packets ih => exact List.cons_eq_cons.mpr ⟨rfl, ih⟩

end Live

theorem Live.HasRole.not_constant {live : Live} (has : HasRole .selection live) : constant? live = none := by
  cases live with
  | constant value => exact absurd rfl has
  | raw mark | call head args => rfl

theorem Instance.startOn_operator (op : Operator) (kind : Kind) (constants : List (Option Value)) :
    startOn constants (.operator op kind [] []) = .operator op kind constants (constants.map Option.isSome) := by
  have slots : (List.range ((List.range constants.length).map Argument.register).length).map
      (Context.argument ⟨0, (List.range constants.length).map .register, constants, 0, 0⟩) = constants := by
    apply List.ext_getElem?
    intro i
    rw [List.length_map, List.length_range, List.getElem?_map]
    by_cases inside : i < constants.length
    · rw [List.getElem?_range inside, Option.map_some, Context.argument]
      dsimp only
      rw [List.getElem?_map, List.getElem?_range inside, List.getElem?_eq_getElem inside]
      dsimp only [Option.map_some]
      rw [List.getElem?_eq_getElem inside]
      rfl
    · rw [List.getElem?_eq_none (by simpa using inside), List.getElem?_eq_none (by omega)]
      rfl
  rw [startOn, start]
  dsimp only
  rw [slots]

end FlowMetering.Library
