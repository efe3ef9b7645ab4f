import FlowMetering.Proofs.RegisterInvariants
import FlowMetering.Proofs.TypedRegisters
import Mathlib.Data.Set.List

/-! Instances at work. The instance of a register is one of its entry, and what it holds and emits is of the types that
the register and its arguments have. -/

namespace FlowMetering.Library

variable {p : Program Instance PacketFilter} {r : Nat} {entry : Entry Instance}

/-- The slots of an operator hold values of its arguments, each at the position of the argument. -/
structure Slotted (p : Program Instance PacketFilter) (args : List Argument) (slots : List (Option Value))
    (constant : List Bool) : Prop where
  marks : constant.length = slots.length
  full : slots = [] ∨ slots.length = args.length
  each : ∀ (i : Nat) v, slots[i]? = some (some v) → ∃ q, args[i]? = some (.register q) ∧ p.Admits q v

/-- The states that an instance of a register has, and what has to be said of the output of its entry for them. -/
inductive Serves (p : Program Instance PacketFilter) (r : Nat) (entry : Entry Instance) : Instance → Prop
  | packetField {field : PacketField} (own : ∀ p v, field.extract p = some v → entry.output.Admits v) :
    Serves p r entry (.packetField field)
  | packetAddress {endpoint : Endpoint} {variant : Nat} (same : entry = packetAddressEntry endpoint) (below : variant < 2) :
    Serves p r entry (.packetAddress endpoint variant)
  | octetCount (total : UInt64) (own : ∀ n, entry.output.Admits (.unsigned n)) : Serves p r entry (.octetCount total)
  | packetCount (count : UInt64) (own : ∀ n, entry.output.Admits (.unsigned n)) : Serves p r entry (.packetCount count)
  | flowTime {timing : Timing} (first : Option Int64) (last : Int64)
    (own : ∀ first last v, timing.value first last = some v → entry.output.Admits v) :
    Serves p r entry (.flowTime timing first last)
  | endReason (own : ∀ reason : EndReason, entry.output.Admits (.unsigned reason.code.toUInt64)) :
    Serves p r entry .endReason
  | firstAddress {endpoint : Endpoint} (first : Option Address) (same : entry = flowAddressEntry endpoint) :
    Serves p r entry (.firstAddress endpoint first)
  | firstProtocol (first : Option UInt8) (own : ∀ n : UInt8, entry.output.Admits (.unsigned n.toUInt64)) :
    Serves p r entry (.firstProtocol first)
  | running {rule : Aggregate} {current : Option Value}
    (same : entry = aggregateEntry rule.name (.resolved rule.resolve) (.running rule none))
    (kept : ∀ v, current = some v → p.Admits r v) : Serves p r entry (.running rule current)
  | mean (sum : Float) (count : UInt64) (output : entry.output = .resolved meanType) : Serves p r entry (.mean sum count)
  | valueCount (count : UInt64) (own : ∀ n, entry.output.Admits (.unsigned n)) : Serves p r entry (.valueCount count)
  | operator {op : Operator} (kind : Kind) {slots : List (Option Value)} {constant : List Bool}
    (same : entry = operatorEntry op) (slotted : Slotted p (p.args r) slots constant) :
    Serves p r entry (.operator op kind slots constant)
  | direction (forward : Bool) : Serves p r entry (.direction forward)
  | predicate (constant current : Option Bool) : Serves p r entry (.predicate constant current)
  | slice (start : Nat) (stop : Option Nat) (index : Nat) : Serves p r entry (.slice start stop index)
  | tcpEnd (finForward finBackward : Bool) : Serves p r entry (.tcpEnd finForward finBackward)

section Slots

variable {args : List Argument} {slots : List (Option Value)} {constant : List Bool}

private theorem Slotted.empty (p : Program Instance PacketFilter) (args : List Argument) : Slotted p args [] [] :=
  ⟨rfl, .inl rfl, nofun⟩

theorem length_fill (slots : List (Option Value)) (positions : List Nat) (v : Value) :
    (fill slots positions v).length = slots.length := by
  rw [fill]
  induction positions generalizing slots with
  | nil => rfl
  | cons i positions ih => rw [List.foldl_cons, ih, List.length_set]

private theorem fill_cases {positions : List Nat} {v w : Value} {i : Nat}
    (found : (fill slots positions v)[i]? = some (some w)) : slots[i]? = some (some w) ∨ i ∈ positions ∧ w = v := by
  rw [fill] at found
  induction positions generalizing slots with
  | nil => exact .inl found
  | cons j positions ih =>
    rcases ih found with held | ⟨member, same⟩
    · rw [List.getElem?_set] at held
      split at held
      next here =>
        split at held
        · cases held
          exact .inr ⟨here ▸ List.mem_cons_self, rfl⟩
        · cases held
      next => exact .inl held
    · exact .inr ⟨List.mem_cons_of_mem _ member, same⟩

private theorem Slotted.fill (slotted : Slotted p args slots constant) {c : Context} (same : c.args = args) {q : Nat} {v : Value}
    (given : p.Admits q v) : Slotted p args (fill slots (c.positions (.register q)) v) constant where
  marks := slotted.marks.trans (length_fill slots _ v).symm
  full := by
    refine slotted.full.imp (fun none => ?_) fun some => (length_fill slots _ v).trans some
    exact List.eq_nil_of_length_eq_zero (by rw [length_fill, none]; rfl)
  each i w found := by
    rcases fill_cases found with held | ⟨member, rfl⟩
    · exact slotted.each i w held
    · refine ⟨q, ?_, given⟩
      have fed := (List.mem_filter.mp member).2
      rw [same] at fed
      split at fed
      next fromFlow raw => cases fromFlow
      next source read =>
        cases source
        rw [read, beq_iff_eq.mp fed]
      next => cases fed

private theorem Slotted.clear (slotted : Slotted p args slots constant) : Slotted p args (clear slots constant) constant where
  marks := by rw [Library.clear, List.length_zipWith, slotted.marks, Nat.min_self]
  full := by
    refine slotted.full.imp (fun none => ?_) fun some => ?_
    · rw [none]
      rfl
    · rw [Library.clear, List.length_zipWith, slotted.marks, Nat.min_self, some]
  each i v found := by
    obtain ⟨slot, mark, held, -, kept⟩ := List.getElem?_zipWith_eq_some.mp found
    split at kept
    · exact slotted.each i v (kept ▸ held)
    · cases kept

private theorem Slotted.start {c : Context} (same : c.args = args)
    (values : ∀ (q : Nat) v, c.values[q]? = some (some v) → p.Admits q v) :
    Slotted p args ((List.range c.args.length).map c.argument)
      (((List.range c.args.length).map c.argument).map Option.isSome) where
  marks := List.length_map _
  full := .inr (by rw [List.length_map, List.length_range, same])
  each i v found := by
    rw [List.getElem?_map] at found
    obtain ⟨j, inside, held⟩ := Option.map_eq_some_iff.mp found
    obtain ⟨below, rfl⟩ := List.getElem?_eq_some_iff.mp inside
    rw [Context.argument, List.getElem_range, same] at held
    split at held
    next q read =>
      exact ⟨q, read, values q v (Option.join_eq_some_iff.mp held)⟩
    next => cases held

private theorem Slotted.result {op : Operator} {u : Value} (slotted : Slotted p (p.args r) slots constant)
    (emitted : (op.reaction slots).emission = .value (some u)) : p.AdmitsComputed r op.resolve u := by
  rw [Operator.reaction] at emitted
  split at emitted
  next complete =>
    have computed : op.evaluate slots = some u := Emission.value.inj emitted
    have full : slots ∈ Set.range (List.map some) := by
      rw [Set.range_list_map]
      intro slot member
      obtain ⟨v, same⟩ := Option.isSome_iff_exists.mp (List.all_eq_true.mp complete slot member)
      exact ⟨v, same.symm⟩
    obtain ⟨values, rfl⟩ := full
    have long : values.length = (p.args r).length := by
      rcases slotted.full with none | some
      · rw [none] at computed
        cases computed
      · rwa [List.length_map] at some
    have each : List.Forall₂ (fun arg v => ∃ q, arg = .register q ∧ p.Admits q v) (p.args r) values := by
      refine List.forall₂_iff_get.mpr ⟨long.symm, fun i inside inside' => ?_⟩
      obtain ⟨q, read, admits⟩ := slotted.each i values[i] (by simp [inside'])
      exact ⟨q, Option.some.inj ((List.getElem?_eq_getElem inside).symm.trans read), admits⟩
    intro choice covers alive element type resolved
    refine evaluate_admits resolved (Typed.fieldTypes_of_admits ?_ (List.forall_mem_map.mpr alive)) computed
    rw [List.forall₂_map_left_iff]
    refine each.imp ?_
    rintro arg v ⟨q, rfl, admits⟩
    exact admits choice covers
  next => cases emitted

end Slots

private theorem admits_endpoint (endpoint : Endpoint) (a : Address) : Output.Admits (.variants endpoint.elements) (.address a) := by
  cases endpoint <;> exact List.forall_mem_cons.mpr ⟨rfl, List.forall_mem_singleton.mpr rfl⟩

theorem family_lt_two (a : Address) : family a < 2 := by
  cases a with
  | v4 bits => exact Nat.zero_lt_two
  | v6 bits => exact Nat.one_lt_two

theorem forward_ne_value (inside : Prop) [Decidable inside] (v : Option Value) :
    (if inside then Reaction.forward else .silent).emission ≠ .value v := by
  split <;> exact nofun

private theorem admits_mean (x : Float) : p.AdmitsComputed r meanType (.float x) := by
  intro choice covers alive element type resolved
  obtain ⟨_, -, same⟩ := Option.map_eq_some_iff.mp resolved
  rw [← same]
  rfl

private theorem admits_step {rule : Aggregate} {current : Option Value} {q : Nat} {v w : Value} (single : p.args r = [.register q])
    (held : ∀ c, current = some c → p.Admits r c) (given : p.Admits q v) (kept : rule.step current v = some w) :
    p.AdmitsComputed r rule.resolve w := by
  intro choice covers alive element type resolved
  rw [single] at alive resolved
  have leaf := given choice covers
  cases own : (p.typeOf (.register q)).select choice with
  | untyped | variants source branches =>
    rw [own] at leaf
    cases leaf
  | dead => exact absurd own (alive _ (List.mem_singleton_self _))
  | fixed argument =>
    rw [own] at leaf
    rw [List.map_singleton, own] at resolved
    refine step_admits resolved (fun c stored => ?_) leaf kept
    have known := held c stored choice covers
    rwa [type] at known

section Calls

variable {s : Instance} {c : Context}

private theorem Serves.start (serves : Serves p r entry s) (same : c.args = p.args r)
    (values : ∀ (q : Nat) v, c.values[q]? = some (some v) → p.Admits q v) : Serves p r entry (s.start c) := by
  cases serves with
  | packetAddress own below => exact .packetAddress own Nat.zero_lt_two
  | running own kept => exact .running own nofun
  | operator kind own slotted => exact .operator kind own (.start same values)
  | _ => constructor <;> assumption

variable (represents : Represents p r entry) (serves : Serves p r entry s)
include represents serves

private theorem Serves.packet (packet : Packet) :
    Meter.Answers (fun r => Serves p r entry) p.Admits r (s.packet packet) := by
  cases serves with
  | packetField own => exact ⟨.packetField own, fun v emitted => represents.own v (own packet v (Emission.value.inj emitted))⟩
  | packetAddress own below =>
    rename_i endpoint variant
    refine ⟨.packetAddress own ?_, fun v emitted => ?_⟩
    · cases endpoint.address packet with
      | none => exact below
      | some a => exact family_lt_two a
    · obtain ⟨a, -, rfl⟩ := Option.map_eq_some_iff.mp (Emission.value.inj emitted)
      exact represents.own _ (own ▸ admits_endpoint endpoint a)
  | operator kind own slotted =>
    refine ⟨.operator kind own slotted, fun v emitted => ?_⟩
    dsimp only [Instance.packet] at emitted
    split at emitted
    · exact represents.computed _ (congrArg Entry.output own) v (slotted.result emitted)
    · cases emitted
  | direction forward => exact ⟨.direction forward, fun v emitted => absurd emitted (forward_ne_value _ v)⟩
  | predicate constant current => exact ⟨.predicate constant current, fun v emitted => absurd emitted (forward_ne_value _ v)⟩
  | slice start stop index => exact ⟨.slice start stop (index + 1), fun v emitted => absurd emitted (forward_ne_value _ v)⟩
  | tcpEnd finForward finBackward =>
    refine ⟨.tcpEnd _ _, fun v emitted => ?_⟩
    dsimp only [Instance.packet] at emitted
    split at emitted <;> cases emitted
  | running own kept => exact ⟨.running own kept, nofun⟩
  | _ => exact ⟨by constructor; assumption, nofun⟩

private theorem Serves.value (same : c.args = p.args r) {q : Nat} {v : Value} (reads : .register q ∈ p.args r)
    (given : p.Admits q v) :
    Meter.Answers (fun r => Serves p r entry) p.Admits r (s.value v (c.positions (.register q))) := by
  cases serves with
  | running own kept =>
    obtain ⟨q', single, -⟩ := represents.single (own ▸ rfl) (own ▸ rfl)
    rw [single] at reads
    cases List.mem_singleton.mp reads
    refine ⟨.running own fun w stepped => ?_, by rintro _ ⟨⟩⟩
    exact represents.computed _ (congrArg Entry.output own) w (admits_step single kept given stepped)
  | mean sum count output =>
    rw [Instance.value]
    split
    · exact ⟨.mean _ _ output, by rintro _ ⟨⟩⟩
    · exact ⟨.mean _ _ output, by rintro _ ⟨⟩⟩
  | operator kind own slotted =>
    have filled := slotted.fill same given
    refine ⟨.operator kind own filled, fun w emitted => ?_⟩
    dsimp only [Instance.value] at emitted
    split at emitted
    · exact represents.computed _ (congrArg Entry.output own) w (filled.result emitted)
    · cases emitted
  | packetAddress own below => exact ⟨.packetAddress own below, by rintro _ ⟨⟩⟩
  | _ => exact ⟨by constructor <;> assumption, by rintro _ ⟨⟩⟩

omit represents in
private theorem Serves.finishEvent : Serves p r entry s.finishEvent := by
  cases serves with
  | operator kind own slotted =>
    refine .operator kind own ?_
    split
    · exact slotted.clear
    · exact slotted
  | _ => constructor <;> assumption

private theorem Serves.stop (reason : EndReason) :
    Meter.Answers (fun r => Serves p r entry) p.Admits r (s.stop reason) := by
  cases serves with
  | octetCount total own =>
    refine ⟨.octetCount total own, ?_⟩
    rintro v ⟨⟩
    exact represents.own _ (own total)
  | packetCount count own =>
    refine ⟨.packetCount count own, ?_⟩
    rintro v ⟨⟩
    exact represents.own _ (own count)
  | valueCount count own =>
    refine ⟨.valueCount count own, ?_⟩
    rintro v ⟨⟩
    exact represents.own _ (own count)
  | endReason own =>
    refine ⟨.endReason own, ?_⟩
    rintro v ⟨⟩
    exact represents.own _ (own reason)
  | flowTime first last own =>
    exact ⟨.flowTime first last own, fun v emitted => represents.own v (own first last v (Emission.value.inj emitted))⟩
  | firstAddress first own =>
    rename_i endpoint
    refine ⟨.firstAddress first own, fun v emitted => ?_⟩
    obtain ⟨a, -, rfl⟩ := Option.map_eq_some_iff.mp (Emission.value.inj emitted)
    exact represents.own _ (own ▸ admits_endpoint endpoint a)
  | firstProtocol first own =>
    refine ⟨.firstProtocol first own, fun v emitted => ?_⟩
    obtain ⟨n, -, rfl⟩ := Option.map_eq_some_iff.mp (Emission.value.inj emitted)
    exact represents.own _ (own n)
  | running own kept => exact ⟨.running own nofun, fun v emitted => kept v (Emission.value.inj emitted)⟩
  | mean sum count output =>
    refine ⟨.mean sum count output, fun v emitted => ?_⟩
    have found := Emission.value.inj emitted
    split at found
    · cases found
    · cases found
      exact represents.computed _ output _ (admits_mean _)
  | operator kind own slotted =>
    refine ⟨.operator kind own slotted, fun v emitted => ?_⟩
    dsimp only [Instance.stop] at emitted
    split at emitted
    · cases emitted
    · exact represents.computed _ (congrArg Entry.output own) v (slotted.result emitted)
  | packetAddress own below => exact ⟨.packetAddress own below, nofun⟩
  | _ => exact ⟨by constructor <;> assumption, nofun⟩

end Calls

theorem extract_admits {field : PacketField} {packet : Packet} {v : Value} (found : field.extract packet = some v) :
    field.element.type.admits v = true := by
  cases field with
  | ipTotalLength | sourceTransportPort | destinationTransportPort | protocolIdentifier | tcpControlBits =>
    obtain ⟨n, -, rfl⟩ := Option.map_eq_some_iff.mp found
    exact decide_eq_true (by simpa using n.toNat_lt)
  | octetTotalCount =>
    obtain ⟨n, -, rfl⟩ := Option.map_eq_some_iff.mp found
    exact FieldType.admits_unsigned64 _
  | flowDirection =>
    cases found
    split <;> rfl

private theorem admits_time {timing : Timing} {first : Option Int64} {last : Int64} {v : Value} {type : FieldType}
    (suits : type = match timing with | .start | .end => .dateTimeNanoseconds | .duration => .unsigned64)
    (found : timing.value first last = some v) : type.admits v = true := by
  obtain ⟨begun, -, rfl⟩ := Option.map_eq_some_iff.mp found
  subst suits
  cases timing with
  | start | «end» => rfl
  | duration => exact FieldType.admits_unsigned64 _

/-- All instances of an entry begin in a state that goes with its output. -/
private def Begins (p : Program Instance PacketFilter) (r : Nat) (entry : Entry Instance) : Prop :=
  ∀ build, entry.build = some build → ∀ kind, Serves p r entry (build kind)

private theorem Begins.of {s : Instance} (serves : Serves p r entry s) (built : entry.build = some fun _ => s) :
    Begins p r entry := by
  intro build same kind
  cases built.symm.trans same
  exact serves

private theorem begins_operator (op : Operator) : Begins p r (operatorEntry op) := by
  intro build same kind
  cases same
  exact .operator kind rfl (.empty p _)

private theorem begins_entries : ∀ entry ∈ entries, Begins p r entry := by
  have packet (field : PacketField) : Begins p r (packetEntry field) :=
    .of (.packetField fun _ _ found => extract_admits found) rfl
  have address (endpoint : Endpoint) : Begins p r (packetAddressEntry endpoint) :=
    .of (.packetAddress rfl Nat.zero_lt_two) rfl
  have flowAddress (endpoint : Endpoint) : Begins p r (flowAddressEntry endpoint) :=
    .of (.firstAddress none rfl) rfl
  have running (rule : Aggregate) : Begins p r (aggregateEntry rule.name (.resolved rule.resolve) (.running rule none)) := by
    refine .of (s := .running rule none) (.running rfl ?_) rfl
    rintro _ ⟨⟩
  simp only [entries, List.forall_mem_append, List.forall_mem_map, List.forall_mem_cons]
  refine ⟨⟨⟨⟨?_, ?_⟩, ?_⟩, ?_⟩, ?_⟩
  · refine ⟨packet _, packet _, packet _, packet _, packet _, packet _, packet _, address _, address _, ?_⟩
    refine ⟨.of (.octetCount 0 FieldType.admits_unsigned64) rfl, .of (.packetCount 0 FieldType.admits_unsigned64) rfl, ?_⟩
    refine ⟨.of (.flowTime none 0 fun _ _ _ => admits_time rfl) rfl, ?_⟩
    refine ⟨.of (.flowTime none 0 fun _ _ _ => admits_time rfl) rfl, ?_⟩
    refine ⟨.of (.flowTime none 0 fun _ _ _ => admits_time rfl) rfl, .of (.endReason fun reason => ?_) rfl, ?_⟩
    · cases reason <;> rfl
    · exact ⟨flowAddress _, flowAddress _, .of (.firstProtocol none fun n => decide_eq_true (by simpa using n.toNat_lt)) rfl,
        List.forall_mem_nil _⟩
  · exact ⟨running _, running _, running _, running _, running _, List.forall_mem_nil _⟩
  · exact ⟨.of (.mean 0.0 0 rfl) rfl, .of (.valueCount 0 FieldType.admits_unsigned64) rfl, List.forall_mem_nil _⟩
  · exact ⟨begins_operator _, begins_operator _, begins_operator _, begins_operator _, begins_operator _, begins_operator _,
      begins_operator _, List.forall_mem_nil _⟩
  · refine ⟨.of (.direction true) rfl, .of (.direction false) rfl, .of (.predicate none none) rfl, ?_⟩
    refine ⟨.of (.slice 0 none 0) rfl, .of (.slice 0 none 0) rfl, ?_, ?_, .of (.tcpEnd false false) rfl,
      List.forall_mem_nil _⟩
    all_goals rintro _ ⟨⟩

/-- A register represents an entry, and its instance is one of this entry. -/
def Attended (p : Program Instance PacketFilter) (r : Nat) (s : Instance) : Prop :=
  ∃ entry, Represents p r entry ∧ Serves p r entry s

/-- The instances that make choices choose one of two. -/
theorem Serves.variant_lt_two {s : Instance} (serves : Serves p r entry s) : s.variant < 2 := by
  cases serves with
  | packetAddress own below => exact below
  | firstAddress first own =>
    cases first with
    | none => exact Nat.zero_lt_two
    | some a => exact family_lt_two a
  | _ => exact Nat.zero_lt_two

theorem variant_lt_two {record : Record Instance PacketFilter}
    (kept : ∀ (r : Nat) s, record.instances[r]? = some (some s) → Attended p r s) (r : Nat) :
    Meter.variant record r < 2 := by
  rw [Meter.variant]
  split
  next s held =>
    obtain ⟨entry, -, serves⟩ := kept r s held
    exact serves.variant_lt_two
  next => exact Nat.zero_lt_two

/-- Instances stay in order, and values are of the types of their registers. -/
theorem safe {limit : Nat} {s : Specification} (stages : Specification.Stages catalog limit s p)
    (layout : Layout catalog limit stages.typed stages.controls p) (exporters : List Exporter) :
    Meter.Safe ⟨p, exporters⟩ (fun _ => True) (Attended p) p.Admits where
  make r node build found built := by
    obtain ⟨chosen, entered, built⟩ := Option.bind_eq_some_iff.mp built
    obtain ⟨registered, represents⟩ := represents stages layout found entered
    exact ⟨chosen.entry, represents, begins_entries _ registered build built node.kind⟩
  constant r node v found known := by
    intro choice covers
    rw [Program.typeOf_register found]
    rcases layout.node_cases found with ⟨position, control, member, rfl⟩ | ⟨tree, part, -, made⟩
    · cases known
    · cases made with
      | constant plain type known' args entry key =>
        cases known.symm.trans known'
        rw [type]
        exact FieldType.admits_naturalType v
      | call plain type varies entry key each => cases known.symm.trans varies
  start c s sees held := by
    obtain ⟨entry, represents, serves⟩ := held
    exact ⟨⟨entry, represents, serves.start sees.args sees.values⟩, nofun⟩
  packet packet source c s _ sees held := by
    obtain ⟨entry, represents, serves⟩ := held
    have answered := serves.packet represents packet
    exact ⟨⟨entry, represents, answered.holds⟩, answered.gives⟩
  value v q c s reads given sees held := by
    obtain ⟨entry, represents, serves⟩ := held
    have answered := serves.value represents sees.args (Program.mem_args_of_dependent reads) given
    exact ⟨⟨entry, represents, answered.holds⟩, answered.gives⟩
  finishEvent r s held := by
    obtain ⟨entry, represents, serves⟩ := held
    exact ⟨entry, represents, serves.finishEvent⟩
  stop reason c s sees held := by
    obtain ⟨entry, represents, serves⟩ := held
    have answered := serves.stop represents reason
    exact ⟨⟨entry, represents, answered.holds⟩, answered.gives⟩

end FlowMetering.Library
