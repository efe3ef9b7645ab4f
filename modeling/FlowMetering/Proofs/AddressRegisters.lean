import FlowMetering.Proofs.ReportedTypes

/-! Addresses in registers. Nothing computes an address: registers for the addresses of packets emit the ones that they
are given, features of whole flows keep the first one, and aggregates keep some of those that they have read. -/

namespace FlowMetering.Library

section Operators

variable {op : Operator} {v w : Value} {a : Address}

private theorem arithmetic_ne_address {whole : Int → Int → Int} {float : Float → Float → Float} :
    arithmetic whole float v w ≠ some (.address a) := by
  intro computed
  unfold arithmetic at computed
  split at computed
  · obtain ⟨n, -, same⟩ := Option.map_eq_some_iff.mp computed
    cases same
  · split at computed
    · obtain ⟨n, -, same⟩ := Option.map_eq_some_iff.mp computed
      cases same
    · split at computed
      · split at computed <;> cases computed
      · cases computed

private theorem apply_ne_address : op.apply v w ≠ some (.address a) := by
  cases op with
  | add | subtract | multiply => exact arithmetic_ne_address
  | divide =>
    intro computed
    change quotient v w = some (.address a) at computed
    rw [quotient] at computed
    split at computed
    · split at computed
      · cases computed
      · split at computed <;> cases computed
    · cases computed
  | less | greater | equal =>
    intro computed
    obtain ⟨order, -, same⟩ := Option.map_eq_some_iff.mp computed
    cases same

private theorem foldlM_ne_address {args : List (Option Value)} (other : ∀ a, v ≠ .address a) :
    args.foldlM (fun result arg => do op.apply result (← arg)) v ≠ some (.address a) := by
  induction args generalizing v with
  | nil => exact fun same => other a (Option.some.inj same)
  | cons arg args ih =>
    intro computed
    rw [List.foldlM_cons] at computed
    obtain ⟨result, step, folded⟩ := Option.bind_eq_some_iff.mp computed
    obtain ⟨w, -, applied⟩ := Option.bind_eq_some_iff.mp step
    refine ih ?_ folded
    rintro a rfl
    exact apply_ne_address applied

private theorem reaction_ne_address {slots : List (Option Value)} (sized : slots = [] ∨ 2 ≤ slots.length) :
    (op.reaction slots).emission ≠ .value (some (.address a)) := by
  intro emitted
  rw [Operator.reaction] at emitted
  split at emitted
  · have computed : op.evaluate slots = some (.address a) := Emission.value.inj emitted
    rcases slots with _ | ⟨one, _ | ⟨other, rest⟩⟩
    · cases computed
    · exact absurd sized (by simp)
    · obtain ⟨v, -, rest⟩ := Option.bind_eq_some_iff.mp computed
      rw [List.foldlM_cons] at rest
      obtain ⟨result, step, folded⟩ := Option.bind_eq_some_iff.mp rest
      obtain ⟨w, -, applied⟩ := Option.bind_eq_some_iff.mp step
      refine foldlM_ne_address ?_ folded
      rintro a rfl
      exact apply_ne_address applied
  · cases emitted

/-- An aggregate that keeps an address has kept it before or has just been given it. -/
theorem step_address {rule : Aggregate} {current : Option Value} (kept : rule.step current v = some (.address a)) :
    current = some (.address a) ∨ v = .address a := by
  cases current with
  | none => exact .inr (Option.some.inj kept)
  | some c =>
    have updated : rule.update c v = .address a := Option.some.inj kept
    cases rule with
    | first => exact .inl (congrArg some updated)
    | last => exact .inr updated
    | min | max =>
      rw [Aggregate.update] at updated
      split at updated
      · exact .inr updated
      · exact .inl (congrArg some updated)
    | sum =>
      change (Operator.add.apply c v).getD c = .address a at updated
      cases applied : Operator.add.apply c v with
      | none =>
        rw [applied] at updated
        exact .inl (congrArg some updated)
      | some result =>
        rw [applied] at updated
        exact absurd (applied.trans (congrArg some updated)) apply_ne_address

end Operators

section Calls

variable {s : Instance} {rule : Aggregate} {current : Option Value} {a : Address}

theorem running_of_start {c : Context} (after : s.start c = .running rule current) : current = none := by
  cases s <;> cases after
  rfl

theorem running_of_packet {packet : Packet} (after : (s.packet packet).1 = .running rule current) :
    s = .running rule current := by
  cases s <;> cases after
  rfl

theorem running_of_value {v : Value} {positions : List Nat} (after : (s.value v positions).1 = .running rule current) :
    ∃ before, s = .running rule before ∧ rule.step before v = current := by
  cases s with
  | running rule before =>
    cases after
    exact ⟨before, rfl, rfl⟩
  | mean sum count =>
    rw [Instance.value] at after
    split at after <;> cases after
  | _ => cases after

theorem running_of_finishEvent (after : s.finishEvent = .running rule current) : s = .running rule current := by
  cases s <;> cases after
  rfl

theorem running_of_stop {reason : EndReason} (after : (s.stop reason).1 = .running rule current) :
    current = none ∧ ∃ before, s = .running rule before := by
  cases s <;> cases after
  exact ⟨rfl, _, rfl⟩

variable {p : Program Instance PacketFilter} {r : Nat} {entry : Entry Instance}
variable (represents : Represents p r entry) (serves : Serves p r entry s)
include represents serves

private theorem operator_sized {op : Operator} {kind : Kind} {slots : List (Option Value)} {constant : List Bool}
    (same : s = .operator op kind slots constant) : slots = [] ∨ 2 ≤ slots.length := by
  subst same
  cases serves with
  | operator kind same slotted =>
    refine slotted.full.imp_right fun full => ?_
    rw [full]
    exact represents.several _ same

/-- During a segment, only registers for the addresses of packets emit addresses, each that of the packet that it has. -/
theorem event_address {input : Input} {c : Context} (emitted : (s.event input c).2.emission = .value (some (.address a))) :
    ∃ endpoint variant packet source, s = .packetAddress endpoint variant ∧ input = .packet packet source ∧
      endpoint.address packet = some a := by
  have sized := @operator_sized s p r entry represents serves
  cases input with
  | packet packet source =>
    change (s.packet packet).2.emission = _ at emitted
    cases s with
    | packetAddress endpoint variant =>
      obtain ⟨a', found, same⟩ := Option.map_eq_some_iff.mp (Emission.value.inj emitted)
      cases same
      exact ⟨endpoint, variant, packet, source, rfl, rfl, found⟩
    | packetField field =>
      have found : field.extract packet = some (.address a) := Emission.value.inj emitted
      have admits := extract_admits found
      cases field <;> cases admits
    | operator op kind slots constant =>
      dsimp only [Instance.packet] at emitted
      split at emitted
      · exact absurd emitted (reaction_ne_address (sized rfl))
      · cases emitted
    | direction forward | predicate constant current | slice start stop index =>
      exact absurd emitted (forward_ne_value _ _)
    | tcpEnd finForward finBackward =>
      dsimp only [Instance.packet] at emitted
      split at emitted <;> cases emitted
    | _ => cases emitted
  | value v q =>
    change (s.value v _).2.emission = _ at emitted
    cases s with
    | operator op kind slots constant =>
      dsimp only [Instance.value] at emitted
      split at emitted
      · refine absurd emitted (reaction_ne_address ?_)
        rw [length_fill]
        refine (sized rfl).imp_left fun none => ?_
        exact List.eq_nil_of_length_eq_zero (by rw [length_fill, none]; rfl)
      · cases emitted
    | mean sum count =>
      rw [Instance.value] at emitted
      split at emitted <;> cases emitted
    | _ => cases emitted

/-- At the end of a segment, addresses are emitted by what has kept them. -/
theorem stop_address {reason : EndReason} (emitted : (s.stop reason).2.emission = .value (some (.address a))) :
    (∃ endpoint, s = .firstAddress endpoint (some a)) ∨ ∃ rule, s = .running rule (some (.address a)) := by
  have sized := @operator_sized s p r entry represents serves
  cases s with
  | firstAddress endpoint first =>
    obtain ⟨a', rfl, same⟩ := Option.map_eq_some_iff.mp (Emission.value.inj emitted)
    cases same
    exact .inl ⟨endpoint, rfl⟩
  | running rule current =>
    cases emitted
    exact .inr ⟨rule, rfl⟩
  | flowTime timing first last =>
    obtain ⟨begun, -, same⟩ := Option.map_eq_some_iff.mp (Emission.value.inj emitted)
    cases timing <;> cases same
  | firstProtocol first =>
    obtain ⟨n, -, same⟩ := Option.map_eq_some_iff.mp (Emission.value.inj emitted)
    cases same
  | mean sum count =>
    have found := Emission.value.inj emitted
    split at found <;> cases found
  | operator op kind slots constant =>
    dsimp only [Instance.stop] at emitted
    split at emitted
    · cases emitted
    · exact absurd emitted (reaction_ne_address (sized rfl))
  | _ => cases emitted

end Calls

section Registers

variable {p : Program Instance PacketFilter} {seen : Endpoint → Nat → Prop} {r q : Nat} {entry : Entry Instance}
variable {s : Instance} {rule : Aggregate} {current : Option Value} {a : Address}

def Familiar (seen : Endpoint → Nat → Prop) (packet : Packet) : Prop :=
  ∀ endpoint a, endpoint.address packet = some a → seen endpoint (family a)

/-- The register is one for addresses of packets, and the family of the address is one that has been seen there. -/
def Comes (p : Program Instance PacketFilter) (seen : Endpoint → Nat → Prop) (q : Nat) (a : Address) : Prop :=
  ∃ endpoint, p.EntryAt q (packetAddressEntry endpoint) ∧ seen endpoint (family a)

/-- An instance is in order, and the address that it keeps has come from the register that it reads. -/
structure Gathers (p : Program Instance PacketFilter) (seen : Endpoint → Nat → Prop) (r : Nat) (s : Instance) : Prop where
  attended : Attended p r s
  kept : ∀ rule a, s = .running rule (some (.address a)) → ∀ q, p.args r = [.register q] → Comes p seen q a

/-- A value is of the type of its register, and an address has come from packets or belongs to the whole flow. -/
structure Tells (p : Program Instance PacketFilter) (seen : Endpoint → Nat → Prop) (r : Nat) (v : Value) : Prop where
  admits : p.Admits r v
  source : ∀ a, v = .address a → Comes p seen r a ∨ ∃ entry, p.EntryAt r entry ∧ entry.result = .flowFeature

theorem Serves.entry_packetAddress {endpoint : Endpoint} {variant : Nat}
    (serves : Serves p r entry (.packetAddress endpoint variant)) : entry = packetAddressEntry endpoint := by
  cases serves with
  | packetAddress same below => exact same

theorem Serves.entry_firstAddress {endpoint : Endpoint} {first : Option Address}
    (serves : Serves p r entry (.firstAddress endpoint first)) : entry = flowAddressEntry endpoint := by
  cases serves with
  | firstAddress first same => exact same

theorem Serves.entry_running (serves : Serves p r entry (.running rule current)) :
    entry = aggregateEntry rule.name (.resolved rule.resolve) (.running rule none) := by
  cases serves with
  | running same kept => exact same

/-- What emits an address at the end of a segment is a feature of whole flows. -/
theorem result_of_stop_address (represents : Represents p r entry) (serves : Serves p r entry s) {reason : EndReason}
    (emitted : (s.stop reason).2.emission = .value (some (.address a))) : entry.result = .flowFeature := by
  rcases stop_address represents serves emitted with ⟨endpoint, rfl⟩ | ⟨rule, rfl⟩
  · rw [serves.entry_firstAddress]
    rfl
  · rw [serves.entry_running]
    rfl

/-- An aggregate reads one register, and an address from it has come from packets. -/
theorem Attended.fed (attended : Attended p r (.running rule current)) (reads : .register q ∈ p.args r) :
    p.args r = [.register q] ∧ ∀ other, p.EntryAt q other → other.result ≠ .flowFeature := by
  obtain ⟨entry, represents, serves⟩ := attended
  have same := serves.entry_running
  obtain ⟨q', single, fed⟩ := represents.single (same ▸ rfl) (same ▸ rfl)
  rw [single] at reads
  cases List.mem_singleton.mp reads
  refine ⟨single, fun other found flow => ?_⟩
  rcases fed other found with packet | taken
  · cases packet.symm.trans flow
  · cases taken.symm.trans flow

theorem Tells.comes {v : Value} (tells : Tells p seen q v) (attended : Attended p r (.running rule current))
    (reads : .register q ∈ p.args r) (same : v = .address a) : Comes p seen q a := by
  rcases tells.source a same with comes | ⟨other, found, flow⟩
  · exact comes
  · exact absurd flow ((attended.fed reads).2 other found)

variable {limit : Nat} {spec : Specification} (stages : Specification.Stages catalog limit spec p)
variable (layout : Layout catalog limit stages.typed stages.controls p)
include layout

theorem constant_ne_address {node : Node Instance} (found : p.nodes[r]? = some node) :
    node.constant ≠ some (.address a) := by
  intro known
  rcases layout.node_cases found with ⟨position, control, member, rfl⟩ | ⟨tree, part, -, made⟩
  · cases known
  · have well := layout.wellTyped part
    cases made with
    | constant plain type known' args entry key =>
      cases known.symm.trans known'
      cases well with
      | constant scalar => exact scalar.elim
    | call plain type varies entry key each => cases known.symm.trans varies

/-- Where addresses come from is kept to by every call. -/
theorem traced (exporters : List Exporter) (seen : Endpoint → Nat → Prop) :
    Meter.Safe ⟨p, exporters⟩ (Familiar seen) (Gathers p seen) (Tells p seen) where
  make r node build found built := by
    have attended := (safe stages layout exporters).make r node build found built
    refine ⟨attended, fun rule a same => ?_⟩
    obtain ⟨entry, represents, serves⟩ := attended
    obtain ⟨node', chosen, found', -, entered, rfl⟩ := represents.found
    cases found.symm.trans found'
    rw [Node.build?, entered, Option.bind_some] at built
    rw [same] at serves
    rw [serves.entry_running] at built
    cases built
    cases same
  constant r node v found known := by
    refine ⟨(safe stages layout exporters).constant r node v found known, fun a same => ?_⟩
    exact absurd (same ▸ known) (constant_ne_address stages layout found)
  start c s sees held := by
    have answered := (safe stages layout exporters).start c s (sees.mono fun _ _ => Tells.admits)
      held.attended
    refine ⟨⟨answered.holds, fun rule a after => ?_⟩, by rintro v ⟨⟩⟩
    cases running_of_start after
  packet packet source c s fine sees held := by
    have answered := (safe stages layout exporters).packet packet source c s trivial
      (sees.mono fun _ _ => Tells.admits) held.attended
    refine ⟨⟨answered.holds, fun rule a after => held.kept rule a (running_of_packet after)⟩, fun v emitted => ?_⟩
    refine ⟨answered.gives v emitted, fun a same => .inl ?_⟩
    subst same
    obtain ⟨entry, represents, serves⟩ := held.attended
    obtain ⟨endpoint, variant, packet', source', rfl, same, found⟩ := event_address represents serves emitted
    cases same
    exact ⟨endpoint, serves.entry_packetAddress ▸ represents.found, fine endpoint a found⟩
  value v q c s reads given sees held := by
    have answered := (safe stages layout exporters).value v q c s reads given.admits
      (sees.mono fun _ _ => Tells.admits) held.attended
    refine ⟨⟨answered.holds, fun rule a after q' single => ?_⟩, fun v' emitted => ?_⟩
    · obtain ⟨before, rfl, stepped⟩ := running_of_value after
      rcases step_address stepped with kept | new
      · exact held.kept rule a (congrArg _ kept) q' single
      · have inside := Program.mem_args_of_dependent reads
        have comes := given.comes held.attended inside new
        rw [(held.attended.fed inside).1] at single
        cases single
        exact comes
    · refine ⟨answered.gives v' emitted, fun a same => ?_⟩
      subst same
      obtain ⟨entry, represents, serves⟩ := held.attended
      obtain ⟨endpoint, variant, packet, source, -, same, -⟩ := event_address represents serves emitted
      cases same
  finishEvent r s held :=
    ⟨(safe stages layout exporters).finishEvent r s held.attended,
      fun rule a after => held.kept rule a (running_of_finishEvent after)⟩
  stop reason c s sees held := by
    have answered := (safe stages layout exporters).stop reason c s
      (sees.mono fun _ _ => Tells.admits) held.attended
    refine ⟨⟨answered.holds, fun rule a after => by cases (running_of_stop after).1⟩, fun v emitted => ?_⟩
    refine ⟨answered.gives v emitted, fun a same => .inr ?_⟩
    subst same
    obtain ⟨entry, represents, serves⟩ := held.attended
    exact ⟨entry, represents.found, result_of_stop_address represents serves emitted⟩

end Registers

end FlowMetering.Library
