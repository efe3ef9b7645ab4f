import FlowMetering.Proofs.PoisedRecords
import FlowMetering.Proofs.ReportedFamilies
import FlowMetering.Proofs.Wiring

/-! Single emissions. In a compiled program packets come to a register along one argument at most, and operators wait for
all of their arguments, so that no register emits twice for a packet. -/

namespace FlowMetering

private def Source.argument : Source → Argument
  | .flow => .raw
  | .register q => .register q

private theorem Source.argument_injective : Function.Injective Source.argument := by
  intro a b same
  cases a <;> cases b <;> simp_all [Source.argument]

def Input.isPacket : Input → Bool
  | .packet _ _ => true
  | .value _ _ => false

namespace Library

namespace Instance

theorem allowed_answers (c : Context) (s : Instance) (inputs : List Input) :
    ∀ e ∈ s.answers c inputs, Allowed s.role? e := by
  induction inputs generalizing s with
  | nil => exact nofun
  | cons input inputs ih =>
    rw [answers, List.forall_mem_cons]
    refine ⟨?_, fun e member => s.role?_event input c ▸ ih _ e member⟩
    cases input with
    | packet p source => exact s.allowed_packet p
    | value v q => exact s.allowed_value v _

/-- Values only make operators speak. -/
theorem value_silent {s : Instance} (plain : s.operation? = none) (v : Value) (positions : List Nat) :
    (s.value v positions).2.emission = .nothing := by
  cases s with
  | operator op kind slots constant => cases plain
  | mean sum count =>
    rw [value]
    cases v.asFloat <;> rfl
  | _ => rfl

/-- An operator starts with as many slots as it has arguments. -/
theorem operation?_of_still {s : Instance} (still : ∀ c, s.start c = s) : s.operation? = none := by
  cases s with
  | operator op kind slots constant =>
    have none := (operator.inj (still ⟨0, [], [], 0, 0⟩)).2.2.1
    have one := (operator.inj (still ⟨0, [.raw], [], 0, 0⟩)).2.2.1
    cases none.trans one.symm
  | _ => rfl

theorem countP_answers_le {c : Context} {s : Instance} (plain : s.operation? = none) (inputs : List Input) :
    (s.answers c inputs).countP Emission.speaks ≤ inputs.countP Input.isPacket := by
  induction inputs generalizing s with
  | nil => exact Nat.le_refl _
  | cons input inputs ih =>
    have rest : ((s.event input c).1.answers c inputs).countP Emission.speaks ≤ inputs.countP Input.isPacket :=
      ih ((s.operation?_called c (.event input)).trans plain)
    rw [answers, List.countP_cons, List.countP_cons]
    cases input with
    | packet p source =>
      simp only [Input.isPacket, if_true]
      refine Nat.add_le_add rest ?_
      split <;> simp
    | value v q =>
      have silent : (s.event (.value v q) c).2.emission = .nothing := s.value_silent plain v _
      rw [silent]
      simpa [Emission.speaks, Input.isPacket] using rest

end Instance

private theorem countP_speaks_eq_zero {es : List Emission} (silent : ∀ e ∈ es, e = .nothing) :
    es.countP Emission.speaks = 0 := by
  refine List.countP_eq_zero.mpr fun e member => ?_
  rw [silent e member]
  exact nofun

private theorem result_of_role {entry : Entry Instance} (member : entry ∈ entries) {build : Kind → Instance}
    (built : entry.build = some build) {kind : Kind} (plain : (build kind).operation? = none) {role : Role}
    (found : (build kind).role? = some role) : entry.result = role.kind := by
  by_cases control : entry.result = .control
  · rw [tcpEnd_of_control member control] at built
    cases built
    cases found
  cases stock_entries entry member with
  | packetSource _ result arguments build reads =>
    obtain rfl := Option.some.inj (build.symm.trans built)
    obtain rfl := Option.some.inj (reads.role.symm.trans found)
    exact result
  | flowSource _ result arguments build sums =>
    obtain rfl := Option.some.inj (build.symm.trans built)
    obtain rfl := Option.some.inj (sums.role.symm.trans found)
    exact result
  | aggregate _ result arguments build collects =>
    obtain rfl := Option.some.inj (build.symm.trans built)
    obtain rfl := Option.some.inj (collects.role.symm.trans found)
    exact result
  | operator op =>
    cases built
    cases plain
  | apply | map => cases built
  | control => exact absurd rfl control
  | _ =>
    cases built
    cases found
    rfl

private theorem entry_of_operation {entry : Entry Instance} (member : entry ∈ entries) {build : Kind → Instance}
    (built : entry.build = some build) {kind : Kind} {op : Operator} (operation : (build kind).operation? = some op) :
    entry = operatorEntry op ∧ (build kind).role? = some (if kind = .packetFeature then .packet else .flow) := by
  by_cases control : entry.result = .control
  · rw [tcpEnd_of_control member control] at built
    cases built
    cases operation
  cases stock_entries entry member with
  | packetSource found result arguments build reads =>
    obtain rfl := Option.some.inj (build.symm.trans built)
    cases reads <;> cases operation
  | flowSource found result arguments build sums =>
    obtain rfl := Option.some.inj (build.symm.trans built)
    cases (Instance.operation?_of_still sums.start).symm.trans operation
  | aggregate found result arguments build collects =>
    obtain rfl := Option.some.inj (build.symm.trans built)
    cases (Instance.operation?_of_still collects.start).symm.trans operation
  | operator op =>
    cases built
    cases operation
    exact ⟨rfl, rfl⟩
  | apply | map => cases built
  | control => exact absurd rfl control
  | _ =>
    cases built
    cases operation

variable {limit : Nat} {s : Specification} {p : Program Instance PacketFilter}

private def Forwards (p : Program Instance PacketFilter) : Argument → Prop
  | .raw => True
  | .register q => ∃ entry, p.EntryAt q entry ∧ entry.result = .selection

/-- A program whose first registers have been made for features, and all others for controls. -/
structure Fronted (p : Program Instance PacketFilter) (front : List (Node Instance)) : Prop where
  tidy : Allocation.Tidy catalog front
  nodes : ∃ more, p.nodes = front ++ more ∧ ∀ node ∈ more, ∃ position control, node = Allocation.controlNode position control ∧
    control.entry = controlEntry "_tcpEnd" (.tcpEnd false false)
  controls : ∀ k ∈ p.controls, front.length ≤ k

namespace Fronted

variable {front : List (Node Instance)} (fronted : Fronted p front)
include fronted

private theorem node_cases {r : Nat} {node : Node Instance} (found : p.nodes[r]? = some node) :
    front[r]? = some node ∨ front.length ≤ r ∧ ∃ position control, node = Allocation.controlNode position control ∧
      control.entry = controlEntry "_tcpEnd" (.tcpEnd false false) := by
  obtain ⟨more, nodes, made⟩ := fronted.nodes
  rw [nodes] at found
  by_cases inside : r < front.length
  · rw [List.getElem?_append_left inside] at found
    exact .inl found
  · rw [List.getElem?_append_right (Nat.le_of_not_lt inside)] at found
    exact .inr ⟨Nat.le_of_not_lt inside, made node (List.mem_of_getElem? found)⟩

private theorem found {r : Nat} {node : Node Instance} (held : front[r]? = some node) : p.nodes[r]? = some node := by
  obtain ⟨more, nodes, -⟩ := fronted.nodes
  rw [nodes]
  exact (List.getElem?_append_left (List.getElem?_eq_some_iff.mp held).1).trans held

theorem quiet {k : Nat} (member : k ∈ p.controls) {state : Instance} (sorted : Sorted p k state) : state.role? = none := by
  obtain ⟨node, build, found, built, role, -⟩ := sorted
  rw [role]
  rcases fronted.node_cases found with held | ⟨-, position, control, rfl, entry⟩
  · exact absurd (List.getElem?_eq_some_iff.mp held).1 (Nat.not_lt.mpr (fronted.controls k member))
  · change control.entry.build = some build at built
    rw [entry] at built
    cases built
    rfl

private theorem operator_arguments {r : Nat} {node : Node Instance} {chosen : Registered Instance} {op : Operator}
    (found : p.nodes[r]? = some node) (entered : node.entry = some chosen) (operation : chosen.entry = operatorEntry op)
    (kind : node.kind = .packetFeature) : node.isControl = false ∧ node.constant = none ∧
      ∀ arg ∈ node.args, ∃ q, arg = .register q ∧ ¬Forwards p arg := by
  have taken : chosen.entry.result = .matchType := by rw [operation]; rfl
  rcases fronted.node_cases found with held | ⟨-, position, control, rfl, entry⟩
  · rcases fronted.tidy.held r node held with ⟨value, -, refers, -⟩ | ⟨binding, args, -, regular, refers, made, -⟩
    · cases refers with
      | constant found' known none entry =>
        cases held.symm.trans found'
        cases entry.symm.trans entered
    · cases refers with
      | call found' varies entry plain count each =>
        cases held.symm.trans found'
        cases entry.symm.trans entered
        refine ⟨plain, varies, fun arg member => ?_⟩
        obtain ⟨tree, paired⟩ := exists_zip_right count member
        have inside := (List.of_mem_zip paired).2
        have refers := each _ paired
        cases regular with
        | own each fixed working own => exact absurd taken fixed
        | taken regulars taken suits =>
          have suits := suits tree inside
          have regular := regulars tree inside
          cases refers with
          | raw mark => exact suits.elim
          | constant found known none entry' =>
            refine ⟨_, rfl, ?_⟩
            rintro ⟨other, ⟨node', chosen', found', -, entered', -⟩, -⟩
            cases (fronted.found found).symm.trans found'
            cases entry'.symm.trans entered'
          | call found varies entry' plain count each =>
            refine ⟨_, rfl, ?_⟩
            rintro ⟨other, ⟨node', chosen', found', -, entered', rfl⟩, selection⟩
            cases (fronted.found found).symm.trans found'
            cases entry'.symm.trans entered'
            cases regular with
            | own each fixed working own =>
              have same : Kind.selection = .packetFeature := (selection.symm.trans own).trans (suits.trans (made.symm.trans kind))
              cases same
            | taken each taken suits => cases taken.symm.trans selection
  · cases entered
    cases congrArg Entry.result (operation.symm.trans entry)

end Fronted

section Stages

variable (stages : Specification.Stages catalog limit s p)
include stages

theorem exists_front : ∃ front, Fronted p front := by
  obtain ⟨made, exported, same⟩ := exported_of_stages stages
  have controlled := Allocation.addControls_controlled stages.controls.zipIdx made
  rw [← same, List.zipIdx_map_fst] at controlled
  obtain ⟨more, added, each⟩ := controlled.nodes
  refine ⟨made.nodes, exported.tidy, ⟨more, ?_, fun node member => ?_⟩, fun k member => ?_⟩
  · rw [Allocation.program_nodes stages.finished, added]
  · obtain ⟨position, control, held, rfl⟩ := each node member
    obtain ⟨registered, result⟩ := registered_control stages held
    exact ⟨position, control, rfl, tcpEnd_of_control registered result⟩
  · rw [Allocation.program_controls stages.finished, controlled.controls, exported.controls, List.nil_append,
      List.mem_range'_1] at member
    exact member.1

variable (layout : Layout catalog limit stages.typed stages.controls p)
include layout

private theorem forwards_last {r : Nat} {entry : Entry Instance} (entered : p.EntryAt r entry) (working : entry.result ≠ .control)
    (fixed : entry.isVariadic = false) (own : .matchType ∉ entry.arguments) (before : List Kind) {last : Kind}
    (asks : entry.arguments ++ (if entry.implicitInput then [.rawPacket] else []) = before ++ [last])
    (values : ∀ kind ∈ before, kind.isRaw = false ∧ kind ≠ .selection) :
    ∃ a, ∀ arg ∈ p.args r, Forwards p arg → arg = a := by
  obtain ⟨node, typing, args, found, part, -, made, rfl⟩ := call_of_entryAt stages layout entered working
  have filled := (erased_part stages part).1
  rw [Typed.erase_call] at filled
  cases filled with
  | call asked fills inside =>
    obtain ⟨-, rfl⟩ := Entry.argumentKinds_fixed fixed asked
    have kinds : typing.binding.chosen.entry.arguments.map (Bound.argumentKind typing.binding.kind) =
        typing.binding.chosen.entry.arguments := by
      refine (List.map_congr_left fun kind member => ?_).trans (List.map_id _)
      exact if_neg fun same : kind = .matchType => own (same ▸ member)
    rw [kinds, asks, List.forall₂_map_right_iff] at fills
    cases made with
    | call plain type varies entry key each =>
      refine ⟨(node.args[before.length]?).getD .raw, fun arg member forwards => ?_⟩
      rw [Program.args_of_found found] at member
      obtain ⟨i, inside, rfl⟩ := List.getElem_of_mem member
      have count := fills.length_eq
      rw [← each.length_eq, List.length_append, List.length_singleton] at count
      by_cases early : i < before.length
      · have within : i < args.length := each.length_eq ▸ inside
        have denotes := forall₂_getElem? each (List.getElem?_eq_getElem inside) (List.getElem?_eq_getElem within)
        have fill := forall₂_getElem? fills ((List.getElem?_append_left early).trans (List.getElem?_eq_getElem early))
          (List.getElem?_eq_getElem within)
        obtain ⟨value, other⟩ := values before[i] (List.getElem_mem early)
        obtain ⟨q, same, results⟩ := kind_of_argument stages layout value
          (Layout.part_of_part part (Tree.mem_subtrees_arg (List.getElem_mem within))) denotes fill
        rw [same] at forwards
        obtain ⟨entry', entered', selection⟩ := forwards
        rcases results entry' entered' with result | taken
        · exact absurd (result.symm.trans selection) other
        · cases taken.symm.trans selection
      · obtain rfl : i = before.length := by omega
        rw [List.getElem?_eq_getElem inside]
        rfl

private theorem forwards_one {r : Nat} {entry : Entry Instance} (entered : p.EntryAt r entry) (member : entry ∈ entries)
    (result : entry.result = .packetFeature ∨ entry.result = .selection) (built : entry.build ≠ none) :
    ∃ a, ∀ arg ∈ p.args r, Forwards p arg → arg = a := by
  have working : entry.result ≠ .control := by rcases result with same | same <;> rw [same] <;> decide
  have last := forwards_last stages layout entered working
  cases stock_entries entry member with
  | packetSource found result arguments build reads explicit =>
    rw [Entry.isVariadic, arguments, explicit] at last
    exact last rfl (by decide) [] rfl (List.forall_mem_nil _)
  | flowSource found flow | aggregate found flow => rw [flow] at result; rcases result with same | same <;> cases same
  | operator op => rcases result with same | same <;> cases same
  | direction forward => exact last rfl (by decide : Kind.matchType ∉ [Kind.rawPacket]) [] rfl (List.forall_mem_nil _)
  | select => exact last rfl (by decide) [.packetFeature] rfl (by decide)
  | sliceFrom => exact last rfl (by decide) [.constant] rfl (by decide)
  | sliceBetween => exact last rfl (by decide) [.constant, .constant] rfl (by decide)
  | apply | map => exact absurd rfl built
  | control => exact absurd rfl working

private theorem entry_of_sorted {r : Nat} {state : Instance} (sorted : Sorted p r state) : ∃ node chosen build,
    p.nodes[r]? = some node ∧ node.entry = some chosen ∧ chosen.entry ∈ entries ∧ p.EntryAt r chosen.entry ∧
      chosen.entry.build = some build ∧ state.role? = (build node.kind).role? ∧
      state.operation? = (build node.kind).operation? := by
  obtain ⟨node, build, found, built, role, operation⟩ := sorted
  obtain ⟨chosen, entered, built⟩ := Option.bind_eq_some_iff.mp built
  obtain ⟨member, represents⟩ := represents stages layout found entered
  exact ⟨node, chosen, build, found, entered, member, represents.found, built, role, operation⟩

end Stages

/-- A register for an operator whose kind is that of packet features. -/
def Operates (p : Program Instance PacketFilter) (r : Nat) (op : Operator) : Prop :=
  ∃ node chosen, p.nodes[r]? = some node ∧ node.kind = .packetFeature ∧ node.entry = some chosen ∧
    chosen.entry = operatorEntry op

section Stages

variable (stages : Specification.Stages catalog limit s p)
variable (layout : Layout catalog limit stages.typed stages.controls p)
include stages layout

private theorem operates_of_sorted {r : Nat} {op : Operator} {slots : List (Option Value)} {constant : List Bool}
    (sorted : Sorted p r (.operator op .packetFeature slots constant)) : Operates p r op := by
  obtain ⟨node, chosen, build, found, entered, member, -, built, role, operation⟩ := entry_of_sorted stages layout sorted
  obtain ⟨same, made⟩ := entry_of_operation member built operation.symm
  rw [made] at role
  refine ⟨node, chosen, found, ?_, entered, same⟩
  by_contra other
  rw [if_neg other] at role
  cases role

end Stages

private theorem not_mem_dependents_of_clocked {r : Nat} {node : Node Instance} (found : p.nodes[r]? = some node)
    (clocked : p.isClocked node = true) (q : Nat) : r ∉ p.dependents q := by
  intro reads
  obtain ⟨-, -, -, constants⟩ := Program.isClocked_iff.mp clocked
  have member := Program.mem_args_of_dependent reads
  rw [Program.args_of_found found] at member
  obtain ⟨_, reg, ⟨⟩, found', known⟩ := constants _ member
  have varies := (Program.mem_dependents.mp reads).1
  rw [Program.isConstant_eq found', known] at varies
  cases varies

private theorem clocked_of_known {op : Operator} {node : Node Instance} (kind : node.kind = .packetFeature)
    (varies : node.constant = none) {w : Value} (result : op.evaluate (node.args.map p.known) = some w) :
    p.isClocked node = true := by
  refine Program.isClocked_iff.mpr ⟨kind, varies, ?_, fun arg member => ?_⟩
  · rintro none
    rw [none] at result
    cases result
  · have present : p.known arg ≠ none := by
      intro missing
      have none := op.evaluate_missing (List.mem_map.mpr ⟨arg, member, missing⟩)
      cases none.symm.trans result
    cases arg with
    | raw => exact absurd rfl present
    | register q =>
      rw [Program.known, List.getElem?_map] at present
      cases found : p.nodes[q]? with
      | none =>
        rw [found] at present
        exact absurd rfl present
      | some reg =>
        rw [found] at present
        exact ⟨q, reg, rfl, found, Option.isSome_iff_ne_none.mpr present⟩

private theorem countP_le_one {α β : Type} {f : α → β} {holds : α → Bool} {xs : List α} (distinct : (xs.map f).Nodup)
    (same : ∀ a ∈ xs, ∀ b ∈ xs, holds a = true → holds b = true → f a = f b) : xs.countP holds ≤ 1 := by
  induction xs with
  | nil => exact Nat.zero_le 1
  | cons x xs ih =>
    obtain ⟨absent, distinct⟩ := List.nodup_cons.mp distinct
    by_cases here : holds x = true
    · have rest : xs.countP holds = 0 := by
        refine List.countP_eq_zero.mpr fun a member held => absent ?_
        rw [same x List.mem_cons_self a (List.mem_cons_of_mem _ member) here held]
        exact List.mem_map_of_mem member
      rw [List.countP_cons_of_pos here, rest]
    · rw [List.countP_cons_of_neg here]
      exact ih distinct fun a member b member' =>
        same a (List.mem_cons_of_mem _ member) b (List.mem_cons_of_mem _ member')

section Deliveries

variable {m : Meter Instance PacketFilter} (stages : Specification.Stages catalog limit s m.program)
variable (layout : Layout catalog limit stages.typed stages.controls m.program) (ordered : m.program.Ordered)
variable (packet : Packet) {t : Turn Instance PacketFilter} (ready : t.Shows (Ready m.program))

include stages layout ready

private theorem forwards_of_call {call : Call} (member : call ∈ m.deliveryCalls packet t) (forward : call.emission = .forward) :
    Forwards m.program (.register call.register) := by
  have follows := deliveryCalls_follows m packet t
  have said : .forward ∈ Call.emissions (m.deliveryCalls packet t) call.register :=
    Call.mem_emissions.mpr ⟨call, member, rfl, forward⟩
  rcases t.idle_or_held call.register with idle | ⟨state, held⟩
  · cases (follows.idle _ idle).2 _ said
  · rw [(follows.held _ state held).2] at said
    have allowed := state.allowed_answers _ _ _ said
    obtain ⟨node, chosen, build, -, -, member, entered, built, role, operation⟩ :=
      entry_of_sorted stages layout (ready.1.1 _ state held)
    have selection : (build node.kind).role? = some .selection := by
      rw [← role]
      cases found : state.role? with
      | none =>
        rw [found] at allowed
        cases allowed
      | some role =>
        rw [found] at allowed
        cases role with
        | packet => exact absurd rfl allowed
        | selection => rfl
        | flow => cases allowed
    have plain : (build node.kind).operation? = none := by
      by_contra operates
      obtain ⟨op, operates⟩ := Option.ne_none_iff_exists'.mp operates
      rw [(entry_of_operation member built operates).2] at selection
      split at selection <;> cases selection
    exact ⟨chosen.entry, entered, result_of_role member built plain selection⟩

include ordered

private theorem packets_once {r : Nat} {entry : Entry Instance} (entered : m.program.EntryAt r entry) (member : entry ∈ entries)
    (result : entry.result = .packetFeature ∨ entry.result = .selection) (built : entry.build ≠ none)
    (distinct : ((Call.inputs (m.deliveryCalls packet t) r).map Input.source).Nodup) :
    (Call.inputs (m.deliveryCalls packet t) r).countP Input.isPacket ≤ 1 := by
  obtain ⟨a, only⟩ := forwards_one stages layout entered member result built
  obtain ⟨node, -, found, -, -, -⟩ := entered
  refine countP_le_one distinct fun input member input' member' isPacket isPacket' => ?_
  by_cases clocked : m.program.isClocked node = true
  · have flow {input : Input} (member : input ∈ Call.inputs (m.deliveryCalls packet t) r) : input.source = .flow := by
      rcases (Meter.mem_deliveryInputs ordered packet).mp member with ⟨-, rfl⟩ | ⟨call, -, reads, -⟩
      · rfl
      · exact absurd reads (not_mem_dependents_of_clocked found clocked _)
    rw [flow member, flow member']
  · have along {input : Input} (member : input ∈ Call.inputs (m.deliveryCalls packet t) r)
        (isPacket : input.isPacket = true) : input.source.argument = a := by
      rcases (Meter.mem_deliveryInputs ordered packet).mp member with ⟨event, rfl⟩ | ⟨call, held, reads, sent⟩
      · refine only .raw ?_ trivial
        rw [Program.args_of_found found]
        exact ((Program.mem_events found).mp event).2.resolve_right clocked
      · cases input with
        | value v q => cases isPacket
        | packet p source =>
          obtain ⟨-, rfl, forward⟩ := Emission.input?_eq_packet.mp sent
          exact only _ (Program.mem_args_of_dependent reads) (forwards_of_call stages layout packet ready held forward)
    exact Source.argument_injective ((along member isPacket).trans (along member' isPacket').symm)

variable {front : List (Node Instance)} (fronted : Fronted m.program front)
include fronted

/-- An operator on packets speaks once at most, with what it makes of the values that it has been given. -/
theorem emissions_operator {r : Nat} {op : Operator} (operates : Operates m.program r op) {constant : List Bool}
    (held : t.record.instances[r]? =
      some (some (.operator op .packetFeature ((m.program.args r).map m.program.known) constant)))
    (distinct : ((Call.inputs (m.deliveryCalls packet t) r).map Input.source).Nodup) :
    (Call.emissions (m.deliveryCalls packet t) r).countP Emission.speaks ≤ 1 ∧
      ∀ w, .value (some w) ∈ Call.emissions (m.deliveryCalls packet t) r ↔
        op.evaluate ((m.program.args r).map
          (Input.noted m.program.known (Call.inputs (m.deliveryCalls packet t) r))) = some w := by
  obtain ⟨node, chosen, found, kind, entered, operation⟩ := operates
  obtain ⟨plain, varies, args⟩ := fronted.operator_arguments found entered operation kind
  rw [((deliveryCalls_follows m packet t).held r _ held).2]
  by_cases clocked : m.program.isClocked node = true
  · have event : r ∈ m.program.events := (Program.mem_events found).mpr ⟨plain, .inr clocked⟩
    have inputs : Call.inputs (m.deliveryCalls packet t) r = [.packet packet .flow] := by
      refine List.perm_singleton.mp ((Meter.inputs_perm ordered packet t r).trans ?_)
      have nothing : (m.deliveryCalls packet t).flatMap (m.handed packet r) = [] :=
        List.flatMap_eq_nil_iff.mpr fun call _ => if_neg (not_mem_dependents_of_clocked found clocked _)
      rw [if_pos event, nothing]
      exact .refl _
    rw [inputs]
    change List.countP _ [(op.reaction ((m.program.args r).map m.program.known)).emission] ≤ 1 ∧
      ∀ w, _ ∈ [(op.reaction ((m.program.args r).map m.program.known)).emission] ↔
        op.evaluate ((m.program.args r).map m.program.known) = some w
    exact ⟨List.countP_le_length, fun w => List.mem_singleton.trans (op.reaction_eq_value _ w)⟩
  · have values : ∀ input ∈ Call.inputs (m.deliveryCalls packet t) r, ∃ v q, input = .value v q ∧
        .register q ∈ m.program.args r ∧ m.program.known (.register q) = none := by
      intro input member
      rcases (Meter.mem_deliveryInputs ordered packet).mp member with ⟨event, rfl⟩ | ⟨call, held, reads, sent⟩
      · have raw := ((Program.mem_events found).mp event).2.resolve_right clocked
        obtain ⟨_, ⟨⟩, -⟩ := args _ raw
      · have waits := Program.mem_args_of_dependent reads
        cases input with
        | value v q =>
          obtain ⟨rfl, -⟩ := Emission.input?_eq_value.mp sent
          exact ⟨v, _, rfl, waits, known_of_dependent reads⟩
        | packet p source =>
          obtain ⟨-, -, forward⟩ := Emission.input?_eq_packet.mp sent
          rw [Program.args_of_found found] at waits
          obtain ⟨_, -, never⟩ := args _ waits
          exact absurd (forwards_of_call stages layout packet ready held forward) never
    obtain ⟨once, results⟩ := Instance.answers_operator (footing m.program r) op m.program.known constant values distinct
    refine ⟨once, fun w => (results w).trans (and_iff_right_of_imp fun result nothing => clocked ?_)⟩
    rw [nothing] at result
    change op.evaluate ((m.program.args r).map m.program.known) = some w at result
    rw [Program.args_of_found found] at result
    exact clocked_of_known kind varies result

/-- No register emits twice for a packet. -/
theorem emits_once (r : Nat) : (Call.emissions (m.deliveryCalls packet t) r).countP Emission.speaks ≤ 1 := by
  induction r using Nat.strongRecOn with
  | ind r ih =>
    have distinct := Meter.nodup_sources ordered packet ih
    have follows := deliveryCalls_follows m packet t
    rcases t.idle_or_held r with idle | ⟨state, held⟩
    · rw [countP_speaks_eq_zero (follows.idle r idle).2]
      exact Nat.zero_le 1
    · obtain ⟨node, chosen, build, found, entered, member, entry, built, role, operation⟩ :=
        entry_of_sorted stages layout (ready.1.1 r state held)
      have said := (follows.held r state held).2
      have allowed := state.allowed_answers (footing m.program r) (Call.inputs (m.deliveryCalls packet t) r)
      rw [← said] at allowed
      have silent (nothing : ∀ e, Instance.Allowed state.role? e → e = .nothing) :
          (Call.emissions (m.deliveryCalls packet t) r).countP Emission.speaks ≤ 1 := by
        rw [countP_speaks_eq_zero fun e member => nothing e (allowed e member)]
        exact Nat.zero_le 1
      cases operates : state.operation? with
      | none =>
        have plain : (build node.kind).operation? = none := operation.symm.trans operates
        have packets {role' : Role} (found : state.role? = some role') (other : role' ≠ .flow) :
            (Call.emissions (m.deliveryCalls packet t) r).countP Emission.speaks ≤ 1 := by
          have result := result_of_role member built plain (role.symm.trans found)
          rw [said]
          refine (Instance.countP_answers_le operates _).trans
            (packets_once stages layout ordered packet ready entry member ?_ (by rw [built]; exact nofun) distinct)
          cases role' with
          | packet => exact .inl result
          | selection => exact .inr result
          | flow => exact absurd rfl other
        cases found : state.role? with
        | none => exact silent fun e allowed => by rwa [found] at allowed
        | some role' =>
          cases role' with
          | packet | selection => exact packets found nofun
          | flow => exact silent fun e allowed => by rwa [found] at allowed
      | some op =>
        obtain ⟨kind, slots, constant, rfl⟩ := Instance.operator_of_operation? operates
        by_cases perPacket : kind = .packetFeature
        · subst perPacket
          obtain ⟨rfl, -⟩ := ready.2 r op slots constant held
          have operates := operates_of_sorted stages layout (ready.1.1 r _ held)
          exact (emissions_operator stages layout ordered packet ready fronted operates held distinct).1
        · refine silent fun e allowed => ?_
          rwa [Instance.role?_operator, if_neg perPacket] at allowed

end Deliveries

end Library

end FlowMetering
