import FlowMetering.Proofs.ReportedValues
import FlowMetering.Proofs.SliceBounds
import FlowMetering.Proofs.TypedRegisters
import FlowMetering.Proofs.Wiring

/-! Arguments that entries declare as constants. Only slices have any, and they stand as they have been written: as constants, or
as calls of operators, which may stand anywhere. A bound that is a constant has its value when a segment starts. -/

namespace FlowMetering.Library

/-- What is written for a bound, and what stands for it after lowering. -/
inductive BoundBy : Expression → Bound Instance → Prop
  | constant (value : Value) : BoundBy (.constant value) (.constant value)
  | operator (e : Expression) {op : Operator} {binding : Binding Instance} (args : List (Bound Instance))
    (chosen : binding.chosen.entry = operatorEntry op) : BoundBy e (.call binding args)

private theorem BoundBy.fedBy {e : Expression} {tree : Bound Instance} (held : BoundBy e tree) (input : Bound Instance) :
    BoundBy e (Tree.fedBy input tree) := by
  cases held with
  | constant value => exact .constant value
  | operator e args chosen =>
    rw [Tree.fedBy_call]
    exact .operator e _ chosen

private theorem boundBy_of_takes {e : Expression} {bound : Bound Instance} (takes : Takes .constant e bound) :
    BoundBy e bound.settled := by
  cases e with
  | raw mark => cases (takes_raw takes).1
  | constant value =>
    obtain ⟨-, rfl⟩ := takes_constant_iff.mp takes
    exact .constant value
  | call name args =>
    obtain ⟨candidate, bounds, rfl, binds⟩ := takes_call takes
    obtain ⟨op, same⟩ := binds.exists_operator rfl
    rw [Bound.settled_call (congrArg Entry.build same)]
    exact .operator _ _ same

def sliceEntry (count : Nat) : Entry Instance :=
  selectionEntry "select_slice" (List.replicate count .constant) true (.slice 0 none 0)

private theorem Stock.slice {entry : Entry Instance} (stock : Stock entry) (asked : .constant ∈ entry.arguments) :
    ∃ n, entry = sliceEntry n := by
  cases stock with
  | packetSource found result arguments | flowSource found result arguments | aggregate found result arguments =>
    rw [arguments] at asked
    exact absurd asked (by decide)
  | operator op => cases op <;> exact absurd asked (by decide)
  | direction forward => exact absurd asked (by decide : Kind.constant ∉ [Kind.rawPacket])
  | control name initial => exact absurd asked (by decide : Kind.constant ∉ [Kind.rawPacket])
  | select | apply | map => exact absurd asked (by decide)
  | sliceFrom => exact ⟨1, rfl⟩
  | sliceBetween => exact ⟨2, rfl⟩

private theorem argumentKinds_slice {n count : Nat} {kinds : List Kind} (found : (sliceEntry n).argumentKinds count = some kinds) :
    n = count ∧ kinds = List.replicate count .constant := by
  have fixed : (sliceEntry n).isVariadic = false := by
    cases n with
    | zero => rfl
    | succ n =>
      change ((List.replicate (n + 1) Kind.constant).getLast? == some .ellipsis) = false
      rw [List.getLast?_replicate]
      rfl
  obtain ⟨same, rfl⟩ := Entry.argumentKinds_fixed fixed found
  have arguments : (sliceEntry n).arguments = List.replicate n .constant := rfl
  rw [arguments, List.length_replicate] at same
  exact ⟨same, same ▸ arguments⟩

private theorem forall₂_append_singleton {α β : Type} {related : α → β → Prop} {items : List α} {others : List β} {last : β}
    (each : List.Forall₂ related items (others ++ [last])) :
    ∃ front item, items = front ++ [item] ∧ List.Forall₂ related front others ∧ related item last := by
  rw [← List.forall₂_reverse_iff, List.reverse_append, List.reverse_singleton, List.singleton_append,
    List.forall₂_cons_right_iff] at each
  obtain ⟨item, rest, held, others, same⟩ := each
  refine ⟨rest.reverse, item, ?_, List.forall₂_reverse_iff.mp (by rwa [List.reverse_reverse]), held⟩
  rw [← List.reverse_reverse items, same, List.reverse_cons]

private theorem Filled.slice {binding : Binding Instance} {bounds : List (Bound Instance)} {input : Bound Instance}
    (filled : Filled (.call binding (bounds ++ [input]))) {n : Nat} (slice : binding.chosen.entry = sliceEntry n) :
    bounds.length = n ∧ Fills .rawPacket input := by
  generalize trees : bounds ++ [input] = args at filled
  cases filled with
  | call asked fills each =>
    subst trees
    rw [slice] at asked
    have implicit : binding.chosen.entry.implicitInput = true := congrArg Entry.implicitInput slice
    rw [if_pos implicit] at fills
    obtain ⟨front, kind, same, others, last⟩ := forall₂_append_singleton fills
    obtain ⟨rfl, single⟩ := List.append_inj' same rfl
    obtain rfl := List.singleton_inj.mp single
    refine ⟨?_, last⟩
    rw [(argumentKinds_slice asked).1, ← Bound.argumentKinds_length asked, ← others.length_eq, List.length_map]

/-- The bounds of all slices stand for those of written calls. -/
inductive Traced (calls : List Expression) : Bound Instance → Prop
  | raw (mark : Kind) : Traced calls (.raw mark)
  | constant (value : Value) : Traced calls (.constant value)
  | other {binding : Binding Instance} {args : List (Bound Instance)} (other : .constant ∉ binding.chosen.entry.arguments)
    (each : ∀ arg ∈ args, Traced calls arg) : Traced calls (.call binding args)
  | slice {binding : Binding Instance} {written : List Expression} {bounds : List (Bound Instance)} {input : Bound Instance}
    (called : .call "select_slice" written ∈ calls) (held : List.Forall₂ BoundBy written bounds)
    (each : ∀ arg ∈ bounds ++ [input], Traced calls arg) : Traced calls (.call binding (bounds ++ [input]))

namespace Traced

variable {calls : List Expression}

private theorem arg {binding : Binding Instance} {args : List (Bound Instance)} (traced : Traced calls (.call binding args))
    {arg : Bound Instance} (member : arg ∈ args) : Traced calls arg := by
  cases traced with
  | other other each => exact each arg member
  | slice called held each => exact each arg member

private theorem part {tree node : Bound Instance} (traced : Traced calls tree) (member : node ∈ tree.subtrees) : Traced calls node := by
  induction tree using Tree.induct with
  | raw mark => exact List.mem_singleton.mp member ▸ traced
  | constant value => exact List.mem_singleton.mp member ▸ traced
  | call binding args ih =>
    rcases Tree.mem_subtrees_call.mp member with ⟨arg, held, inside⟩ | rfl
    · exact ih arg held (traced.arg held) inside
    · exact traced

private theorem fedBy {tree input : Bound Instance} (traced : Traced calls tree) (traced' : Traced calls input) :
    Traced calls (Tree.fedBy input tree) := by
  induction traced with
  | raw mark => exact traced'
  | constant value => exact .constant value
  | other other each ih =>
    rw [Tree.fedBy_call]
    exact .other other (List.forall_mem_map.mpr ih)
  | slice called held each ih =>
    have fed := List.forall_mem_map.mpr ih
    rw [List.map_append, List.map_singleton] at fed
    rw [Tree.fedBy_call, List.map_append, List.map_singleton]
    exact .slice called (List.forall₂_map_right_iff.mpr (held.imp fun _ _ held => held.fedBy input)) fed

private theorem withInput {tree input : Bound Instance} (traced : Traced calls tree) (traced' : Traced calls input) :
    Traced calls (tree.withInput input) := by
  cases tree with
  | raw mark => exact .raw mark
  | constant value => exact .constant value
  | call binding args =>
    rw [Tree.withInput_eq_fedBy (fun mark same => by cases same)]
    exact traced.fedBy traced'

end Traced

private theorem settled_traced {e : Expression} {required : Kind} (working : required ≠ .control) {bound : Bound Instance}
    (takes : Takes required e bound) {calls : List Expression} (within : e.subtrees ⊆ calls) :
    Traced calls bound.settled := by
  induction e using Tree.induct generalizing required bound with
  | raw mark =>
    obtain ⟨-, rfl⟩ := takes_raw takes
    exact .raw required
  | constant value =>
    obtain ⟨-, rfl⟩ := takes_constant_iff.mp takes
    exact .constant value
  | call name args ih =>
    obtain ⟨candidate, bounds, rfl, binds⟩ := takes_call takes
    have inside : ∀ arg ∈ args, arg.subtrees ⊆ calls := fun arg member part below =>
      within (Tree.mem_subtrees_call.mpr (.inl ⟨arg, member, below⟩))
    have each : ∀ bound ∈ bounds, Traced calls (Bound.settled bound) := by
      intro bound member
      obtain ⟨kind, arg, held, working, takes⟩ := binds.arg working member
      exact ih arg held working takes (inside arg held)
    rcases binds.stock.build_cases with ⟨build, built⟩ | ⟨name', kind, same, flowOrPacket⟩
    · rw [Bound.settled_call built]
      have placed : ∀ arg ∈ bounds.map Bound.settled ++
          (if candidate.entry.implicitInput then [.raw .rawPacket] else []), Traced calls arg := by
        rw [List.forall_mem_append, List.forall_mem_map]
        refine ⟨each, ?_⟩
        split
        · exact List.forall_mem_singleton.mpr (.raw _)
        · exact List.forall_mem_nil _
      by_cases asked : .constant ∈ candidate.entry.arguments
      · obtain ⟨n, slice⟩ := binds.stock.slice asked
        obtain rfl : "select_slice" = name := (congrArg Entry.name slice).symm.trans binds.name
        obtain ⟨kinds, found, given⟩ := binds.takes
        rw [slice] at found
        rw [(argumentKinds_slice found).2, List.map_replicate, Bound.argumentKind, if_neg (by decide),
          ← List.map_const', ← List.map_prod_right_eq_zip, List.forall₂_map_left_iff] at given
        have implicit : candidate.entry.implicitInput = true := congrArg Entry.implicitInput slice
        rw [if_pos implicit] at placed ⊢
        exact .slice (within (Tree.mem_subtrees_self _))
          (List.forall₂_map_right_iff.mpr (given.imp fun _ _ takes => boundBy_of_takes takes)) placed
      · exact .other asked placed
    · obtain ⟨feature, selection, bound, bound', rfl, rfl, -, -⟩ := binds.substitution same flowOrPacket
      rw [Bound.settled_substitution (congrArg Entry.build same) (congrArg Entry.implicitInput same)]
      exact (each bound (by simp)).withInput (each bound' (by simp))

section Registers

variable {limit : Nat} {s : Specification} {p : Program Instance PacketFilter}

/-- What a register reads for a bound: the constant that has been written, or what an operator gives. -/
private def Bears (p : Program Instance PacketFilter) (e : Expression) (arg : Argument) : Prop :=
  (∃ v, e = .constant v ∧ p.known arg = some v) ∨ ∃ q op, arg = .register q ∧ p.EntryAt q (operatorEntry op)

variable (stages : Specification.Stages catalog limit s p)
include stages

private theorem traced_part {part : Typed Instance} (member : part ∈ stages.typed.flatMap (·.tree.subtrees)) :
    ∃ json ∈ s.features, ∃ e, Expression.ofJson json = .ok e ∧ Traced (unfolded e).subtrees part.erase := by
  obtain ⟨field, held, inside⟩ := List.mem_flatMap.mp member
  obtain ⟨json, listed, e, bound, resolved⟩ := forall₂_mem_right (resolved_of_stages stages) held
  have traced := settled_traced (by decide) resolved.takes (List.Subset.refl _)
  rw [← resolved.erased] at traced
  exact ⟨json, listed, e, resolved.read, traced.part (Tree.mem_subtrees_map id Typing.binding inside)⟩

variable (layout : Layout catalog limit stages.typed stages.controls p)
include layout

private theorem bears_of_boundBy {e : Expression} {arg : Argument} {tree : Typed Instance}
    (part : tree ∈ stages.typed.flatMap (·.tree.subtrees)) (denotes : Allocation.Denotes layout.made.registers arg tree)
    (held : BoundBy e tree.erase) : Bears p e arg := by
  cases arg with
  | raw =>
    cases denotes
    cases held
  | register q =>
    obtain ⟨node, found, made⟩ := layout.made_of_denotes (layout.wellTyped part) denotes
    cases made with
    | @constant value plain type known args entry key =>
      have same : e = .constant value := by
        generalize shown : (Typed.erase (.constant value) : Bound Instance) = bound at held
        cases held <;> cases shown
        rfl
      exact .inl ⟨value, same, (Program.known_of_found found).trans known⟩
    | call plain type varies entry key each =>
      rw [Typed.erase_call] at held
      cases held with
      | operator e args chosen => exact .inr ⟨q, _, rfl, node, _, found, varies, entry, chosen⟩

private theorem known_of_fills {arg : Argument} {tree : Typed Instance} (part : tree ∈ stages.typed.flatMap (·.tree.subtrees))
    (denotes : Allocation.Denotes layout.made.registers arg tree) (fills : Fills .rawPacket tree.erase) :
    p.known arg = none := by
  cases arg with
  | raw => rfl
  | register q =>
    obtain ⟨node, found, made⟩ := layout.made_of_denotes (layout.wellTyped part) denotes
    cases made with
    | @constant value plain type known args entry key =>
      generalize shown : (Typed.erase (.constant value) : Bound Instance) = bound at fills
      cases fills with
      | suits suits =>
        subst shown
        cases suits
      | raw => cases shown
      | selected => cases shown
    | call plain type varies entry key each => exact (Program.known_of_found found).trans varies

private theorem slice_register {r : Nat} {node : Node Instance} {chosen : Registered Instance} (found : p.nodes[r]? = some node)
    (entered : node.entry = some chosen) (asked : .constant ∈ chosen.entry.arguments) :
    ∃ json ∈ s.features, ∃ e written bounds input, Expression.ofJson json = .ok e ∧
      .call "select_slice" written ∈ (unfolded e).subtrees ∧ chosen.entry = sliceEntry written.length ∧
      node.args = bounds ++ [input] ∧ List.Forall₂ (Bears p) written bounds ∧ p.known input = none := by
  rcases layout.node_cases found with ⟨position, control, member, rfl⟩ | ⟨tree, part, -, made⟩
  · cases entered
    obtain ⟨registered, result⟩ := registered_control stages member
    rw [tcpEnd_of_control registered result] at asked
    exact absurd asked (by decide : Kind.constant ∉ [Kind.rawPacket])
  · cases made with
    | constant plain type known args entry key => cases entry.symm.trans entered
    | call plain type varies entry key each =>
      cases entry.symm.trans entered
      rename_i typing args
      obtain ⟨json, listed, e, read, traced⟩ := traced_part stages part
      have filled := (erased_part stages part).1
      rw [Typed.erase_call] at traced filled
      generalize erased : args.map Typed.erase = trees at traced filled
      cases traced with
      | other other inside => exact absurd asked other
      | @slice _ written bounds input called held inside =>
        obtain ⟨own, last, rfl, rfl, same⟩ := List.map_eq_append_iff.mp erased
        obtain ⟨tree, rfl, rfl⟩ := List.map_eq_singleton_iff.mp same
        have below : ∀ arg ∈ own ++ [tree], arg ∈ stages.typed.flatMap (·.tree.subtrees) := fun arg member =>
          Layout.part_of_part part (Tree.mem_subtrees_arg member)
        rw [List.forall_mem_append, List.forall_mem_singleton] at below
        have registered : typing.binding.chosen ∈ catalog.registered := by
          cases layout.wellTyped part with
          | call registered key typed inside => exact registered
        obtain ⟨n, slice⟩ := (stock_entries _ (Catalog.mem_entries registered)).slice asked
        obtain ⟨bounds, input, reads, denote, denotes⟩ := forall₂_append_singleton each
        obtain ⟨count, fills⟩ := filled.slice slice
        have stands : List.Forall₂ (Bears p) written bounds := by
          have read := (List.forall₂_and_left _ _).mpr ⟨below.1, denote.flip⟩
          refine (forall₂_comp (List.forall₂_map_right_iff.mp held) read).imp ?_
          rintro e arg ⟨tree, held, part, denotes⟩
          exact bears_of_boundBy stages layout part denotes held
        refine ⟨json, listed, e, written, bounds, input, read, called, ?_, reads, stands,
          known_of_fills stages layout below.2 denotes fills⟩
        rw [held.length_eq, count, slice]

end Registers

private theorem constants_of_bears {p : Program Instance PacketFilter} {written : List Expression} {bounds : List Argument}
    (each : List.Forall₂ (Bears p) written bounds)
    (plain : ∀ q op, .register q ∈ bounds → ¬p.EntryAt q (operatorEntry op)) :
    ∃ constants : List Value, written = constants.map .constant ∧ bounds.map p.known = constants.map some := by
  induction each with
  | nil => exact ⟨[], rfl, rfl⟩
  | cons first rest ih =>
    obtain ⟨constants, rfl, known⟩ := ih fun q op member => plain q op (List.mem_cons_of_mem _ member)
    rcases first with ⟨v, rfl, held⟩ | ⟨q, op, rfl, computed⟩
    · exact ⟨v :: constants, rfl, by rw [List.map_cons, held, known, List.map_cons]⟩
    · exact absurd computed (plain q op List.mem_cons_self)

private theorem exists_register_of_known {p : Program Instance PacketFilter} {arg : Argument} {v : Value} (known : p.known arg = some v) :
    ∃ q bound, arg = .register q ∧ p.nodes[q]? = some bound ∧ bound.constant = some v := by
  cases arg with
  | raw => cases known
  | register q =>
    obtain ⟨constant, found, same⟩ := Option.map_eq_some_iff.mp (List.getElem?_map ▸ Option.join_eq_some_iff.mp known)
    exact ⟨q, constant, rfl, found, same⟩

private theorem known_getElem? {p : Program Instance PacketFilter} {args : List Argument} {constants : List Value}
    (known : args.map p.known = constants.map some ++ [none]) (i : Nat) : (args[i]?).bind p.known = constants[i]? := by
  have mapped : (args[i]?).bind p.known = ((args.map p.known)[i]?).join := by
    rw [List.getElem?_map]
    cases args[i]? <;> rfl
  rw [mapped, known]
  by_cases inside : i < constants.length
  · rw [List.getElem?_append_left (by simpa using inside), List.getElem?_map, List.getElem?_eq_getElem inside]
    rfl
  · rw [List.getElem?_append_right (by simpa using inside), List.getElem?_eq_none (Nat.le_of_not_lt inside)]
    cases i - (constants.map some).length <;> rfl

/-- Whatever is declared a constant is one, with its value at each start, unless an operator has been chosen for it. Where no
operator has been chosen for its bounds, a slice has the bounds that have been written whenever a segment is open. -/
theorem compile_fixes_constants {s : Specification} {limit : Nat} {m : Meter Instance PacketFilter}
    (compiled : s.compile catalog limit = .ok m.program) {r : Nat} {node : Node Instance} {chosen : Registered Instance}
    (found : m.program.nodes[r]? = some node) (entered : node.entry = some chosen) :
    (∀ count kinds i, chosen.entry.argumentKinds count = some kinds → kinds[i]? = some .constant →
      ∃ q, node.args[i]? = some (.register q) ∧ ((∀ op, ¬m.program.EntryAt q (operatorEntry op)) →
        ∃ bound v, m.program.nodes[q]? = some bound ∧ bound.constant = some v ∧
          ∀ now t, (m.startContext now t r).argument i = some v)) ∧
    (chosen.entry.name = "select_slice" → (∀ q op, .register q ∈ node.args → ¬m.program.EntryAt q (operatorEntry op)) →
      ∃ json ∈ s.features, ∃ e, ∃ constants : List Value, Expression.ofJson json = .ok e ∧
        .call "select_slice" (constants.map .constant) ∈ (unfolded e).subtrees ∧
        node.args.map m.program.known = constants.map some ++ [none] ∧
        ∀ operations, (m.performAll m.make operations).1.active = true → ∃ index,
          (m.performAll m.make operations).1.instances[r]? = some (some (.slice (sliceBounds constants[0]? constants[1]?).1
            (sliceBounds constants[0]? constants[1]?).2 index))) := by
  obtain ⟨stages⟩ := Specification.compile_stages compiled
  obtain ⟨layout⟩ := stages.layout
  have args := Program.args_of_found found
  constructor
  · intro count kinds i asked declared
    have member := Entry.argumentKinds_subset asked (List.mem_of_getElem? declared)
    obtain ⟨json, listed, e, written, bounds, input, read, called, slice, reads, stands, unknown⟩ :=
      slice_register stages layout found entered member
    rw [slice] at asked
    obtain ⟨same, rfl⟩ := argumentKinds_slice asked
    have inside : i < bounds.length := by
      have inside := (List.getElem?_eq_some_iff.mp declared).1
      rwa [List.length_replicate, ← same, stands.length_eq] at inside
    have reads' : node.args[i]? = some bounds[i] := by
      rw [reads, List.getElem?_append_left inside, List.getElem?_eq_getElem inside]
    obtain ⟨e', -, first⟩ := forall₂_mem_right stands (List.getElem_mem inside)
    rcases first with ⟨v, -, known⟩ | ⟨q, op, register, computed⟩
    · obtain ⟨q, bound, register, found', constant⟩ := exists_register_of_known known
      refine ⟨q, register ▸ reads', fun _ => ⟨bound, v, found', constant, fun now t => ?_⟩⟩
      rw [argument_startContext, args, reads', Option.bind_some, known]
    · exact ⟨q, register ▸ reads', fun plain => absurd computed (plain op)⟩
  · intro named plain
    have registered := (represents stages layout found entered).1
    have member : .constant ∈ chosen.entry.arguments := by
      have listed : entries.all (fun e => e.name != "select_slice" || e.arguments.contains .constant) = true := by
        decide +kernel
      simpa [named] using List.all_eq_true.mp listed chosen.entry registered
    obtain ⟨json, listed, e, written, bounds, input, read, called, slice, reads, stands, unknown⟩ :=
      slice_register stages layout found entered member
    obtain ⟨constants, rfl, known⟩ := constants_of_bears stands fun q op member =>
      plain q op (reads ▸ List.mem_append_left _ member)
    have values : node.args.map m.program.known = constants.map some ++ [none] := by
      rw [reads, List.map_append, known, List.map_singleton, unknown]
    refine ⟨json, listed, e, constants, read, called, values, fun operations active => ?_⟩
    have built : node.build? = some fun _ => .slice 0 none 0 := by
      rw [Node.build?, entered, Option.bind_some, slice]
      rfl
    have bounded := performAll_bounds m operations active found built rfl
    rw [knownBounds, args, known_getElem? values, known_getElem? values] at bounded
    exact bounded

def slicedCount (bounds : List Json) : Specification :=
  .ofFeatures [.array [.string "apply", .string "packetTotalCount", .array (.string "select_slice" :: bounds)]]

/-- What the entries of registers are called, what they declare, and what the registers read. -/
def listing (p : Program Instance PacketFilter) : List (Option (String × List Kind) × List Argument) :=
  p.nodes.map fun node => (node.entry.map fun chosen => (chosen.entry.name, chosen.entry.arguments), node.args)

private theorem listed_node {p : Program Instance PacketFilter} {q : Nat} {entry : Option (String × List Kind)} {args : List Argument}
    (listed : (listing p)[q]? = some (entry, args)) :
    ∃ node, p.nodes[q]? = some node ∧ (node.entry.map fun chosen => (chosen.entry.name, chosen.entry.arguments)) = entry ∧
      node.args = args := by
  rw [listing, List.getElem?_map] at listed
  obtain ⟨node, found, same⟩ := Option.map_eq_some_iff.mp listed
  exact ⟨node, found, congrArg Prod.fst same, congrArg Prod.snd same⟩

def betweenPackets : Specification :=
  slicedCount [.number (.natural 1), .number (.natural 3)]

theorem compile_fixes_constants_between : ∃ p, betweenPackets.compile catalog 4096 = .ok p ∧
    boundsAt (Meter.performAll ⟨p, []⟩ (Meter.make ⟨p, []⟩) (threePackets.map .event)).1.instances 2 = some (1, some 3) ∧
    (∃ bound v, p.nodes[1]? = some bound ∧ bound.constant = some v ∧
      ∀ now t, (Meter.startContext ⟨p, []⟩ now t 2).argument 1 = some v) ∧
    ∃ (e : Expression) (constants : List Value) (index : Nat),
      .call "select_slice" (constants.map .constant) ∈ (unfolded e).subtrees ∧
      (Meter.performAll ⟨p, []⟩ (Meter.make ⟨p, []⟩) (threePackets.map .event)).1.instances[2]? =
        some (some (.slice (sliceBounds constants[0]? constants[1]?).1 (sliceBounds constants[0]? constants[1]?).2 index)) := by
  have facts : (betweenPackets.compile catalog 4096).toOption.any (fun p =>
      decide (listing p = [(none, []), (none, []),
          (some ("select_slice", [.constant, .constant]), [.register 0, .register 1, .raw]),
          (some ("packetTotalCount", [.rawFlow]), [.register 2])] ∧
        (Meter.performAll ⟨p, []⟩ (Meter.make ⟨p, []⟩) (threePackets.map .event)).1.active = true ∧
        boundsAt (Meter.performAll ⟨p, []⟩ (Meter.make ⟨p, []⟩) (threePackets.map .event)).1.instances 2 =
          some (1, some 3))) = true := by decide +kernel
  obtain ⟨p, compiled, listed, active, bounds⟩ := ok_of_any facts
  obtain ⟨node, found, declared, args⟩ := listed_node (p := p) (q := 2) (by rw [listed]; rfl)
  obtain ⟨chosen, entered, same⟩ := Option.map_eq_some_iff.mp declared
  obtain ⟨named, arguments⟩ := Prod.mk.inj same
  have unentered (q : Nat) (small : q < 2) (op : Operator) : ¬p.EntryAt q (operatorEntry op) := by
    rintro ⟨node, chosen, found, -, entered, -⟩
    have none : (listing p)[q]? = some (none, []) := by
      rw [listed]
      rcases q with - | - | q
      · rfl
      · rfl
      · omega
    obtain ⟨node', found', declared, -⟩ := listed_node none
    cases found.symm.trans found'
    rw [entered] at declared
    cases declared
  obtain ⟨fixed, written⟩ := compile_fixes_constants (m := ⟨p, []⟩) compiled found entered
  have kinds : chosen.entry.argumentKinds 2 = some [.constant, .constant] := by
    rw [Entry.argumentKinds, Entry.isVariadic, arguments]
    rfl
  obtain ⟨q, reads, known⟩ := fixed 2 _ 1 kinds rfl
  rw [args] at reads
  obtain rfl : 1 = q := by simpa using reads
  obtain ⟨json, -, e, constants, -, called, -, opened⟩ := written named fun q op member => by
    rw [args] at member
    exact unentered q (by simp at member; omega) op
  obtain ⟨index, held⟩ := opened _ active
  exact ⟨p, compiled, bounds, known (unentered 1 (by decide)), e, constants, index, called, held⟩

/-- The number of packets from the third one on, where an operator gives the bound. -/
def computedBound : Specification :=
  slicedCount [.array [.string "add", .number (.natural 1), .number (.natural 1)]]

/-- The bound of the slice is no constant and has no value at the start, so that all packets are counted. -/
theorem computed_bound_ignored : ∃ p row, computedBound.compile catalog 4096 = .ok p ∧
    listing p = [(none, []), (some ("add", [.matchType, .matchType, .ellipsis]), [.register 0, .register 0]),
      (some ("select_slice", [.constant]), [.register 1, .raw]), (some ("packetTotalCount", [.rawFlow]), [.register 2])] ∧
    p.known (.register 1) = none ∧ row ∈ rowsOf ⟨p, []⟩ threePackets .forcedEnd 0 ∧
    row.values.map (Option.map Value.display) = [some "3"] := by
  have facts : (computedBound.compile catalog 4096).toOption.any (fun p =>
      decide (listing p = [(none, []), (some ("add", [.matchType, .matchType, .ellipsis]), [.register 0, .register 0]),
        (some ("select_slice", [.constant]), [.register 1, .raw]), (some ("packetTotalCount", [.rawFlow]), [.register 2])] ∧
        p.known (.register 1) = none)) = true := by decide +kernel
  obtain ⟨p, row, compiled, member, shown⟩ :=
    exists_row (show shownRows computedBound threePackets = [[some "3"]] by decide +kernel)
  rw [compiled] at facts
  obtain ⟨listed, unknown⟩ := of_decide_eq_true facts
  exact ⟨p, row, compiled, listed, unknown, member, shown⟩

end FlowMetering.Library
