import FlowMetering.Proofs.ArgumentKinds
import FlowMetering.Proofs.CompiledFeatures
import FlowMetering.Proofs.CompiledRegisters
import FlowMetering.Proofs.ValueTypes

/-! Registers as compiling leaves them: each represents a call of some entry, has the arguments that the entry asks for,
and has the type that the entry gives it. What values are of this type depends on packets only through the choices that
are made at branching points. -/

namespace FlowMetering

open TypeTree (Choice)

/-- Whether a value is of a type that does not branch. Where there is no type nothing is asked of values. -/
def TypeTree.admits : TypeTree → Value → Bool
  | .fixed element, v => element.type.admits v
  | .dead, _ => true
  | .untyped, _ | .variants _ _, _ => false

def Output.Admits : Output → Value → Prop
  | .fixed element, v => element.type.admits v = true
  | .variants elements, v => ∀ element ∈ elements, element.type.admits v = true
  | .untyped, _ | .resolved _, _ => False

/-- A value is of the type of a register under every choice. -/
def Program.Admits {σ φ : Type} (p : Program σ φ) (r : Nat) (v : Value) : Prop :=
  ∀ choice : Choice, choice.Covers p.points → ((p.typeOf (.register r)).select choice).admits v = true

/-- Values of types that do not branch have field types. -/
theorem Typed.fieldTypes_of_admits {leaves : List TypeTree} {values : List Value}
    (each : List.Forall₂ (fun leaf v => leaf.admits v = true) leaves values) (alive : ∀ leaf ∈ leaves, leaf ≠ .dead) :
    List.Forall₂ (fun type v => type.admits v = true) (fieldTypes leaves) values := by
  induction each with
  | nil => exact .nil
  | @cons leaf v leaves values first rest ih =>
    rw [List.forall_mem_cons] at alive
    cases leaf with
    | untyped | variants source branches => cases first
    | dead => exact absurd rfl alive.1
    | fixed element => exact .cons first (ih alive.2)

/-- What is asked of a value of a call that computes its type from the types of its arguments. -/
def Program.AdmitsComputed {σ φ : Type} (p : Program σ φ) (r : Nat) (resolve : List FieldType → Option FieldType)
    (v : Value) : Prop :=
  ∀ choice : Choice, choice.Covers p.points → (∀ arg ∈ p.args r, (p.typeOf arg).select choice ≠ .dead) →
    ∀ element, (p.typeOf (.register r)).select choice = .fixed element →
      resolve (Typed.fieldTypes ((p.args r).map fun arg => (p.typeOf arg).select choice)) = some element.type →
        element.type.admits v = true

def Program.EntryAt {σ φ : Type} (p : Program σ φ) (r : Nat) (entry : Entry σ) : Prop :=
  ∃ node chosen, p.nodes[r]? = some node ∧ node.constant = none ∧ node.entry = some chosen ∧ chosen.entry = entry

theorem Program.EntryAt.unique {σ φ : Type} {p : Program σ φ} {r : Nat} {entry entry' : Entry σ} (at_ : p.EntryAt r entry)
    (at' : p.EntryAt r entry') : entry = entry' := by
  obtain ⟨node, chosen, found, -, entered, rfl⟩ := at_
  obtain ⟨node', chosen', found', -, entered', rfl⟩ := at'
  cases found.symm.trans found'
  cases entered.symm.trans entered'
  rfl

theorem Program.args_of_found {σ φ : Type} {p : Program σ φ} {r : Nat} {node : Node σ} (found : p.nodes[r]? = some node) :
    p.args r = node.args := by
  rw [args, node?, found]

theorem Program.mem_args_of_dependent {σ φ : Type} {p : Program σ φ} {q d : Nat} (reads : d ∈ p.dependents q) :
    .register q ∈ p.args d := by
  obtain ⟨-, -, reads⟩ := mem_dependents.mp reads
  obtain ⟨node, found, reads⟩ := mem_arguments.mp reads
  rwa [args_of_found found]

namespace Layout

variable {σ φ : Type} {catalog : Catalog σ φ} {limit : Nat} {fields : List (Field (Typed σ))}
variable {controls : List (Registered σ)} {p : Program σ φ} (layout : Layout catalog limit fields controls p)
variable {r : Nat} {node : Node σ} {typing : Typing σ} {args : List (Typed σ)}
variable (part : .call typing args ∈ fields.flatMap (·.tree.subtrees)) (found : p.nodes[r]? = some node)
variable (made : Allocation.Made layout.made.registers node (.call typing args))
include part found made

theorem admits_own {v : Value} (admits : typing.binding.chosen.entry.output.Admits v) : p.Admits r v := by
  intro choice covers
  have within := p.branchings_typeOf (.register r)
  rw [Program.typeOf_register found] at within ⊢
  have typed := layout.callType_eq part made
  rw [Typed.callType] at typed
  cases output : typing.binding.chosen.entry.output with
  | untyped | resolved resolve =>
    rw [output] at admits
    exact admits.elim
  | fixed element =>
    rw [output] at admits typed
    rw [← Except.ok.inj typed]
    exact admits
  | variants elements =>
    rw [output] at admits typed
    have type := Except.ok.inj typed
    rw [← type] at within ⊢
    obtain ⟨branch, member, -, i, -, -, same⟩ := TypeTree.select_variants (covers.mono within)
    obtain ⟨element, held, rfl⟩ := List.mem_map.mp member
    rw [same]
    exact admits element held

theorem admits_computed {resolve : List FieldType → Option FieldType}
    (output : typing.binding.chosen.entry.output = .resolved resolve) {v : Value} (admits : p.AdmitsComputed r resolve v) :
    p.Admits r v := by
  intro choice covers
  have selected := layout.select_call part made output covers
  have known := admits choice covers
  rw [Program.args_of_found found, Program.typeOf_register found, selected] at known
  rw [Program.typeOf_register found, selected]
  rw [TypeTree.combinedUnder, List.map_map] at known ⊢
  split
  next => rfl
  next alive =>
    rw [if_neg alive] at known
    rw [Typed.resolvedType] at known ⊢
    split
    next type resolved =>
      refine known (fun arg member dead => alive ?_) (.unregistered _ type) ?_ resolved
      · exact List.any_eq_true.mpr ⟨_, List.mem_map_of_mem member, decide_eq_true dead⟩
      · simp only [Function.comp_def] at resolved ⊢
        rw [resolved]
    next => rfl

end Layout

private theorem Allocation.Regular.part {σ : Type} {tree node : Bound σ} (regular : Regular tree) (member : node ∈ tree.subtrees) :
    Regular node := by
  induction tree using Tree.induct with
  | raw mark => exact List.mem_singleton.mp member ▸ regular
  | constant value => exact List.mem_singleton.mp member ▸ regular
  | call binding args ih =>
    rcases Tree.mem_subtrees_call.mp member with ⟨arg, held, inside⟩ | rfl
    · exact ih arg held (regular.arg held) inside
    · exact regular

namespace Library

open Allocation (Made Regular)

/-- A register represents a call of an entry: it has arguments and a type as the entry asks for. -/
structure Represents (p : Program Instance PacketFilter) (r : Nat) (entry : Entry Instance) : Prop where
  found : p.EntryAt r entry
  own : ∀ v, entry.output.Admits v → p.Admits r v
  computed : ∀ resolve, entry.output = .resolved resolve → ∀ v, p.AdmitsComputed r resolve v → p.Admits r v
  single : entry.arguments = [.packetFeature] → entry.implicitInput = false →
    ∃ q, p.args r = [.register q] ∧ ∀ other, p.EntryAt q other → other.result = .packetFeature ∨ other.result = .matchType
  several : ∀ op, entry = operatorEntry op → 2 ≤ (p.args r).length

theorem tcpEnd_of_control {entry : Entry Instance} (member : entry ∈ entries) (result : entry.result = .control) :
    entry = controlEntry "_tcpEnd" (.tcpEnd false false) := by
  have listed : entries.filter (·.result == .control) = [controlEntry "_tcpEnd" (.tcpEnd false false)] := rfl
  exact eq_of_listed listed member (beq_iff_eq.mpr result)

section Stages

variable {limit : Nat} {s : Specification} {p : Program Instance PacketFilter}
variable (stages : Specification.Stages catalog limit s p)
include stages

theorem registered_control {control : Registered Instance} (member : control ∈ stages.controls) :
    control.entry ∈ entries ∧ control.entry.result = .control :=
  ⟨(stages.control_entry member).1, (stages.control_entry member).2.1⟩

theorem erased_part {part : Typed Instance} (member : part ∈ stages.typed.flatMap (·.tree.subtrees)) :
    Filled part.erase ∧ Regular part.erase := by
  obtain ⟨field, held, inside⟩ := List.mem_flatMap.mp member
  obtain ⟨json, -, e, bound, resolved⟩ := forall₂_mem_right (resolved_of_stages stages) held
  have below := Tree.mem_subtrees_map id Typing.binding inside
  have filled := settled_filled resolved.written (by decide) resolved.takes
  have regular := resolved.regular.1
  rw [← resolved.erased] at filled regular
  exact ⟨filled.part below, regular.part below⟩

variable (layout : Layout catalog limit stages.typed stages.controls p)
include layout

/-- What fills a kind that is not raw is a register whose entry has results of this kind or takes any, or a constant. -/
theorem kind_of_argument {kind : Kind} (asked : kind.isRaw = false) {arg : Argument} {tree : Typed Instance}
    (part : tree ∈ stages.typed.flatMap (·.tree.subtrees)) (denotes : Allocation.Denotes layout.made.registers arg tree)
    (fills : Fills kind tree.erase) : ∃ q, arg = .register q ∧
      ∀ other, p.EntryAt q other → other.result = kind ∨ other.result = .matchType := by
  have suits : Allocation.Suits kind tree.erase := by
    generalize tree.erase = bound at fills
    cases fills with
    | suits suits => exact suits
    | raw mark raw => cases asked.symm.trans raw
    | selected args raw own => cases asked.symm.trans raw
  cases arg with
  | raw =>
    cases denotes
    exact suits.elim
  | register q =>
    refine ⟨q, rfl, fun other found => ?_⟩
    obtain ⟨node, held, made⟩ := layout.made_of_denotes (layout.wellTyped part) denotes
    obtain ⟨node', chosen, held', varies', entered, rfl⟩ := found
    cases held.symm.trans held'
    have regular := (erased_part stages part).2
    cases made with
    | constant plain type known args entry key => cases entry.symm.trans entered
    | call plain type varies entry key each =>
      cases entry.symm.trans entered
      rw [Typed.erase_call] at regular suits
      cases regular with
      | own each fixed working own => exact .inl (own.trans suits)
      | taken each taken suits => exact .inr taken

theorem represents {r : Nat} {node : Node Instance} {chosen : Registered Instance} (found : p.nodes[r]? = some node)
    (entered : node.entry = some chosen) : chosen.entry ∈ entries ∧ Represents p r chosen.entry := by
  rcases layout.node_cases found with ⟨position, control, member, rfl⟩ | ⟨tree, part, -, made⟩
  · cases entered
    obtain ⟨registered, result⟩ := registered_control stages member
    have same := tcpEnd_of_control registered result
    refine ⟨registered, ⟨_, _, found, rfl, rfl, rfl⟩, ?_, ?_, ?_, ?_⟩
    all_goals rw [same]
    · exact fun v admits => admits.elim
    · exact fun resolve output => nomatch output
    · exact fun asked => nomatch asked
    · exact fun op same => nomatch congrArg Entry.result same
  · have well := layout.wellTyped part
    have filled := (erased_part stages part).1
    cases made with
    | constant plain type known args entry key => cases entry.symm.trans entered
    | call plain type varies entry key each =>
      cases entry.symm.trans entered
      rename_i typing args
      have made := Made.call plain type varies entry key each
      have registered : typing.binding.chosen ∈ catalog.registered := by
        cases well with
        | call registered key typed inside => exact registered
      rw [Typed.erase_call] at filled
      refine ⟨Catalog.mem_entries registered, ⟨node, _, found, varies, entry, rfl⟩, ?_, ?_, ?_, ?_⟩
      · exact fun v => layout.admits_own part found made
      · exact fun resolve output v => layout.admits_computed part found made output
      · intro asked explicit
        obtain ⟨only, same, fills⟩ := filled.one asked nofun nofun explicit
        obtain ⟨tree, rfl, rfl⟩ := List.map_eq_singleton_iff.mp same
        obtain ⟨arg, rest, denotes, nothing, single⟩ := List.forall₂_cons_right_iff.mp each
        rw [List.forall₂_nil_right_iff.mp nothing] at single
        have inside : tree ∈ stages.typed.flatMap (·.tree.subtrees) := by
          obtain ⟨field, held, within⟩ := List.mem_flatMap.mp part
          have inside := Tree.subtrees_trans (Tree.mem_subtrees_arg (List.mem_singleton_self _)) within
          exact List.mem_flatMap.mpr ⟨field, held, inside⟩
        obtain ⟨q, rfl, fed⟩ := kind_of_argument stages layout rfl inside denotes fills
        exact ⟨q, (Program.args_of_found found).trans single, fed⟩
      · intro op same
        cases filled with
        | call asked fills inside =>
          rw [same] at asked fills
          obtain ⟨several, rfl⟩ := Binds.argumentKinds_operator op asked
          have count := fills.length_eq
          rw [List.length_append, List.length_map, List.length_replicate, List.length_map] at count
          rw [Program.args_of_found found, each.length_eq]
          omega

end Stages

end Library

end FlowMetering
