import FlowMetering.Proofs.FeatureLowering
import FlowMetering.Proofs.RegisterKinds

/-! Compiled specifications export what their features say. Whatever else is compiled along with a feature, the row of a
record has at the place of the feature the value that the packets give it. -/

namespace FlowMetering

open Library

private theorem Tree.All.map {ρ ι ρ' : Type} {onValue : Value → Prop} {onHead : ι → Prop} (f : ρ → ρ') {tree : Tree ρ ι}
    (all : All onValue onHead tree) : All onValue onHead (tree.map f id) := by
  induction all with
  | raw mark => exact .raw _
  | constant held => exact .constant held
  | call held each ih =>
    rw [map_call]
    exact .call held (List.forall_mem_map.mpr ih)

theorem Typed.erase_ofBound {σ : Type} {limit : Nat} {tree : Bound σ} {typed : Typed σ}
    (resolved : ofBound limit tree = .ok typed) : typed.erase = tree := by
  induction tree using Tree.induct generalizing typed with
  | raw mark =>
    cases resolved
    rfl
  | constant value =>
    cases resolved
    rfl
  | call binding args ih =>
    rw [ofBound] at resolved
    obtain ⟨types, each, resolved⟩ := bind_eq_ok.mp resolved
    dsimp only at resolved
    split at resolved
    next type called =>
      cases resolved
      rw [erase_call]
      have same := ofBounds_eq_ok.mp each
      clear each called resolved
      refine congrArg (Tree.call binding) ?_
      induction same with
      | nil => rfl
      | cons first rest ih' =>
        rw [List.map_cons, ih _ List.mem_cons_self first, ih' fun arg member => ih arg (List.mem_cons_of_mem _ member)]
    next => cases resolved

namespace Library

/-- What a feature has come to when it has its types. -/
structure Resolved (limit : Nat) (json : Json) (e : Expression) (bound : Bound Instance) (field : Field (Typed Instance)) :
    Prop where
  read : Expression.ofJson json = .ok e
  takes : Takes .flowFeature (unfolded e) bound
  resolved : Typed.ofBound limit (Bound.settled bound) = .ok field.tree

namespace Resolved

variable {limit : Nat} {json : Json} {e : Expression} {bound : Bound Instance} {field : Field (Typed Instance)}

theorem erased (resolved : Resolved limit json e bound field) : field.tree.erase = Bound.settled bound :=
  Typed.erase_ofBound resolved.resolved

theorem written (resolved : Resolved limit json e bound field) : (unfolded e).Written :=
  written_unfolded (Expression.written_ofJson json e resolved.read)

theorem drawn (resolved : Resolved limit json e bound field) : Bound.Over catalog (Bound.settled bound) :=
  (Bound.over_ofExpression resolved.written.scalar resolved.takes).withImplicitInputs.lower

theorem regular (resolved : Resolved limit json e bound field) :
    Allocation.Regular (Bound.settled bound) ∧ Allocation.Suits .flowFeature (Bound.settled bound) :=
  settled_regular resolved.written (by decide) resolved.takes

private theorem sound (resolved : Resolved limit json e bound field) :
    (plain (Bound.settled bound)).All (fun _ => True) Sound :=
  (settled_sound resolved.drawn resolved.regular.1 resolved.resolved).1.map fun _ => ()

end Resolved

theorem resolved_of_stages {s : Specification} {limit : Nat} {p : Program Instance PacketFilter}
    (stages : Specification.Stages catalog limit s p) :
    List.Forall₂ (fun json field => ∃ e bound, Resolved limit json e bound field) s.features stages.typed := by
  have read := forall₂_comp (Specification.stage_results stages.read) (Specification.stage_results stages.unfolded)
  have bound := forall₂_comp read (Specification.stage_results stages.lowered)
  refine (forall₂_comp bound (Specification.stage_results stages.resolved)).imp ?_
  rintro json field ⟨settled, ⟨expanded, ⟨e, read, unfolds⟩, binds⟩, types⟩
  obtain ⟨bound, takes, rfl⟩ := map_eq_ok.mp binds
  obtain ⟨tree, resolved, rfl⟩ := map_eq_ok.mp types
  rw [field_unfolded unfolds] at takes
  exact ⟨e, bound, read, takes, resolved⟩

/-- What is allocated for the features, before the controls come. -/
theorem exported_of_stages {s : Specification} {limit : Nat} {p : Program Instance PacketFilter}
    (stages : Specification.Stages catalog limit s p) : ∃ made, Allocation.Exported catalog made stages.typed ∧
      stages.allocation = stages.controls.zipIdx.foldl (fun a (control, i) => a.addControl (i + 1) control) made := by
  have field (t : Field (Typed Instance)) (member : t ∈ stages.typed) : ∃ json e bound, Resolved limit json e bound t := by
    obtain ⟨json, -, e, bound, held⟩ := forall₂_mem_right (resolved_of_stages stages) member
    exact ⟨json, e, bound, held⟩
  refine Allocation.fields_exported (fun t member => ?_) (fun t member => ?_) (fun t member => ?_) stages.allocated
  · obtain ⟨json, e, bound, held⟩ := field t member
    exact held.erased ▸ held.drawn
  · obtain ⟨json, e, bound, held⟩ := field t member
    exact held.erased ▸ held.regular.1
  · obtain ⟨json, e, bound, held⟩ := field t member
    intro mark raw
    have suits := held.regular.2
    rw [← held.erased, raw] at suits
    exact suits

/-- A feature and the register that refers to what it has been lowered to. -/
def CompiledTo (nodes : List (Node Instance)) (json : Json) (r : Nat) : Prop :=
  ∃ e bound, Expression.ofJson json = .ok e ∧ Takes .flowFeature (unfolded e) bound ∧
    (plain (Bound.settled bound)).All (fun _ => True) Sound ∧
    Allocation.Refers nodes (.register r) (Bound.settled bound)

/-- The registers that are exported are those of the features. -/
theorem features_compiled {s : Specification} {limit : Nat} {p : Program Instance PacketFilter}
    (stages : Specification.Stages catalog limit s p) {made : Allocation Instance}
    (exported : Allocation.Exported catalog made stages.typed) :
    List.Forall₂ (fun json e => CompiledTo made.nodes json e.register) s.features made.exports := by
  refine (forall₂_comp (resolved_of_stages stages) exported.exports.flip).imp ?_
  rintro json e ⟨t, ⟨expression, bound, held⟩, refers⟩
  exact ⟨expression, bound, held.read, held.takes, held.sound, held.erased ▸ refers⟩

/-- What compiling a specification without controls and filters has come to. -/
structure Compiled (s : Specification) (p : Program Instance PacketFilter) : Prop where
  ordered : p.Ordered
  tidy : Allocation.Tidy catalog p.nodes
  features : List.Forall₂ (CompiledTo p.nodes) s.features p.exports
  uncontrolled : p.controls = []
  unfiltered : p.filters = []

theorem compiled_of_compile {s : Specification} {limit : Nat} {p : Program Instance PacketFilter}
    (compiled : s.compile catalog limit = .ok p) (uncontrolled : s.control = []) (unfiltered : s.filter = []) :
    Compiled s p := by
  obtain ⟨stages⟩ := Specification.compile_stages compiled
  have filters : stages.filters = [] := by
    have filtered := stages.filtered
    rw [unfiltered] at filtered
    exact (Except.ok.inj filtered).symm
  obtain ⟨made, exported, same⟩ := exported_of_stages stages
  rw [stages.controls_eq_nil uncontrolled] at same
  obtain rfl : stages.allocation = made := same
  obtain ⟨template, -, finished⟩ := bind_eq_ok.mp stages.finished
  have nodes : p.nodes = stages.allocation.nodes := Allocation.program_nodes stages.finished
  refine ⟨Specification.compile_ordered compiled, nodes ▸ exported.tidy, ?_,
    (Allocation.program_controls stages.finished).trans exported.controls,
    (congrArg Program.filters (Except.ok.inj finished).symm).trans filters⟩
  rw [nodes, Allocation.program_exports stages.finished]
  exact List.forall₂_map_right_iff.mpr (features_compiled stages exported)

end Library

end FlowMetering
