import FlowMetering.Proofs.AssembledCatalogs
import FlowMetering.Proofs.BoundFeatures
import FlowMetering.Proofs.CompiledFeatures
import FlowMetering.Proofs.CompiledRegisters

/-! Elimination of rewrites. Lowering carries out the calls of entries without a build, provided that these take two arguments
and no further input; then every register but a constant has something to run, and every feature has a register of its own to
export. Registration does not see to that: it counts the declared arguments, and so lets rewrites with an ellipsis or with an
implicit input through, calls of which survive or leave nothing to export. -/

namespace FlowMetering

variable {σ φ : Type} {catalog : Catalog σ φ} {limit : Nat} {s : Specification} {p : Program σ φ}

namespace Expression

private theorem Written.expandWith {composite? : String → Option Composite} {unfold : Composite → Except Problem Expression}
    (unfolded : ∀ composite e, unfold composite = .ok e → e.Written) {e result : Expression} (written : e.Written)
    (expanded : expandWith composite? unfold e = .ok result) : result.Written := by
  induction written generalizing result with
  | constant scalar =>
    cases expanded
    exact .constant scalar
  | name name =>
    rcases expandWith_call_cases expanded with ⟨composite, -, whole⟩ | ⟨missing, -⟩
    · exact unfolded composite result whole
    · rw [Expression.expandWith, missing] at expanded
      cases expanded
      exact .name name
  | call each ih =>
    rcases expandWith_call_cases expanded with ⟨composite, -, whole⟩ | ⟨-, results, rfl, each⟩
    · exact unfolded composite result whole
    · apply Written.call
      intro result member
      obtain ⟨arg, inside, done⟩ := forall₂_mem_right each member
      exact ih arg inside done

private theorem Written.expand {composite? : String → Option Composite} {depth : Nat} {e result : Expression} (written : e.Written)
    (expanded : e.expand composite? depth = .ok result) : result.Written := by
  induction depth generalizing e result with
  | zero => exact written.expandWith (fun _ _ unfolded => by cases unfolded) expanded
  | succ depth ih =>
    apply written.expandWith _ expanded
    intro composite e unfolded
    obtain ⟨definition, read, unfolded⟩ := bind_eq_ok.mp unfolded
    exact ih (written_ofJson _ _ read) unfolded

end Expression

theorem Tree.isRaw_withInput {ρ ι : Type} (tree input : Tree ρ ι) : (tree.withInput input).isRaw = tree.isRaw := by
  cases tree <;> rfl

/-- Lowering can carry out the calls of an entry without a build: it takes two arguments, and nothing is added to them. -/
private def Entry.Rewrites (e : Entry σ) : Prop :=
  e.arguments.length = 2 ∧ e.isVariadic = false ∧ e.implicitInput = false

namespace Bound

private theorem settled_eliminated (rewrites : ∀ entry ∈ catalog.entries, entry.build = none → entry.Rewrites) {e : Expression}
    (written : e.Written) {required : Kind} {bound : Bound σ} (takes : ofExpression catalog required e = .ok bound) :
    bound.settled.isRaw = false ∧ bound.settled.All (fun _ => True) fun binding => binding.chosen.entry.build ≠ none := by
  induction e using Tree.induct generalizing required bound with
  | raw mark => cases written
  | constant value =>
    rw [ofExpression] at takes
    split at takes
    · cases takes
      exact ⟨rfl, .constant trivial⟩
    · cases takes
  | call name args ih =>
    obtain ⟨candidate, found, bounds, each, rfl⟩ := ofExpression_call takes
    obtain ⟨entered, -, ⟨kinds, asked⟩, -⟩ := Catalog.mem_find found
    rw [asked] at each
    have each := ofExpressions_eq_ok each
    cases built : candidate.entry.build with
    | some build =>
      rw [settled_call built]
      refine ⟨rfl, .call (by simp [built]) (List.forall_mem_append.mpr ⟨List.forall_mem_map.mpr ?_, ?_⟩)⟩
      · intro bound member
        obtain ⟨⟨kind, arg⟩, inside, done⟩ := forall₂_mem_right each member
        have held := (List.of_mem_zip inside).2
        rcases written.args with rfl | written
        · obtain rfl := List.mem_singleton.mp held
          rw [ofExpression] at done
          split at done
          · cases done
            exact .raw _
          · cases done
        · exact (ih arg held (written arg held) done).2
      · split
        · exact List.forall_mem_singleton.mpr (.raw _)
        · exact List.forall_mem_nil _
    | none =>
      obtain ⟨two, fixed, explicit⟩ := rewrites candidate.entry entered built
      obtain ⟨count, rfl⟩ := Entry.argumentKinds_fixed fixed asked
      obtain ⟨feature, selection, rfl⟩ := List.length_eq_two.mp (count.symm.trans two)
      obtain ⟨kind, kind', both⟩ := List.length_eq_two.mp two
      rw [both] at each
      obtain ⟨bound, rest, first, others, rfl⟩ := List.forall₂_cons_left_iff.mp each
      obtain ⟨bound', rest, second, nothing, rfl⟩ := List.forall₂_cons_left_iff.mp others
      obtain rfl := List.forall₂_nil_left_iff.mp nothing
      have written : ∀ arg ∈ [feature, selection], arg.Written :=
        written.args.resolve_left fun same => by cases congrArg List.length same
      rw [List.forall_mem_cons, List.forall_mem_singleton] at written
      obtain ⟨plain, eliminated⟩ := ih feature (by simp) written.1 first
      obtain ⟨-, eliminated'⟩ := ih selection (by simp) written.2 second
      rw [settled_substitution built explicit, Tree.isRaw_withInput]
      exact ⟨plain, eliminated.withInput eliminated'⟩

end Bound

namespace Specification

private theorem prepareField_eliminated (rewrites : ∀ entry ∈ catalog.entries, entry.build = none → entry.Rewrites) {json : Json}
    {field : Field (Typed σ)} (prepared : prepareField catalog limit json = .ok field) : field.tree.isRaw = false ∧
      ∀ typing args, .call typing args ∈ field.tree.subtrees → typing.binding.chosen.entry.build ≠ none := by
  obtain ⟨settled, ⟨expanded, ⟨e, read, unfolds⟩, binds⟩, types⟩ := prepareField_eq_ok.mp prepared
  obtain ⟨bound, takes, rfl⟩ := map_eq_ok.mp binds
  obtain ⟨tree, resolved, rfl⟩ := map_eq_ok.mp types
  have written : expanded.tree.Written := by
    obtain ⟨result, expansion, unfolds⟩ := bind_eq_ok.mp unfolds
    have held := (Expression.written_ofJson json e read).expand expansion
    dsimp only at unfolds
    split at unfolds <;> cases unfolds <;> exact held
  obtain ⟨plain, eliminated⟩ := Bound.settled_eliminated rewrites written takes
  have same : tree.erase = bound.settled := Typed.erase_ofBound resolved
  constructor
  · rw [← same] at plain
    cases tree with
    | raw mark => cases plain
    | constant value => rfl
    | call typing args => rfl
  · intro typing args part
    have part' := Tree.mem_subtrees_map id Typing.binding part
    rw [Tree.map_call] at part'
    exact ((same ▸ eliminated).subtree part').head

end Specification

namespace Allocation

/-- The registers marked as exported are those of the exports, each under its name and once. -/
structure Outward (a : Allocation σ) : Prop where
  marked : ∀ e ∈ a.exports, ∃ node, a.nodes[e.register]? = some node ∧ node.exported = some e.name
  only : ∀ (r : Nat) (node : Node σ), a.nodes[r]? = some node → node.exported ≠ none → ∃ e ∈ a.exports, e.register = r
  distinct : (a.exports.map (·.register)).Nodup

private theorem Outward.empty : Outward (empty : Allocation σ) where
  marked := List.forall_mem_nil _
  only r node found := by cases found
  distinct := List.nodup_nil

private theorem Outward.grow {a b : Allocation σ} (outward : Outward a) (grown : Grown a b) : Outward b := by
  obtain ⟨⟨more, added, unmarked⟩, same⟩ := grown
  refine ⟨?_, ?_, same ▸ outward.distinct⟩
  · intro e held
    obtain ⟨node, found, exported⟩ := outward.marked e (same ▸ held)
    refine ⟨node, ?_, exported⟩
    rw [added, List.getElem?_append_left (List.getElem?_eq_some_iff.mp found).1, found]
  · intro r node found exported
    rw [added] at found
    rw [same]
    by_cases inside : r < a.nodes.length
    · rw [List.getElem?_append_left inside] at found
      exact outward.only r node found exported
    · rw [List.getElem?_append_right (Nat.le_of_not_lt inside)] at found
      exact absurd (unmarked node (List.mem_of_getElem? found)) exported

private theorem Outward.addExport {a b : Allocation σ} {e : Export} (outward : Outward a) (inside : e.register < a.nodes.length)
    (added : a.addExport e = .ok b) : Outward b := by
  rw [Allocation.addExport, List.getElem?_eq_getElem inside] at added
  dsimp only at added
  split at added
  · cases added
  next unmarked =>
    cases added
    have other : ∀ e' ∈ a.exports, e'.register ≠ e.register := by
      intro e' held same
      obtain ⟨node, found, exported⟩ := outward.marked e' held
      rw [same, List.getElem?_eq_getElem inside] at found
      obtain rfl := Option.some.inj found
      simp [exported] at unmarked
    refine ⟨?_, ?_, ?_⟩
    · intro e' held
      rcases List.mem_append.mp held with held | held
      · obtain ⟨node, found, exported⟩ := outward.marked e' held
        exact ⟨node, (List.getElem?_set_ne (other e' held).symm).trans found, exported⟩
      · obtain rfl := List.mem_singleton.mp held
        exact ⟨_, List.getElem?_set_self inside, rfl⟩
    · intro r node found exported
      by_cases here : e.register = r
      · exact ⟨e, by simp, here⟩
      · obtain ⟨e', held, same⟩ := outward.only r node ((List.getElem?_set_ne here).symm.trans found) exported
        exact ⟨e', List.mem_append_left _ held, same⟩
    · simp only [List.map_append, List.map_singleton]
      apply List.nodup_append'.mpr ⟨outward.distinct, List.nodup_singleton _, _⟩
      apply List.disjoint_singleton.mpr
      intro member
      obtain ⟨e', held, same⟩ := List.mem_map.mp member
      exact other e' held same

private theorem Outward.addField {a b : Allocation σ} {position : Nat} {field : Field (Typed σ)} (ordered : a.Ordered)
    (outward : Outward a) (added : a.addField position field = .ok b) : Outward b := by
  have grown := addTree_grown position field.tree a
  have below := (addTree_sound position field.tree a ordered).2
  rw [addField_eq] at added
  split at added
  next r reference =>
    rw [reference] at below
    exact (outward.grow grown).addExport (e := ⟨r, field.name, field.declared, position⟩) below added
  next =>
    cases added
    exact outward.grow grown

private theorem Outward.addFields {fields : List (Field (Typed σ) × Nat)} {a b : Allocation σ} (ordered : a.Ordered)
    (outward : Outward a) (added : fields.foldlM (fun a (field, i) => a.addField (i + 1) field) a = .ok b) : Outward b := by
  have kept : b.Ordered ∧ Outward b := @foldlM_keeps _ _ _ _ (fun a => a.Ordered ∧ Outward a)
    (fun _ _ _ held added => ⟨addField_ordered held.1 added, held.2.addField held.1 added⟩) _ _ _ ⟨ordered, outward⟩ added
  exact kept.2

private theorem Controlled.grown {controls : List (Registered σ)} {a b : Allocation σ} (controlled : Controlled controls a b) :
    Grown a b := by
  obtain ⟨more, added, kinds⟩ := controlled.nodes
  refine ⟨⟨more, added, ?_⟩, controlled.exports⟩
  intro node member
  obtain ⟨position, control, -, rfl⟩ := kinds node member
  rfl

end Allocation

namespace Specification

open Allocation

/-- What is exported for a feature: the register of what it has come to, under its name. -/
def ExportedAt (catalog : Catalog σ φ) (limit : Nat) (p : Program σ φ) (json : Json) (r : Nat) : Prop :=
  ∃ field node, prepareField catalog limit json = .ok field ∧ Refers p.nodes (.register r) field.tree.erase ∧
    p.nodes[r]? = some node ∧ node.exported = some field.name

private theorem Stages.exports (stages : Stages catalog limit s p) (plain : ∀ field ∈ stages.typed, field.tree.isRaw = false) :
    List.Forall₂ (ExportedAt catalog limit p) s.features p.exports ∧ p.exports.Nodup ∧
      ∀ r node, p.nodes[r]? = some node → (node.exported ≠ none ↔ r ∈ p.exports) := by
  obtain ⟨made, done, rest⟩ := bind_eq_ok.mp stages.allocated
  have controlled := addControls_controlled stages.controls.zipIdx made
  rw [List.zipIdx_map_fst, Except.ok.inj rest] at controlled
  have outward : Outward stages.allocation := by
    have start : (empty : Allocation σ).Ordered := fun r node found => by cases found
    exact (Outward.empty.addFields start done).grow controlled.grown
  have nodes : p.nodes = stages.allocation.nodes := program_nodes stages.finished
  have exports : p.exports = stages.allocation.exports.map (·.register) := program_exports stages.finished
  rw [nodes, exports]
  refine ⟨List.forall₂_map_right_iff.mpr ?_, outward.distinct, ?_⟩
  · have marked : Marked catalog limit made stages.typed := by
      rcases addFields_cases .empty stages.wellTyped with ⟨a, done', marked, -⟩ | ⟨i, field, -, -, -, -, failed⟩
      · obtain rfl := Except.ok.inj (done'.symm.trans done)
        exact marked
      · cases failed.symm.trans done
    have shown := marked.exports
    rw [List.filter_eq_self.mpr fun field member => by simp [plain field member], ← controlled.exports] at shown
    have exported := (List.forall₂_and_left _ _).mpr ⟨outward.marked, shown⟩
    have typed := (List.forall₂_and_left _ _).mpr ⟨stages.wellTyped, exported.flip⟩
    refine (forall₂_comp stages.prepared typed).imp ?_
    rintro json e ⟨field, prepared, typed, ⟨node, found, named⟩, exposes⟩
    have refers : Refers p.nodes (.register e.register) field.tree.erase := by
      obtain ⟨more, added, -⟩ := controlled.nodes
      rw [nodes, added]
      exact (marked.keyed.refers typed exposes.denotes).extend (.append _ _)
    exact ⟨field, node, prepared, refers, nodes ▸ found, exposes.name ▸ named⟩
  · intro r node found
    constructor
    · intro exported
      obtain ⟨e, held, rfl⟩ := outward.only r node found exported
      exact List.mem_map_of_mem held
    · intro member
      obtain ⟨e, held, rfl⟩ := List.mem_map.mp member
      obtain ⟨node', found', exported⟩ := outward.marked e held
      obtain rfl := Option.some.inj (found.symm.trans found')
      simp [exported]

/-- Over a catalog of registrations whose rewrites take two arguments and nothing else, every register but a constant has
something to run, and each feature has a register of its own that is exported for it, in the order of the features. -/
theorem compile_eliminates (assembled : catalog.Assembled)
    (plain : ∀ e ∈ catalog.entries, e.build = none → e.isVariadic = false ∧ e.implicitInput = false)
    (compiled : s.compile catalog limit = .ok p) :
    (∀ (r : Nat) (node : Node σ), p.nodes[r]? = some node → node.constant = none → node.build?.isSome = true) ∧
      List.Forall₂ (ExportedAt catalog limit p) s.features p.exports ∧ p.exports.Nodup ∧
      ∀ (r : Nat) (node : Node σ), p.nodes[r]? = some node → (node.exported ≠ none ↔ r ∈ p.exports) := by
  have rewrites : ∀ e ∈ catalog.entries, e.build = none → e.Rewrites := fun e entered missing =>
    ⟨Entry.arguments_of_defect? (assembled.sound e entered) missing, plain e entered missing⟩
  obtain ⟨stages⟩ := compile_stages compiled
  have eliminated : ∀ field ∈ stages.typed, field.tree.isRaw = false ∧
      ∀ typing args, .call typing args ∈ field.tree.subtrees → typing.binding.chosen.entry.build ≠ none := by
    intro field member
    obtain ⟨json, -, prepared⟩ := forall₂_mem_right stages.prepared member
    exact prepareField_eliminated rewrites prepared
  refine ⟨?_, stages.exports fun field member => (eliminated field member).1⟩
  intro r node found varies
  obtain ⟨layout⟩ := stages.layout
  rcases layout.node_cases found with ⟨position, control, member, rfl⟩ | ⟨tree, part, -, made⟩
  · obtain ⟨entered, -, arguments⟩ := stages.control_entry member
    apply Option.isSome_iff_ne_none.mpr
    intro missing
    have two := (rewrites control.entry entered missing).1
    simp [arguments] at two
  · obtain ⟨field, member, part⟩ := List.mem_flatMap.mp part
    cases made with
    | constant plain type known args entry key =>
      rw [known] at varies
      cases varies
    | call plain type varies entry key each =>
      rw [Node.build?, entry]
      exact Option.isSome_iff_ne_none.mpr ((eliminated field member).2 _ _ part)

end Specification

def partlySelected : Specification where
  features := [
    .array [.string "apply", .string "packetTotalCount", .array [.string "select_slice", .number (.natural 0),
      .number (.natural 2)]],
    .string "packetTotalCount"]
  control := [.string "_tcpEnd"]
  filter := []

theorem Specification.compile_eliminates_partlySelected : ∃ p, partlySelected.compile Library.catalog 4096 = .ok p ∧
    p.exports = [3, 4] ∧
    (∀ (r : Nat) (node : Node Library.Instance), p.nodes[r]? = some node → node.constant = none →
      node.build?.isSome = true) ∧
    List.Forall₂ (ExportedAt Library.catalog 4096 p) partlySelected.features p.exports := by
  have plain : Library.catalog.entries.all (fun e => e.build.isSome || !e.isVariadic && !e.implicitInput) = true := by
    decide +kernel
  have facts : (partlySelected.compile Library.catalog 4096).toOption.any (fun p => decide (p.exports = [3, 4])) = true := by
    decide +kernel
  obtain ⟨p, compiled, exports⟩ := ok_of_any facts
  have eliminated := compile_eliminates Library.assembled (fun e entered missing => by
    simpa [missing] using List.all_eq_true.mp plain e entered) compiled
  exact ⟨p, compiled, exports, eliminated.1, eliminated.2.1⟩

/-- A rewrite with an ellipsis, and another with a further input. -/
def Catalog.loose : Catalog Library.Instance Library.PacketFilter where
  entries := [
    ⟨"kept", .flowFeature, [.rawFlow, .ellipsis], .untyped, none, false⟩,
    ⟨"lost", .flowFeature, [.rawFlow, .ellipsis], .untyped, none, true⟩]
  composites := []
  filters := []

/-- Both can be registered. A call of the first survives, and one of the second leaves nothing to export. -/
theorem Catalog.loose_rewrites_survive : loose.Assembled ∧
    (∃ p node, (Specification.ofFeatures [.string "kept"]).compile loose 4096 = .ok p ∧ p.nodes[0]? = some node ∧
      node.constant = none ∧ node.build? = none) ∧
    ∃ p, (Specification.ofFeatures [.string "lost"]).compile loose 4096 = .ok p ∧ p.exports = [] := by
  refine ⟨assembled_entries (by decide) (by decide), ?_, ?_⟩
  · exact ⟨_, _, rfl, rfl, rfl, rfl⟩
  · exact ⟨_, rfl, rfl⟩

end FlowMetering
