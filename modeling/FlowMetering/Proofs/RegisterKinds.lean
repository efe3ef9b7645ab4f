import FlowMetering.Proofs.AllocatedTrees
import FlowMetering.Proofs.HeldTrees

/-! Registers that refer to lowered expressions stand for them. Keys leave out the kind that a register is made for, so an
operator may be shared between kinds; where an argument determines the kind, there is only one. -/

namespace FlowMetering.Library

open Allocation (Refers Regular Suits Tidy)

variable {φ : Type} {catalog : Catalog Instance φ} {nodes : List (Node Instance)}

theorem refers_plain {arg : Argument} {tree : Bound Instance} (refers : Refers nodes arg tree) :
    Refers nodes arg (plain tree) := by
  induction refers with
  | raw mark => exact .raw ()
  | constant found known args entry => exact .constant found known args entry
  | call found varies entry ordinary count each ih =>
    rw [plain, Tree.map_call]
    refine .call found varies entry ordinary (count.trans (List.length_map _).symm) fun pair paired => ?_
    rw [List.zip_map_right] at paired
    obtain ⟨⟨arg, tree⟩, member, rfl⟩ := List.mem_map.mp paired
    exact ih _ member

theorem shared_of_tidy (tidy : Tidy catalog nodes) : Shared nodes where
  constants r node value found known := by
    rcases tidy.held r node found with ⟨value', scalar, refers, key⟩ | ⟨binding, args, drawn, regular, refers, kind, key⟩
    · cases refers with
      | constant found' known' args entry =>
        obtain rfl := Option.some.inj (found.symm.trans found')
        rw [key, Option.some.inj (known.symm.trans known')]
    · cases refers with
      | call found' varies entry plain count each =>
        obtain rfl := Option.some.inj (found.symm.trans found')
        rw [varies] at known
        cases known
  calls r node chosen found entry := by
    rcases tidy.held r node found with ⟨value', scalar, refers, key⟩ | ⟨binding, args, drawn, regular, refers, kind, key⟩
    · cases refers with
      | constant found' known args entry' =>
        obtain rfl := Option.some.inj (found.symm.trans found')
        rw [entry'] at entry
        cases entry
    · cases refers with
      | call found' varies entry' plain count each =>
        obtain rfl := Option.some.inj (found.symm.trans found')
        rw [key, Option.some.inj (entry.symm.trans entry')]
  distinct := tidy.distinct

/-- The kind of a register that its entry or its arguments leave no choice. -/
inductive Determined (nodes : List (Node Instance)) : Nat → Kind → Prop
  | own {r : Nat} {node : Node Instance} {chosen : Registered Instance} {kind : Kind} (found : nodes[r]? = some node)
    (entry : node.entry = some chosen) (result : chosen.entry.result = kind) (fixed : kind ≠ .matchType) :
    Determined nodes r kind
  | taken {r q : Nat} {node : Node Instance} {chosen : Registered Instance} {kind : Kind} (found : nodes[r]? = some node)
    (entry : node.entry = some chosen) (result : chosen.entry.result = .matchType) (member : .register q ∈ node.args)
    (determined : Determined nodes q kind) : Determined nodes r kind

private theorem Determined.of_refers {r : Nat} {kind : Kind} (determined : Determined nodes r kind) {binding : Binding Instance}
    {args : List (Bound Instance)} (refers : Refers nodes (.register r) (.call binding args))
    (regular : Regular (.call binding args)) : binding.kind = kind := by
  induction determined generalizing binding args with
  | own found entry result fixed =>
    cases refers with
    | call found' varies entry' plain count each =>
      obtain rfl := Option.some.inj (found.symm.trans found')
      obtain rfl := Option.some.inj (entry.symm.trans entry')
      cases regular with
      | own each fixed' working kind => exact kind.symm.trans result
      | taken each taken suits => exact absurd (result.symm.trans taken) fixed
  | taken found entry result member determined ih =>
    cases refers with
    | call found' varies entry' plain count each =>
      obtain rfl := Option.some.inj (found.symm.trans found')
      obtain rfl := Option.some.inj (entry.symm.trans entry')
      cases regular with
      | own each' fixed working kind => exact absurd result fixed
      | taken regulars taken suits =>
        obtain ⟨tree, paired⟩ := exists_zip_right count member
        have inside := (List.of_mem_zip paired).2
        have suit := suits tree inside
        have below := regulars tree inside
        have held := each _ paired
        cases tree with
        | raw mark => exact suit.elim
        | constant value =>
          cases held with
          | constant found'' known args entry'' =>
            cases determined with
            | own found entry result fixed =>
              obtain rfl := Option.some.inj (found.symm.trans found'')
              rw [entry''] at entry
              cases entry
            | taken found entry result member determined =>
              obtain rfl := Option.some.inj (found.symm.trans found'')
              rw [entry''] at entry
              cases entry
        | call binding' args' => exact suit.symm.trans (ih held below)

private theorem Determined.entry {r : Nat} {kind : Kind} (determined : Determined nodes r kind) :
    ∃ (node : Node Instance) (chosen : Registered Instance), nodes[r]? = some node ∧ node.entry = some chosen := by
  cases determined with
  | own found entry result fixed => exact ⟨_, _, found, entry⟩
  | taken found entry result member determined => exact ⟨_, _, found, entry⟩

private theorem Determined.kind_eq (tidy : Tidy catalog nodes) {r : Nat} {kind : Kind} (determined : Determined nodes r kind)
    {node : Node Instance} (found : nodes[r]? = some node) : node.kind = kind := by
  rcases tidy.held r node found with ⟨value, scalar, refers, key⟩ | ⟨binding, args, drawn, regular, refers, made, key⟩
  · obtain ⟨node', chosen, found', entry⟩ := determined.entry
    cases refers with
    | constant found'' known args entry' =>
      obtain rfl := Option.some.inj (found'.symm.trans found'')
      rw [entry'] at entry
      cases entry
  · exact made.trans (determined.of_refers refers regular)

private theorem runs_call (tidy : Tidy catalog nodes) {kind : Kind} {binding : Binding Instance} {trees : List Plain}
    (same : binding.kind = kind) {r : Nat} (determined : Determined nodes r kind)
    (refers : Refers nodes (.register r) (.call binding trees))
    (each : ∀ tree ∈ trees, ∀ arg, Refers nodes arg tree → Runs nodes arg tree) :
    Runs nodes (.register r) (.call binding trees) := by
  cases refers with
  | call found varies entry plain count refers =>
    refine .call found varies entry ((determined.kind_eq tidy found).trans same.symm) plain count fun pair paired => ?_
    exact each pair.2 (List.of_mem_zip paired).2 pair.1 (refers pair paired)

/-- What an argument that refers to a tree comes to: it stands for the tree, and a register that is no constant has the
kind of its role. -/
structure Stands (nodes : List (Node Instance)) (role : Role) (arg : Argument) (tree : Plain) : Prop where
  runs : Runs nodes arg tree
  determined : constant? tree = none → ∃ r, arg = .register r ∧ Determined nodes r role.kind

private theorem stands_own (tidy : Tidy catalog nodes) {role : Role} {binding : Binding Instance} {trees : List Plain}
    (own : Own binding role) {arg : Argument} (refers : Refers nodes arg (.call binding trees))
    (each : ∀ tree ∈ trees, ∀ arg, Refers nodes arg tree → Runs nodes arg tree) :
    Stands nodes role arg (.call binding trees) := by
  cases arg with
  | raw => cases refers
  | register r =>
    have determined : Determined nodes r role.kind := by
      cases refers with
      | call found varies entry plain count refers => exact .own found entry own.result (by cases role <;> exact nofun)
    exact ⟨runs_call tidy own.kind determined refers each, fun _ => ⟨r, rfl, determined⟩⟩

private theorem runs_constant {arg : Argument} {value : Value} (refers : Refers nodes arg (.constant value : Plain)) :
    Runs nodes arg (.constant value) := by
  cases refers with
  | constant found known args entry => exact .constant found known args entry

/-- Where the input stands for itself, so does whatever an expression is lowered to. -/
theorem Lowers.stands (tidy : Tidy catalog nodes) {role : Role} {e : Expression} {input tree : Plain}
    (lowers : Lowers role e input tree) (base : ∀ arg, Refers nodes arg input → Runs nodes arg input) {arg : Argument}
    (refers : Refers nodes arg tree) : Stands nodes role arg tree := by
  have raw : ∀ arg, Refers nodes arg (.raw () : Plain) → Runs nodes arg (.raw ()) := by
    intro arg refers
    cases refers
    exact .raw
  induction lowers generalizing arg with
  | constant other => exact ⟨runs_constant refers, nofun⟩
  | packetSource found built reads own => exact stands_own tidy own refers (List.forall_mem_singleton.mpr base)
  | flowSource found built sums own => exact stands_own tidy own refers (List.forall_mem_singleton.mpr base)
  | aggregate found built collects lowers own ih =>
    exact stands_own tidy own refers (List.forall_mem_singleton.mpr fun arg refers => (ih base refers).runs)
  | operator other built count lowers varies result kind ih =>
    rename_i role op args input trees binding
    have each : ∀ tree ∈ trees, ∀ arg, Refers nodes arg tree → Stands nodes role arg tree := by
      intro tree member arg refers
      obtain ⟨e, paired⟩ := exists_zip_left count member
      exact ih _ paired base refers
    cases arg with
    | raw => cases refers
    | register r =>
      have determined : Determined nodes r role.kind := by
        obtain ⟨tree, member, unknown⟩ := varies
        cases refers with
        | call found varies entry plain count refers =>
          obtain ⟨arg, paired⟩ := exists_zip_left count member
          obtain ⟨q, rfl, determined⟩ := (each tree member arg (refers _ paired)).determined unknown
          exact .taken found entry result (List.of_mem_zip paired).1 determined
      exact ⟨runs_call tidy kind determined refers fun tree member arg refers => (each tree member arg refers).runs,
        fun _ => ⟨r, rfl, determined⟩⟩
  | map selects lowers ihs ih => exact ih (fun arg refers => (ihs base refers).runs) refers
  | mapConstant lowers ih => exact ih raw refers
  | apply selects lowers ihs ih => exact ih (fun arg refers => (ihs base refers).runs) refers
  | applyGrounded grounded lowers ih => exact ih raw refers
  | direction built own => exact stands_own tidy own refers (List.forall_mem_singleton.mpr base)
  | select built lowers own ih =>
    exact stands_own tidy own refers (List.forall_mem_cons.mpr
      ⟨fun arg refers => (ih base refers).runs, List.forall_mem_singleton.mpr base⟩)
  | sliceFrom built own =>
    exact stands_own tidy own refers (List.forall_mem_cons.mpr
      ⟨fun arg refers => runs_constant refers, List.forall_mem_singleton.mpr base⟩)
  | sliceBetween built own =>
    exact stands_own tidy own refers (List.forall_mem_cons.mpr ⟨fun arg refers => runs_constant refers,
      List.forall_mem_cons.mpr ⟨fun arg refers => runs_constant refers, List.forall_mem_singleton.mpr base⟩⟩)

end FlowMetering.Library
