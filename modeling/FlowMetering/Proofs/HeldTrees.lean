import FlowMetering.Proofs.StopSweeps
import FlowMetering.Proofs.TreeEvaluation

/-! Registers that hold lowered expressions. Where every call of an expression has a register of its own entry and kind,
and equal calls share theirs, the registers make a circuit. -/

namespace FlowMetering.Library

/-- An argument stands for a tree: it is the raw input, or a register with the constant or the call. -/
inductive Runs (nodes : List (Node Instance)) : Argument → Plain → Prop
  | raw : Runs nodes .raw (.raw ())
  | constant {r : Nat} {node : Node Instance} {value : Value} (found : nodes[r]? = some node)
    (known : node.constant = some value) (args : node.args = []) (entry : node.entry = none) :
    Runs nodes (.register r) (.constant value)
  | call {r : Nat} {node : Node Instance} {binding : Binding Instance} {trees : List Plain}
    (found : nodes[r]? = some node) (varies : node.constant = none) (entry : node.entry = some binding.chosen)
    (kind : node.kind = binding.kind) (plain : node.isControl = false) (count : node.args.length = trees.length)
    (each : ∀ pair ∈ node.args.zip trees, Runs nodes pair.1 pair.2) : Runs nodes (.register r) (.call binding trees)

/-- Registers are known by their keys, and no key belongs to two. -/
structure Shared (nodes : List (Node Instance)) : Prop where
  constants : ∀ (r : Nat) (node : Node Instance) (value : Value), nodes[r]? = some node → node.constant = some value → node.key = Typed.constantKey value
  calls : ∀ (r : Nat) (node : Node Instance) (chosen : Registered Instance), nodes[r]? = some node → node.entry = some chosen →
    node.key = Typed.callKey chosen (node.args.map Allocation.argumentKey)
  distinct : (nodes.map (·.key)).Nodup

/-- The raw input and what selections make of it, and what features make of these. -/
inductive Part : Role → Plain → Prop
  | raw : Part .selection (.raw ())
  | lowers {role : Role} {e : Expression} {input tree : Plain} (inside : Part .selection input)
    (lowers : Lowers role e input tree) : Part role tree

/-- A tree that depends on packets only by way of an input. -/
inductive BuiltOver (input : Plain) : Plain → Prop
  | here : BuiltOver input input
  | constant (value : Value) : BuiltOver input (.constant value)
  | call {binding : Binding Instance} {args : List Plain} (each : ∀ arg ∈ args, BuiltOver input arg) :
    BuiltOver input (.call binding args)

private theorem BuiltOver.trans {input between tree : Plain} (outer : BuiltOver between tree) (inner : BuiltOver input between) :
    BuiltOver input tree := by
  induction outer with
  | here => exact inner
  | constant value => exact .constant value
  | call each ih => exact .call ih

private theorem Lowers.builtOver {role : Role} {e : Expression} {input tree : Plain} (lowers : Lowers role e input tree)
    (flow : role ≠ .flow) : BuiltOver input tree := by
  induction lowers with
  | constant other => exact .constant _
  | packetSource found built reads own => exact .call fun arg member => List.mem_singleton.mp member ▸ .here
  | operator other built count lowers varies result kind ih =>
    refine .call fun tree member => ?_
    obtain ⟨arg, paired⟩ := exists_zip_left count member
    exact ih _ paired flow
  | map selects lowers ihs ih => exact (ih nofun).trans (ihs nofun)
  | mapConstant lowers ih => exact .constant _
  | direction built own => exact .call fun arg member => List.mem_singleton.mp member ▸ .here
  | select built lowers own ih =>
    exact .call (List.forall_mem_cons.mpr ⟨ih nofun, List.forall_mem_singleton.mpr .here⟩)
  | sliceFrom built own =>
    exact .call (List.forall_mem_cons.mpr ⟨.constant _, List.forall_mem_singleton.mpr .here⟩)
  | sliceBetween built own =>
    exact .call (List.forall_mem_cons.mpr ⟨.constant _, List.forall_mem_cons.mpr
      ⟨.constant _, List.forall_mem_singleton.mpr .here⟩⟩)
  | flowSource | aggregate | apply | applyGrounded => exact absurd rfl flow

private theorem Part.hasRole {role : Role} {tree : Plain} (part : Part role tree) : Live.HasRole role (awake tree) := by
  induction part with
  | raw => exact rfl
  | lowers inside lowers ih => exact lowers.hasRole ih

private theorem Part.constant (value : Value) : Part .packet (.constant value) :=
  .lowers .raw (.constant nofun)

namespace Runs

variable {nodes : List (Node Instance)}

private theorem tree_unique {arg : Argument} {tree tree' : Plain} (runs : Runs nodes arg tree) (runs' : Runs nodes arg tree') :
    tree = tree' := by
  induction runs generalizing tree' with
  | raw =>
    cases runs'
    rfl
  | constant found known args entry =>
    cases runs' with
    | constant found' known' args' entry' =>
      obtain rfl := Option.some.inj (found.symm.trans found')
      rw [Option.some.inj (known.symm.trans known')]
    | call found' varies entry' kind plain count each =>
      obtain rfl := Option.some.inj (found.symm.trans found')
      rw [varies] at known
      cases known
  | call found varies entry kind plain count each ih =>
    cases runs' with
    | constant found' known args entry' =>
      obtain rfl := Option.some.inj (found.symm.trans found')
      rw [varies] at known
      cases known
    | call found' varies' entry' kind' plain' count' each' =>
      rename_i r node binding trees node' binding' trees'
      obtain rfl := Option.some.inj (found.symm.trans found')
      have chosen : binding.chosen = binding'.chosen := Option.some.inj (entry.symm.trans entry')
      have bindings : binding = binding' := by
        cases binding
        cases binding'
        cases chosen
        cases kind.symm.trans kind'
        rfl
      have args : trees = trees' := List.ext_getElem (count.symm.trans count') fun i small small' =>
        ih _ (getElem_mem_zip count i (count ▸ small)) (each' _ (getElem_mem_zip count' i (count' ▸ small')))
      rw [bindings, args]

private theorem argument_unique (shared : Shared nodes) {arg arg' : Argument} {tree : Plain} (runs : Runs nodes arg tree)
    (runs' : Runs nodes arg' tree) : arg = arg' := by
  have register {r r' : Nat} {node node' : Node Instance} (found : nodes[r]? = some node) (found' : nodes[r']? = some node')
      (same : node.key = node'.key) : Argument.register r = .register r' := by
    have keyed {r : Nat} {node : Node Instance} (found : nodes[r]? = some node) :
        (nodes.map (·.key))[r]? = some node.key := by rw [List.getElem?_map, found]; rfl
    have inside : r < (nodes.map (·.key)).length := (List.getElem?_eq_some_iff.mp (keyed found)).1
    exact congrArg Argument.register
      ((List.getElem?_inj inside shared.distinct).mp ((keyed found).trans (same ▸ (keyed found').symm)))
  induction runs generalizing arg' with
  | raw =>
    cases runs'
    rfl
  | constant found known args entry =>
    cases runs' with
    | constant found' known' args' entry' =>
      exact register found found' ((shared.constants _ _ _ found known).trans (shared.constants _ _ _ found' known').symm)
  | call found varies entry kind plain count each ih =>
    cases runs' with
    | call found' varies' entry' kind' plain' count' each' =>
      rename_i r node binding trees r' node'
      have args : node.args = node'.args := List.ext_getElem (count.trans count'.symm) fun i small small' =>
        ih _ (getElem_mem_zip count i small) (each' _ (getElem_mem_zip count' i small'))
      exact register found found' ((shared.calls _ _ _ found entry).trans
        (args ▸ (shared.calls _ _ _ found' entry').symm))

end Runs

open Classical in
noncomputable def heldTree (nodes : List (Node Instance)) (r : Nat) : Plain :=
  if held : ∃ tree, Runs nodes (.register r) tree then held.choose else .raw ()

noncomputable def heldLive (nodes : List (Node Instance)) (r : Nat) : Live :=
  awake (heldTree nodes r)

def Holds (nodes : List (Node Instance)) (r : Nat) : Prop :=
  ∃ role tree, Part role tree ∧ Runs nodes (.register r) tree

theorem Runs.at_held {nodes : List (Node Instance)} {arg : Argument} {tree : Plain} (runs : Runs nodes arg tree) :
    Live.at (heldLive nodes) arg = awake tree := by
  cases arg with
  | raw =>
    cases runs
    rfl
  | register r =>
    have held : ∃ tree, Runs nodes (.register r) tree := ⟨tree, runs⟩
    rw [Live.at, heldLive, heldTree, dif_pos held, held.choose_spec.tree_unique runs]

variable {φ : Type} {p : Program Instance φ}

private theorem within_of_builtOver (shared : Shared p.nodes) {source arg : Argument} {input tree : Plain}
    (built : BuiltOver input tree) (runs : Runs p.nodes arg tree) (base : Runs p.nodes source input) :
    Within p source arg := by
  induction built generalizing arg with
  | here =>
    obtain rfl := runs.argument_unique shared base
    exact .here
  | constant value =>
    cases runs with
    | constant found known args entry => exact .constant found (Option.isSome_iff_exists.mpr ⟨_, known⟩)
  | call each ih =>
    cases runs with
    | call found varies entry kind plain count runs =>
      refine .call found fun arg member => ?_
      obtain ⟨tree, paired⟩ := exists_zip_right count member
      exact ih tree (List.of_mem_zip paired).2 (runs _ paired)

private theorem Runs.not_constant {arg : Argument} {tree : Plain} (runs : Runs p.nodes arg tree) (unknown : constant? tree = none)
    {r : Nat} (same : arg = .register r) : p.isConstant r = false := by
  cases runs with
  | raw => cases same
  | constant found known args entry => cases unknown
  | call found varies entry kind plain count each =>
    obtain rfl := Argument.register.inj same
    rw [Program.isConstant, Program.node?, found]
    exact Option.isSome_eq_false_iff.mpr (Option.isNone_iff_eq_none.mpr varies)

/-- The wiring of an instance to whatever arguments stand for some trees. -/
private def WiredTo (p : Program Instance φ) (s : Instance) (trees : List Plain) : Prop :=
  ∀ args : List Argument, args.length = trees.length → (∀ pair ∈ args.zip trees, Runs p.nodes pair.1 pair.2) →
    Wiring p (heldLive p.nodes) s args

private theorem placed_call {r : Nat} {binding : Binding Instance} {trees : List Plain} {s : Instance}
    (runs : Runs p.nodes (.register r) (.call binding trees)) (built : instance? binding = some s)
    (wired : WiredTo p (s.startOn (trees.map constant?)) trees) (parts : ∀ tree ∈ trees, ∃ role, Part role tree)
    (free : binding.kind ≠ .packetFeature ∨ ∃ tree ∈ trees, constant? tree = none) :
    Placed p (heldLive p.nodes) (Holds p.nodes) r := by
  have shown : heldLive p.nodes r = awake (.call binding trees) := runs.at_held
  cases runs with
  | call found varies entry kind plain count each =>
    rename_i node
    have args : node.args.map (Live.at (heldLive p.nodes)) = trees.map awake :=
      map_eq_of_zip count fun pair paired => (each pair paired).at_held
    refine .call found varies ?_ (wired node.args count each) (fun q member => ?_) ?_ plain
    · rw [shown, awake_call built, args]
    · obtain ⟨tree, paired⟩ := exists_zip_right count member
      obtain ⟨role, part⟩ := parts tree (List.of_mem_zip paired).2
      exact ⟨role, tree, part, each _ paired⟩
    · rcases free with other | ⟨tree, member, unknown⟩
      · rw [Program.isClocked, kind]
        simp [other]
      · obtain ⟨arg, paired⟩ := exists_zip_left count member
        rw [Program.isClocked, Bool.and_eq_false_iff]
        refine .inr (List.all_eq_false.mpr ⟨arg, (List.of_mem_zip paired).1, ?_⟩)
        cases arg with
        | raw => exact Bool.false_ne_true
        | register q => exact Bool.not_eq_true _ ▸ (each _ paired).not_constant unknown rfl

private theorem wired_single {s : Instance} {role : Role} {tree : Plain} (part : Part role tree) (other : role ≠ .flow) :
    WiredTo p s [tree] := by
  intro args count each
  obtain ⟨arg, rfl⟩ := List.length_eq_one_iff.mp count
  have runs := each (arg, tree) List.mem_cons_self
  refine .single [] role (fun arg member => absurd member List.not_mem_nil) ?_ other
  rw [runs.at_held]
  exact part.hasRole

private theorem slotsOn_held {args : List Argument} {trees : List Plain} (count : args.length = trees.length)
    (each : ∀ pair ∈ args.zip trees, Runs p.nodes pair.1 pair.2) :
    slotsOn (heldLive p.nodes) args = trees.map constant? :=
  map_eq_of_zip count fun pair paired => by rw [(each pair paired).at_held, constant?_awake]

private theorem Lowers.placed (shared : Shared p.nodes) {role : Role} {e : Expression} {input tree : Plain}
    (lowers : Lowers role e input tree) (inside : Part .selection input) {r : Nat}
    (runs : Runs p.nodes (.register r) tree) : Placed p (heldLive p.nodes) (Holds p.nodes) r := by
  have unknown {input : Plain} (inside : Part .selection input) : constant? input = none := by
    rw [← constant?_awake]
    exact inside.hasRole.not_constant
  induction lowers with
  | constant other =>
    have shown := runs.at_held
    cases runs with
    | constant found known args entry =>
      refine .constant found known args shown ?_
      rw [Node.build?, entry]
      rfl
  | packetSource found built reads own =>
    exact placed_call runs built (wired_single inside nofun) (List.forall_mem_singleton.mpr ⟨_, inside⟩)
      (.inr ⟨_, List.mem_singleton_self _, unknown inside⟩)
  | flowSource found built sums own =>
    exact placed_call runs built (wired_single inside nofun) (List.forall_mem_singleton.mpr ⟨_, inside⟩)
      (.inr ⟨_, List.mem_singleton_self _, unknown inside⟩)
  | aggregate found built collects lowers own ih =>
    have part := Part.lowers inside lowers
    exact placed_call runs built (wired_single part nofun) (List.forall_mem_singleton.mpr ⟨_, part⟩)
      (.inl (by rw [own.kind]; exact nofun))
  | operator other built count lowers varies result kind ih =>
    rename_i role op args input trees binding
    have parts : ∀ tree ∈ trees, Part role tree := by
      intro tree member
      obtain ⟨arg, paired⟩ := exists_zip_left count member
      exact .lowers inside (lowers _ paired)
    refine placed_call runs built ?_ (fun tree member => ⟨role, parts tree member⟩) (.inr varies)
    intro refs count' each
    have has : ∀ arg ∈ refs, Live.HasRole role (Live.at (heldLive p.nodes) arg) := by
      intro arg member
      obtain ⟨tree, paired⟩ := exists_zip_right count' member
      rw [(each _ paired).at_held]
      exact (parts tree (List.of_mem_zip paired).2).hasRole
    have changing : ∃ arg ∈ refs, constant? (Live.at (heldLive p.nodes) arg) = none := by
      obtain ⟨tree, member, unknown⟩ := varies
      obtain ⟨arg, paired⟩ := exists_zip_left count' member
      exact ⟨arg, (List.of_mem_zip paired).1, by rw [(each _ paired).at_held, constant?_awake, unknown]⟩
    rw [Instance.startOn_operator, ← slotsOn_held count' each]
    cases role with
    | packet => exact .packetOperator has changing
    | selection => exact absurd rfl other
    | flow => exact .flowOperator has
  | map selects lowers ihs ih => exact ih (.lowers inside selects) runs
  | mapConstant lowers ih => exact ih .raw runs
  | apply selects lowers ihs ih => exact ih (.lowers inside selects) runs
  | applyGrounded grounded lowers ih => exact ih .raw runs
  | direction built own =>
    exact placed_call runs built (wired_single inside nofun) (List.forall_mem_singleton.mpr ⟨_, inside⟩)
      (.inr ⟨_, List.mem_singleton_self _, unknown inside⟩)
  | select built lowers own ih =>
    rename_i arg input tree binding
    have part := Part.lowers inside lowers
    refine placed_call runs built ?_
      (List.forall_mem_cons.mpr ⟨⟨_, part⟩, List.forall_mem_singleton.mpr ⟨_, inside⟩⟩)
      (.inl (by rw [own.kind]; exact nofun))
    intro refs count each
    obtain ⟨condition, source, rfl⟩ := List.length_eq_two.mp count
    have first : Runs p.nodes condition tree := each (condition, tree) (by simp)
    have second : Runs p.nodes source input := each (source, input) (by simp)
    refine .predicate ?_ ?_ (within_of_builtOver shared (lowers.builtOver nofun) first second)
    · rw [first.at_held]
      exact part.hasRole
    · rw [second.at_held]
      exact inside.hasRole
  | sliceFrom built own =>
    rename_i start input binding
    refine placed_call runs built ?_
      (List.forall_mem_cons.mpr ⟨⟨_, .constant start⟩, List.forall_mem_singleton.mpr ⟨_, inside⟩⟩)
      (.inl (by rw [own.kind]; exact nofun))
    intro refs count each
    obtain ⟨known, source, rfl⟩ := List.length_eq_two.mp count
    have first : Runs p.nodes known (.constant start) := each (known, .constant start) (by simp)
    have second : Runs p.nodes source input := each (source, input) (by simp)
    refine .single [known] .selection (List.forall_mem_singleton.mpr ?_) ?_ nofun
    · rw [first.at_held]
      rfl
    · rw [second.at_held]
      exact inside.hasRole
  | sliceBetween built own =>
    rename_i start stop input binding
    refine placed_call runs built ?_
      (List.forall_mem_cons.mpr ⟨⟨_, .constant start⟩, List.forall_mem_cons.mpr ⟨⟨_, .constant stop⟩,
        List.forall_mem_singleton.mpr ⟨_, inside⟩⟩⟩) (.inl (by rw [own.kind]; exact nofun))
    intro refs count each
    obtain ⟨known, known', source, rfl⟩ := List.length_eq_three.mp count
    have first : Runs p.nodes known (.constant start) := each (known, .constant start) (by simp)
    have second : Runs p.nodes known' (.constant stop) := each (known', .constant stop) (by simp)
    have third : Runs p.nodes source input := each (source, input) (by simp)
    refine .single [known, known'] .selection
      (List.forall_mem_cons.mpr ⟨?_, List.forall_mem_singleton.mpr ?_⟩) ?_ nofun
    · rw [first.at_held]
      rfl
    · rw [second.at_held]
      rfl
    · rw [third.at_held]
      exact inside.hasRole

/-- Registers with parts of lowered expressions make a circuit. -/
theorem circuit_of_shared (ordered : p.Ordered) (shared : Shared p.nodes) :
    Circuit p (heldLive p.nodes) (Holds p.nodes) where
  ordered := ordered
  placed r held := by
    obtain ⟨role, tree, part, runs⟩ := held
    cases part with
    | raw => cases runs
    | lowers inside lowers => exact lowers.placed shared inside runs

/-- The trees of registers with parts of lowered expressions are started from the instances that are built for them. -/
theorem built_of_held : Built p (heldLive p.nodes) (Holds p.nodes) := by
  intro r node s held found shown
  obtain ⟨role, tree, part, runs⟩ := held
  have live : heldLive p.nodes r = awake tree := runs.at_held
  rw [live] at shown
  cases runs with
  | constant found' known args entry => cases shown
  | call found' varies entry kind plain count each =>
    rename_i node' binding trees
    obtain rfl := Option.some.inj (found.symm.trans found')
    rw [awake] at shown
    injection shown with heads
    obtain ⟨initial, built, rfl⟩ := Option.map_eq_some_iff.mp heads
    refine ⟨initial, ?_, by rw [slotsOn_held count each]⟩
    rw [Node.build?, entry, kind]
    exact built

end FlowMetering.Library
