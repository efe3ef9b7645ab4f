import FlowMetering.Library.Catalog
import FlowMetering.Proofs.CompiledRegisters
import Mathlib.Logic.Relation

/-! The wiring of compiled programs. Registers read earlier ones only, who waits for whom is the reverse of that, and no
register is left over: each is reached from an export or is a control. -/

namespace FlowMetering

namespace Program

variable {σ φ : Type} (p : Program σ φ)

/-- Enters a register among those that wait for another one, unless it has just been entered there. -/
def enter (r : Nat) (waiting : List Nat) : List Nat :=
  if waiting.getLast? = some r then waiting else waiting ++ [r]

/-- Enters a register with one of its arguments. Nobody waits for constants. -/
def wire (r : Nat) (table : List (List Nat)) (a : Nat) : List (List Nat) :=
  if p.isConstant a then table else table.modify a (enter r)

/-- Who waits for whom, found in one pass over the arguments of all registers. -/
def dependentTable : List (List Nat) :=
  (List.range p.size).foldl (fun table r => (p.arguments r).foldl (p.wire r) table) (List.replicate p.size [])

def waitingBelow (bound a : Nat) : List Nat :=
  if p.isConstant a then [] else (List.range bound).filter fun r => (p.arguments r).contains a

@[simp] theorem enter_enter (r : Nat) (waiting : List Nat) : enter r (enter r waiting) = enter r waiting := by
  by_cases last : waiting.getLast? = some r
  · simp [enter, last]
  · simp [enter, last]

theorem enter_of_lt {r : Nat} {waiting : List Nat} (below : ∀ q ∈ waiting, q < r) : enter r waiting = waiting ++ [r] := by
  refine if_neg fun last => ?_
  exact Nat.lt_irrefl r (below r (List.mem_of_getLast? last))

theorem lt_of_mem_waitingBelow {bound a r : Nat} (member : r ∈ p.waitingBelow bound a) : r < bound := by
  unfold waitingBelow at member
  split at member
  · cases member
  · exact List.mem_range.mp (List.mem_of_mem_filter member)

theorem waitingBelow_succ (bound a : Nat) :
    p.waitingBelow (bound + 1) a =
      if p.isConstant a = false ∧ a ∈ p.arguments bound then p.waitingBelow bound a ++ [bound]
      else p.waitingBelow bound a := by
  unfold waitingBelow
  rw [List.range_succ, List.filter_append]
  by_cases read : a ∈ p.arguments bound <;> cases p.isConstant a <;> simp [read]

theorem getElem?_wire (r a b : Nat) (table : List (List Nat)) :
    (p.wire r table b)[a]? =
      table[a]?.map fun waiting => if p.isConstant a = false ∧ a = b then enter r waiting else waiting := by
  unfold wire
  by_cases same : b = a
  · subst same
    cases p.isConstant b <;> simp
  · cases p.isConstant b <;> simp [same, Ne.symm same]

/-- However often a register reads another one, it is entered there once. -/
theorem getElem?_foldl_wire (r a : Nat) (arguments : List Nat) (table : List (List Nat)) :
    (arguments.foldl (p.wire r) table)[a]? =
      table[a]?.map fun waiting => if p.isConstant a = false ∧ a ∈ arguments then enter r waiting else waiting := by
  induction arguments generalizing table with
  | nil => simp
  | cons b arguments ih =>
    rw [List.foldl_cons, ih, getElem?_wire, Option.map_map]
    congr 1
    funext waiting
    by_cases here : a = b <;> by_cases later : a ∈ arguments <;> cases p.isConstant a <;> simp [here, later]

theorem getElem?_wired (a bound : Nat) :
    ((List.range bound).foldl (fun table r => (p.arguments r).foldl (p.wire r) table) (List.replicate p.size []))[a]? =
      (List.range p.size)[a]?.map (p.waitingBelow bound) := by
  induction bound with
  | zero =>
    by_cases inside : a < p.size <;> simp [inside, waitingBelow]
  | succ bound ih =>
    rw [List.range_succ, List.foldl_append, List.foldl_cons, List.foldl_nil, getElem?_foldl_wire, ih, Option.map_map]
    by_cases inside : a < p.size
    · simp [inside, waitingBelow_succ, enter_of_lt fun q member => p.lt_of_mem_waitingBelow member]
    · simp [inside]

/-- The table lists the dependents of all registers. -/
theorem dependentTable_eq : p.dependentTable = (List.range p.size).map p.dependents := by
  apply List.ext_getElem?
  intro a
  rw [dependentTable, getElem?_wired, List.getElem?_map]
  rfl

def Reads (r q : Nat) : Prop :=
  q ∈ p.arguments r

/-- Registers read earlier ones, and they are called for a packet by what they read or, if they read constants only, by
the packet itself. -/
structure Wired : Prop where
  below : ∀ (r : Nat) (node : Node σ), p.nodes[r]? = some node → ∀ a, .register a ∈ node.args → a < r
  arguments : ∀ (r : Nat) (node : Node σ), p.nodes[r]? = some node →
    (p.arguments r).map Argument.register = node.args.filter (· ≠ .raw)
  constants : ∀ (a : Nat) (node : Node σ), p.nodes[a]? = some node → node.constant.isSome = true → p.dependents a = []
  dependents : ∀ (a : Nat) (node : Node σ), p.nodes[a]? = some node → node.constant = none →
    ∀ r, r ∈ p.dependents a ↔ a ∈ p.arguments r
  ascending : ∀ a, (p.dependents a).Pairwise (· < ·)
  table : p.dependentTable = (List.range p.size).map p.dependents
  reached : ∀ r < p.size, ∃ root ∈ p.exports ++ p.controls, Relation.ReflTransGen p.Reads root r
  ordered : p.events.Pairwise (· < ·)
  events : ∀ r, r ∈ p.events ↔ ∃ node, p.nodes[r]? = some node ∧ node.isControl = false ∧
    (.raw ∈ node.args ∨ node.kind = .packetFeature ∧ node.constant = none ∧ node.args ≠ [] ∧
      ∀ arg ∈ node.args, ∃ a reg, arg = .register a ∧ p.nodes[a]? = some reg ∧ reg.constant.isSome = true)

variable {p}

theorem lt_of_mem_arguments {r a : Nat} (member : a ∈ p.arguments r) : r < p.size := by
  obtain ⟨node, found, -⟩ := mem_arguments.mp member
  exact (List.getElem?_eq_some_iff.mp found).1

theorem isConstant_eq {a : Nat} {node : Node σ} (found : p.nodes[a]? = some node) :
    p.isConstant a = node.constant.isSome := by
  rw [isConstant, node?, found]

theorem isConstant_iff {a : Nat} :
    p.isConstant a = true ↔ ∃ node, p.nodes[a]? = some node ∧ node.constant.isSome = true := by
  unfold isConstant node?
  cases p.nodes[a]? <;> simp

theorem map_register_arguments {r : Nat} {node : Node σ} (found : p.nodes[r]? = some node) :
    (p.arguments r).map Argument.register = node.args.filter (· ≠ .raw) := by
  rw [Program.arguments, node?, found]
  simp only [Node.arguments]
  induction node.args with
  | nil => rfl
  | cons arg args ih => cases arg <;> simp [ih]

/-- A register is clocked if it is a packet feature over constants. -/
theorem isClocked_iff {node : Node σ} :
    p.isClocked node = true ↔ node.kind = .packetFeature ∧ node.constant = none ∧ node.args ≠ [] ∧
      ∀ arg ∈ node.args, ∃ a reg, arg = .register a ∧ p.nodes[a]? = some reg ∧ reg.constant.isSome = true := by
  simp only [isClocked, Bool.and_eq_true, beq_iff_eq, Option.isNone_iff_eq_none, Bool.not_eq_true', List.isEmpty_eq_false_iff,
    List.all_eq_true, and_assoc]
  refine and_congr .rfl (and_congr .rfl (and_congr .rfl (forall₂_congr fun arg _ => ?_)))
  cases arg <;> simp [isConstant_iff]

theorem mem_events_iff {r : Nat} :
    r ∈ p.events ↔ ∃ node, p.nodes[r]? = some node ∧ node.isControl = false ∧
      (.raw ∈ node.args ∨ node.kind = .packetFeature ∧ node.constant = none ∧ node.args ≠ [] ∧
        ∀ arg ∈ node.args, ∃ a reg, arg = .register a ∧ p.nodes[a]? = some reg ∧ reg.constant.isSome = true) := by
  constructor
  · intro member
    have found := List.getElem?_eq_getElem (lt_of_mem_events member)
    obtain ⟨plain, called⟩ := (mem_events found).mp member
    exact ⟨_, found, plain, called.imp_right isClocked_iff.mp⟩
  · rintro ⟨node, found, plain, called⟩
    exact (mem_events found).mpr ⟨plain, called.imp_right isClocked_iff.mpr⟩

end Program

theorem Tree.isRaw_of_part {ρ ι : Type} {tree part : Tree ρ ι} (member : part ∈ tree.subtrees)
    (plain : part.isRaw = false) : tree.isRaw = false := by
  cases tree with
  | raw mark => rw [← List.mem_singleton.mp member, plain]
  | constant value | call head args => rfl

private theorem Allocation.Denotes.isRaw {σ : Type} {registers : List (String × Nat)} {r : Nat} {tree : Typed σ}
    (denotes : Denotes registers (.register r) tree) : tree.isRaw = false := by
  cases denotes with
  | register plain noted => exact plain

namespace Layout

open Allocation

variable {σ φ : Type} {catalog : Catalog σ φ} {limit : Nat} {fields : List (Field (Typed σ))}
variable {controls : List (Registered σ)} {p : Program σ φ} (layout : Layout catalog limit fields controls p)
include layout

omit layout in
theorem part_of_part {tree part : Typed σ} (outer : tree ∈ fields.flatMap (·.tree.subtrees))
    (inner : part ∈ tree.subtrees) : part ∈ fields.flatMap (·.tree.subtrees) := by
  obtain ⟨field, held, within⟩ := List.mem_flatMap.mp outer
  exact List.mem_flatMap.mpr ⟨field, held, Tree.subtrees_trans inner within⟩

theorem register_unique {tree : Typed σ} {r q : Nat} (part : tree ∈ fields.flatMap (·.tree.subtrees))
    (denotes : Denotes layout.made.registers (.register r) tree)
    (denotes' : Denotes layout.made.registers (.register q) tree) : r = q := by
  have typed := layout.wellTyped part
  exact Argument.register.inj ((layout.visited.keyed.argument_eq_iff denotes denotes' typed typed).mpr rfl)

/-- From the register of an expression its parts are reached. -/
theorem reads_part {root part : Typed σ} {r q : Nat} (inside : root ∈ fields.flatMap (·.tree.subtrees))
    (denotes : Denotes layout.made.registers (.register r) root) (member : part ∈ root.subtrees)
    (denotes' : Denotes layout.made.registers (.register q) part) : Relation.ReflTransGen p.Reads r q := by
  induction root using Tree.induct generalizing r with
  | raw mark => cases denotes with | register plain noted => cases plain
  | constant value =>
    obtain rfl := List.mem_singleton.mp member
    rw [layout.register_unique inside denotes denotes']
  | call head args ih =>
    rcases Tree.mem_subtrees_call.mp member with ⟨arg, held, within⟩ | rfl
    · obtain ⟨node, found, made⟩ := layout.made_of_denotes (layout.wellTyped inside) denotes
      have plain := Tree.isRaw_of_part within denotes'.isRaw
      cases made with
      | call _ _ _ _ _ each =>
        obtain ⟨reference, read, denotes⟩ := forall₂_mem_right each held
        cases denotes with
        | raw mark => cases plain
        | register plain noted =>
          apply Relation.ReflTransGen.head (Program.mem_arguments.mpr ⟨node, found, read⟩)
          apply ih arg held _ (.register plain noted) within
          exact part_of_part inside (Tree.mem_subtrees_arg held)
    · rw [layout.register_unique inside denotes denotes']

/-- The expression of a field is exported, if it is no bare raw input. -/
theorem exists_export {field : Field (Typed σ)} (member : field ∈ fields) (plain : field.tree.isRaw = false) :
    ∃ r ∈ p.exports, Denotes layout.made.registers (.register r) field.tree := by
  have listed : field ∈ fields.filter (!·.tree.isRaw) := List.mem_filter.mpr ⟨member, by rw [plain]; rfl⟩
  obtain ⟨e, held, exposes⟩ := forall₂_mem_right layout.marked.exports listed
  refine ⟨e.register, ?_, exposes.denotes⟩
  rw [layout.exports, layout.controlled.exports]
  exact List.mem_map_of_mem held

/-- Every register is reached from what is exported, or from a control. -/
theorem reached {r : Nat} (inside : r < p.size) :
    ∃ root ∈ p.exports ++ p.controls, Relation.ReflTransGen p.Reads root r := by
  have count : p.size = layout.whole.nodes.length := congrArg List.length layout.nodes
  by_cases made : r < layout.made.nodes.length
  · obtain ⟨visit, member, reference⟩ := layout.visited.exists_visit made
    have denotes := layout.visited.denotes visit member
    rw [reference] at denotes
    have part : visit.1 ∈ fields.flatMap (·.tree.subtrees) := layout.trees ▸ List.mem_map_of_mem member
    obtain ⟨field, held, within⟩ := List.mem_flatMap.mp part
    have plain := Tree.isRaw_of_part within denotes.isRaw
    obtain ⟨root, exported, whole⟩ := layout.exists_export held plain
    refine ⟨root, List.mem_append_left _ exported, layout.reads_part ?_ whole within denotes⟩
    exact List.mem_flatMap.mpr ⟨field, held, Tree.mem_subtrees_self _⟩
  · refine ⟨r, List.mem_append_right _ ?_, .refl⟩
    rw [layout.controls, layout.controlled.controls, List.mem_append, List.mem_range'_1]
    right
    omega

end Layout

/-- The registers of a compiled program form an acyclic graph that is rooted in the exports and the controls, and its
edges are known from both ends. -/
theorem Specification.compile_wires {σ φ : Type} {catalog : Catalog σ φ} {limit : Nat} {s : Specification}
    {p : Program σ φ} (compiled : s.compile catalog limit = .ok p) : p.Wired := by
  obtain ⟨stages⟩ := compile_stages compiled
  obtain ⟨layout⟩ := stages.layout
  refine ⟨?_, ?_, ?_, ?_, p.dependents_ascending, p.dependentTable_eq, ?_, ?_, ?_⟩
  · intro r node found a read
    exact compile_ordered compiled r node found _ read
  · intro r node found
    exact Program.map_register_arguments found
  · intro a node found known
    exact if_pos ((Program.isConstant_eq found).trans known)
  · intro a node found varies r
    have changing : p.isConstant a = false := by rw [Program.isConstant_eq found, varies]; rfl
    rw [Program.mem_dependents]
    exact ⟨fun waits => waits.2.2, fun reads => ⟨changing, Program.lt_of_mem_arguments reads, reads⟩⟩
  · intro r inside
    exact layout.reached inside
  · exact List.pairwise_lt_range.filter _
  · intro r
    exact Program.mem_events_iff

/-- An argument that is used twice, a packet feature over constants, and a control. -/
def repeating : Specification where
  features := [
    .array [.string "subtract", Library.callOf ["mean", "ipTotalLength"], Library.callOf ["mean", "ipTotalLength"]],
    .array [.string "count", .array [.string "add", .number (.natural 1), .number (.natural 2)]]]
  control := [.string "_tcpEnd"]
  filter := []

theorem Specification.compile_wires_repeating : ∃ p, repeating.compile Library.catalog 4096 = .ok p ∧
    p.dependentTable = [[1], [2], [], [], [], [6], [], []] ∧ p.events = [0, 5] ∧ p.exports = [2, 6] ∧ p.controls = [7] ∧
    p.Wired := by
  have facts : (repeating.compile Library.catalog 4096).toOption.any (fun p =>
      decide (p.dependentTable = [[1], [2], [], [], [], [6], [], []] ∧ p.events = [0, 5] ∧ p.exports = [2, 6] ∧
        p.controls = [7])) = true := by decide +kernel
  cases compiled : repeating.compile Library.catalog 4096 with
  | error _ =>
    rw [compiled] at facts
    cases facts
  | ok p =>
    rw [compiled] at facts
    obtain ⟨table, events, exports, controls⟩ := of_decide_eq_true facts
    exact ⟨p, rfl, table, events, exports, controls, compile_wires compiled⟩

end FlowMetering
