import FlowMetering.Proofs.CircuitRuns

/-! Programs behind a gate. A gate is a register that lets the packets of one direction through; behind it stand the
registers of another program, which read the gate where the others read the packets. -/

namespace FlowMetering

/-- Where a register stands once a gate has been put in: registers from the place of the gate on move up. -/
def shift (gate : Option Nat) (r : Nat) : Nat :=
  match gate with
  | none => r
  | some g => if r < g then r else r + 1

/-- An argument behind a gate. Where there is none, nothing reads the packets. -/
def Argument.behind (gate : Option Nat) : Argument → Argument
  | .raw => gate.elim .raw .register
  | .register r => .register (shift gate r)

theorem shift_lt_shift {gate : Option Nat} {r q : Nat} : shift gate r < shift gate q ↔ r < q := by
  cases gate with
  | none => exact Iff.rfl
  | some g =>
    rw [shift, shift]
    split <;> split <;> omega

theorem shift_inj {gate : Option Nat} {r q : Nat} : shift gate r = shift gate q ↔ r = q := by
  cases gate with
  | none => exact Iff.rfl
  | some g =>
    rw [shift, shift]
    split <;> split <;> omega

theorem shift_ne (g r : Nat) : shift (some g) r ≠ g := by
  rw [shift]
  split <;> omega

/-- Every register but the gate comes from some register. -/
theorem exists_shift {gate : Option Nat} {q : Nat} (other : gate ≠ some q) : ∃ r, shift gate r = q := by
  cases gate with
  | none => exact ⟨q, rfl⟩
  | some g =>
    have apart : g ≠ q := fun same => other (congrArg some same)
    by_cases below : q < g
    · exact ⟨q, if_pos below⟩
    · refine ⟨q - 1, ?_⟩
      rw [shift, if_neg (by omega)]
      omega

private theorem shift_lt {gate : Option Nat} {count r : Nat} (inside : ∀ g, gate = some g → g ≤ count) :
    shift gate r < count + gate.toList.length ↔ r < count := by
  cases gate with
  | none => exact Iff.rfl
  | some g =>
    have small := inside g rfl
    rw [shift, Option.toList_some, List.length_singleton]
    split <;> omega

theorem Argument.behind_inj {gate : Option Nat} {arg arg' : Argument} : arg.behind gate = arg'.behind gate ↔ arg = arg' := by
  have apart (r : Nat) : Argument.behind gate .raw ≠ Argument.behind gate (.register r) := by
    cases gate with
    | none => rintro ⟨⟩
    | some g => exact fun same => shift_ne g r (Argument.register.inj same).symm
  cases arg with
  | raw =>
    cases arg' with
    | raw => exact iff_of_true rfl rfl
    | register r => exact iff_of_false (apart r) nofun
  | register r =>
    cases arg' with
    | raw => exact iff_of_false (fun same => apart r same.symm) nofun
    | register q =>
      rw [behind, behind, Argument.register.injEq, Argument.register.injEq, shift_inj]

/-- The registers are the gate and those that come from others. -/
theorem range_shift {gate : Option Nat} {count : Nat} (inside : ∀ g, gate = some g → g ≤ count) :
    (List.range (count + gate.toList.length)).filter (fun r => decide (gate ≠ some r)) = (List.range count).map (shift gate) := by
  cases gate with
  | none =>
    rw [List.filter_eq_self.mpr fun r _ => decide_eq_true nofun]
    exact (List.map_id _).symm
  | some g =>
    have small := inside g rfl
    clear inside
    rw [Option.toList_some, List.length_singleton]
    induction small with
    | refl =>
      have below : ∀ r ∈ List.range g, decide (some g ≠ some r) = true := fun r member =>
        decide_eq_true fun same => absurd (Option.some.inj same) (Nat.ne_of_gt (List.mem_range.mp member))
      have kept : ∀ r ∈ List.range g, shift (some g) r = id r := fun r member => if_pos (List.mem_range.mp member)
      rw [List.range_succ, List.filter_append, List.filter_eq_self.mpr below, List.map_congr_left kept, List.map_id,
        List.filter_singleton, decide_eq_false fun other => other rfl]
      exact List.append_nil _
    | @step count small ih =>
      have up : shift (some g) count = count + 1 := if_neg (Nat.not_lt.mpr small)
      have apart : some g ≠ some (count + 1) := fun same =>
        absurd (Option.some.inj same) (Nat.ne_of_lt (Nat.lt_succ_of_le small))
      rw [List.range_succ, List.filter_append, ih, List.range_succ, List.map_append, List.filter_singleton,
        decide_eq_true apart, List.map_singleton, up]
      rfl

private theorem filter_shift {gate : Option Nat} {count : Nat} (inside : ∀ g, gate = some g → g ≤ count) {sort sort' : Nat → Bool}
    (same : ∀ r < count, sort' (shift gate r) = sort r) (other : ∀ g, gate = some g → sort' g = false) :
    (List.range (count + gate.toList.length)).filter sort' = ((List.range count).filter sort).map (shift gate) := by
  have apart : (List.range (count + gate.toList.length)).filter sort' =
      ((List.range (count + gate.toList.length)).filter fun r => decide (gate ≠ some r)).filter sort' := by
    rw [List.filter_filter]
    refine List.filter_congr fun r _ => ?_
    by_cases here : gate = some r
    · rw [other r here, Bool.false_and]
    · rw [decide_eq_true here, Bool.and_true]
  rw [apart, range_shift inside, List.filter_map]
  exact congrArg _ (List.filter_congr fun r member => same r (List.mem_range.mp member))

/-- What stands in a list of registers behind a gate is what stands there without one. -/
structure Spread {α : Type} (gate : Option Nat) (own : α) (items items' : List α) : Prop where
  moved : ∀ r, items'[shift gate r]? = items[r]?
  gated : ∀ g, gate = some g → items'[g]? = some own

theorem Spread.set {α : Type} {gate : Option Nat} {own : α} {items items' : List α} (spread : Spread gate own items items')
    (q : Nat) (item : α) : Spread gate own (items.set q item) (items'.set (shift gate q) item) where
  moved r := by
    by_cases here : q = r
    · rw [here, List.getElem?_set_self', List.getElem?_set_self', spread.moved]
    · rw [List.getElem?_set_ne here, List.getElem?_set_ne fun same => here (shift_inj.mp same), spread.moved]
  gated g same := by
    subst same
    rw [List.getElem?_set_ne (shift_ne g q)]
    exact spread.gated g rfl

structure Node.Moved {σ : Type} (gate : Option Nat) (node node' : Node σ) : Prop where
  entry : node'.entry = node.entry
  kind : node'.kind = node.kind
  constant : node'.constant = node.constant
  args : node'.args = node.args.map (Argument.behind gate)
  plain : node.isControl = false
  plain' : node'.isControl = false

theorem Node.Moved.mem_raw {σ : Type} {gate : Option Nat} {node node' : Node σ} (moved : node.Moved gate node') :
    .raw ∈ node'.args ↔ gate = none ∧ .raw ∈ node.args := by
  rw [moved.args, List.mem_map]
  constructor
  · rintro ⟨arg, member, same⟩
    cases arg with
    | raw =>
      cases gate with
      | none => exact ⟨rfl, member⟩
      | some g => cases same
    | register r => cases same
  · rintro ⟨rfl, member⟩
    exact ⟨.raw, member, rfl⟩

namespace Library

open Argument (behind behind_inj)

structure GateNode (forward : Bool) (node : Node Instance) : Prop where
  args : node.args = [.raw]
  built : (node.build?.map fun build => build node.kind) = some (.direction forward)
  kind : node.kind = .selection
  constant : node.constant = none
  plain : node.isControl = false

/-- Registers behind a gate. There is none as long as nothing reads packets. -/
structure Fenced (gate : Option Nat) (forward : Bool) (nodes nodes' : List (Node Instance)) : Prop where
  count : nodes'.length = nodes.length + gate.toList.length
  inside : ∀ g, gate = some g → g ≤ nodes.length
  moved : ∀ (r : Nat) node, nodes[r]? = some node → ∃ node', nodes'[shift gate r]? = some node' ∧ node.Moved gate node'
  gated : ∀ g, gate = some g → ∃ node, nodes'[g]? = some node ∧ GateNode forward node
  reads : gate = none → ∀ node ∈ nodes, .raw ∉ node.args

/-- A program behind a gate. -/
structure Behind {φ : Type} (gate : Option Nat) (forward : Bool) (p p' : Program Instance φ) : Prop extends
    Fenced gate forward p.nodes p'.nodes where
  exports : p'.exports = p.exports.map (shift gate)

/-- Registers and what they come from have nodes alike, or none. -/
theorem Fenced.node_cases {gate : Option Nat} {forward : Bool} {nodes nodes' : List (Node Instance)}
    (fenced : Fenced gate forward nodes nodes') (r : Nat) : nodes[r]? = none ∧ nodes'[shift gate r]? = none ∨
      ∃ node node', nodes[r]? = some node ∧ nodes'[shift gate r]? = some node' ∧ node.Moved gate node' := by
  cases found : nodes[r]? with
  | none =>
    refine .inl ⟨rfl, List.getElem?_eq_none (Nat.not_lt.mp fun inside => ?_)⟩
    rw [fenced.count, shift_lt fenced.inside] at inside
    exact absurd inside (Nat.not_lt.mpr (List.getElem?_eq_none_iff.mp found))
  | some node =>
    obtain ⟨node', found', moved⟩ := fenced.moved r node found
    exact .inr ⟨node, node', rfl, found', moved⟩

namespace Behind

variable {φ : Type} {gate : Option Nat} {forward : Bool} {p p' : Program Instance φ} (behind : Behind gate forward p p')
include behind

theorem size : p'.size = p.size + gate.toList.length :=
  behind.count

theorem lt_size {r : Nat} : shift gate r < p'.size ↔ r < p.size := by
  rw [behind.size]
  exact shift_lt behind.inside

theorem spread {α : Type} (view : Node Instance → α) {own : α} (same : ∀ node node', node.Moved gate node' → view node' = view node)
    (gated : ∀ node, GateNode forward node → view node = own) :
    Spread gate own (p.nodes.map view) (p'.nodes.map view) where
  moved r := by
    rw [List.getElem?_map, List.getElem?_map]
    rcases behind.node_cases r with ⟨found, found'⟩ | ⟨node, node', found, found', moved⟩
    · rw [found, found', Option.map_none]
    · rw [found, found', Option.map_some, Option.map_some, same node node' moved]
  gated g here := by
    obtain ⟨node, found, own⟩ := behind.gated g here
    rw [List.getElem?_map, found, Option.map_some, gated node own]

theorem args (r : Nat) : p'.args (shift gate r) = (p.args r).map (Argument.behind gate) := by
  rw [Program.args, Program.args, Program.node?, Program.node?]
  rcases behind.node_cases r with ⟨found, found'⟩ | ⟨node, node', found, found', moved⟩
  · rw [found, found']
    rfl
  · rw [found, found']
    exact moved.args

private theorem isConstant (r : Nat) : p'.isConstant (shift gate r) = p.isConstant r := by
  rw [Program.isConstant, Program.isConstant, Program.node?, Program.node?]
  rcases behind.node_cases r with ⟨found, found'⟩ | ⟨node, node', found, found', moved⟩
  · rw [found, found']
  · rw [found, found']
    exact congrArg Option.isSome moved.constant

private theorem not_constant {g : Nat} (here : gate = some g) : p'.isConstant g = false := by
  obtain ⟨node, found, own⟩ := behind.gated g here
  rw [Program.isConstant, Program.node?, found]
  exact congrArg Option.isSome own.constant

private theorem mem_arguments {r q : Nat} : shift gate q ∈ p'.arguments (shift gate r) ↔ q ∈ p.arguments r := by
  rw [Program.mem_arguments, Program.mem_arguments]
  rcases behind.node_cases r with ⟨found, found'⟩ | ⟨node, node', found, found', moved⟩
  · rw [found, found']
    exact iff_of_false (by rintro ⟨_, ⟨⟩, _⟩) (by rintro ⟨_, ⟨⟩, _⟩)
  · have reads : Argument.register (shift gate q) ∈ node'.args ↔ .register q ∈ node.args := by
      rw [moved.args, show Argument.register (shift gate q) = Argument.behind gate (.register q) from rfl]
      exact List.mem_map_of_injective fun _ _ => behind_inj.mp
    constructor
    · rintro ⟨_, same, member⟩
      obtain rfl := Option.some.inj (found'.symm.trans same)
      exact ⟨node, found, reads.mp member⟩
    · rintro ⟨_, same, member⟩
      obtain rfl := Option.some.inj (found.symm.trans same)
      exact ⟨node', found', reads.mpr member⟩

/-- The dependents of a register are those of the register it comes from. -/
theorem dependents (r : Nat) : p'.dependents (shift gate r) = (p.dependents r).map (shift gate) := by
  rw [Program.dependents, Program.dependents, behind.isConstant]
  split
  · rfl
  · rw [behind.size]
    refine filter_shift behind.inside (fun d _ => ?_) fun g here => ?_
    · exact Bool.eq_iff_iff.mpr (List.contains_iff_mem.trans (behind.mem_arguments.trans List.contains_iff_mem.symm))
    · obtain ⟨node, found, own⟩ := behind.gated g here
      rw [Program.arguments, Program.node?, found]
      dsimp only
      rw [Node.arguments, own.args]
      rfl

private theorem not_raw {node node' : Node Instance} (member : node ∈ p.nodes) (moved : node.Moved gate node') : .raw ∉ node'.args :=
  fun reads => behind.reads (moved.mem_raw.mp reads).1 node member (moved.mem_raw.mp reads).2

private theorem isClocked {node node' : Node Instance} (member : node ∈ p.nodes) (moved : node.Moved gate node') :
    p'.isClocked node' = p.isClocked node := by
  rw [Program.isClocked, Program.isClocked, moved.kind, moved.constant, moved.args, List.isEmpty_map, List.all_map]
  refine congrArg _ (Bool.eq_iff_iff.mpr ?_)
  rw [List.all_eq_true, List.all_eq_true]
  refine forall₂_congr fun arg inside => ?_
  cases arg with
  | register r => exact Bool.eq_iff_iff.mp (behind.isConstant r)
  | raw =>
    cases gate with
    | none => exact absurd inside (behind.reads rfl node member)
    | some g => exact Bool.eq_iff_iff.mp (behind.not_constant rfl)

section Unclocked

variable (unclocked : ∀ node ∈ p.nodes, p.isClocked node = false)
include unclocked

theorem events : p'.events = gate.toList := by
  have only (q : Nat) : q ∈ p'.events ↔ q ∈ gate.toList := by
    rw [Option.mem_toList]
    constructor
    · intro called
      by_contra here
      obtain ⟨r, rfl⟩ := exists_shift here
      rcases behind.node_cases r with ⟨-, missing⟩ | ⟨node, node', found, found', moved⟩
      · exact absurd (Program.lt_of_mem_events called) (Nat.not_lt.mpr (List.getElem?_eq_none_iff.mp missing))
      · have member := List.mem_of_getElem? found
        obtain ⟨-, reads | clocked⟩ := (Program.mem_events found').mp called
        · exact behind.not_raw member moved reads
        · rw [behind.isClocked member moved, unclocked node member] at clocked
          cases clocked
    · intro here
      obtain ⟨node, found, own⟩ := behind.gated q here
      exact (Program.mem_events found).mpr ⟨own.plain, .inl (own.args ▸ List.mem_singleton_self _)⟩
  have distinct : p'.events.Nodup := List.nodup_range.filter _
  cases gate with
  | none => exact List.eq_nil_iff_forall_not_mem.mpr fun q member => absurd ((only q).mp member) List.not_mem_nil
  | some g => exact List.perm_singleton.mp ((List.perm_ext_iff_of_nodup distinct (List.nodup_singleton g)).mpr only)

theorem events_eq_nil (absent : gate = none) : p.events = [] := by
  refine List.eq_nil_iff_forall_not_mem.mpr fun q member => ?_
  have found := List.getElem?_eq_getElem (Program.lt_of_mem_events member)
  have inside := List.mem_of_getElem? found
  obtain ⟨-, reads | clocked⟩ := (Program.mem_events found).mp member
  · exact behind.reads absent _ inside reads
  · rw [unclocked _ inside] at clocked
    cases clocked

/-- The gate hands packets on to those that would be called for them. -/
theorem dependents_gate {g : Nat} (here : gate = some g) :
    p'.dependents g = p.events.map (shift gate) := by
  obtain ⟨gateNode, found, own⟩ := behind.gated g here
  rw [Program.dependents, behind.not_constant here, if_neg Bool.false_ne_true, behind.size, Program.events]
  refine filter_shift behind.inside (fun r inside => ?_) fun g' here' => ?_
  · rw [Program.node?]
    rcases behind.node_cases r with ⟨missing, -⟩ | ⟨node, node', found, found', moved⟩
    · exact absurd inside (Nat.not_lt.mpr (List.getElem?_eq_none_iff.mp missing))
    · have member := List.mem_of_getElem? found
      have reads : g ∈ p'.arguments (shift gate r) ↔ .raw ∈ node.args := by
        rw [Program.mem_arguments, found']
        constructor
        · rintro ⟨_, ⟨⟩, member⟩
          rw [moved.args] at member
          obtain ⟨arg, member, same⟩ := List.mem_map.mp member
          cases arg with
          | raw => exact member
          | register q =>
            subst here
            exact absurd (Argument.register.inj same) (shift_ne g q)
        · intro member
          refine ⟨node', rfl, ?_⟩
          rw [moved.args]
          exact List.mem_map.mpr ⟨.raw, member, by rw [here]; rfl⟩
      rw [found]
      dsimp only
      rw [moved.plain, unclocked node member, Bool.or_false, Node.consumesRaw]
      exact Bool.eq_iff_iff.mpr (List.contains_iff_mem.trans (reads.trans List.contains_iff_mem.symm))
  · obtain rfl := Option.some.inj (here.symm.trans here')
    rw [Program.arguments, Program.node?, found]
    dsimp only
    rw [Node.arguments, own.args]
    rfl

end Unclocked

end Behind

end Library

end FlowMetering
