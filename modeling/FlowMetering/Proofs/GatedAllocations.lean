import FlowMetering.Proofs.CompiledFeatures
import FlowMetering.Proofs.GatedPrograms

/-! Allocation behind a gate. Where a selection of a direction stands in the place of the packets, its register is allocated
when packets are first asked for, and all others are allocated as they are without it. -/

namespace FlowMetering

open Allocation

private theorem Node.Moved.congr {σ : Type} {gate gate' : Option Nat} {node node' : Node σ} (moved : node.Moved gate node')
    (same : ∀ arg ∈ node.args, arg.behind gate' = arg.behind gate) : node.Moved gate' node' :=
  { moved with args := moved.args.trans (List.map_congr_left same).symm }

/-- A gate stays where it is, and one that is opened later stands above the registers that are there already. -/
inductive Opens (count : Nat) : Option Nat → Option Nat → Prop
  | same (gate : Option Nat) : Opens count gate gate
  | opened {g : Nat} (above : count ≤ g) : Opens count none (some g)

namespace Opens

variable {count count' : Nat} {first middle last : Option Nat}

private theorem trans (before : Opens count first middle) (after : Opens count' middle last) (more : count ≤ count') :
    Opens count first last := by
  cases before with
  | same =>
    cases after with
    | same => exact .same _
    | opened above => exact .opened (Nat.le_trans more above)
  | opened above =>
    cases after
    exact .opened above

private theorem behind (opens : Opens count first last) {arg : Argument} (below : arg.Below count) (reads : first = none → arg ≠ .raw) :
    arg.behind last = arg.behind first := by
  cases opens with
  | same => rfl
  | opened above =>
    cases arg with
    | raw => exact absurd rfl (reads rfl)
    | register r => exact congrArg Argument.register (if_pos (Nat.lt_of_lt_of_le below above))

private theorem of_none (opens : Opens count first last) (shut : last = none) : first = none := by
  cases opens with
  | same => exact shut
  | opened above => cases shut

end Opens

theorem Argument.raw_not_mem_behind (g : Nat) (args : List Argument) : .raw ∉ args.map (behind (some g)) := by
  intro member
  obtain ⟨arg, -, same⟩ := List.mem_map.mp member
  cases arg <;> cases same

namespace Typed

variable {σ : Type} {t : Typed σ}

theorem of_erase_raw {mark : Kind} (same : t.erase = .raw mark) : t = .raw mark := by
  cases t with
  | raw mark => exact congrArg Tree.raw (Tree.raw.inj same)
  | constant value => cases same
  | call typing args => cases same

theorem of_erase_constant {value : Value} (same : t.erase = .constant value) : t = .constant value := by
  cases t with
  | raw mark => cases same
  | constant value => exact congrArg Tree.constant (Tree.constant.inj same)
  | call typing args => cases same

theorem of_erase_call {binding : Binding σ} {args : List (Bound σ)} (same : t.erase = .call binding args) :
    ∃ typing trees, t = .call typing trees ∧ typing.binding = binding ∧ trees.map erase = args := by
  cases t with
  | raw mark => cases same
  | constant value => cases same
  | call typing trees =>
    rw [erase_call] at same
    exact ⟨typing, trees, rfl, (Tree.call.inj same).1, (Tree.call.inj same).2⟩

end Typed

namespace Library

variable {gate : Option Nat} {forward : Bool} {direction : Registered Instance} {nodes nodes' : List (Node Instance)}

structure Growing (gate : Option Nat) (forward : Bool) (direction : Registered Instance) (nodes nodes' : List (Node Instance)) :
    Prop extends Fenced gate forward nodes nodes' where
  tidy : Tidy catalog nodes
  tidy' : Tidy catalog nodes'
  ordered : ∀ (r : Nat) node, nodes[r]? = some node → ∀ arg ∈ node.args, arg.Below r
  entered : ∀ g node, gate = some g → nodes'[g]? = some node → node.entry = some direction

namespace Growing

theorem empty : Growing none forward direction [] [] where
  count := rfl
  inside := by rintro _ ⟨⟩
  moved := by rintro _ _ ⟨⟩
  gated := by rintro _ ⟨⟩
  reads _ _ member := absurd member List.not_mem_nil
  tidy := .empty
  tidy' := .empty
  ordered := by rintro _ _ ⟨⟩
  entered := by rintro _ _ ⟨⟩

variable {a a' : Allocation Instance}

private theorem shift_length (fenced : Fenced gate forward nodes nodes') : shift gate nodes.length = nodes'.length := by
  rw [fenced.count]
  cases gate with
  | none => rfl
  | some g => exact if_neg (Nat.not_lt.mpr (fenced.inside g rfl))

private theorem place (growing : Growing gate forward direction a.nodes a'.nodes) (node node' : Node Instance)
    (moved : node.Moved gate node') (reads : gate = none → .raw ∉ node.args)
    (alike : ∀ (r : Nat) found found', a.nodes[r]? = some found → a'.nodes[shift gate r]? = some found' →
      found.Moved gate found' → (found'.key = node'.key ↔ found.key = node.key))
    (apart : ∀ (g : Nat) found, gate = some g → a'.nodes[g]? = some found → found.key ≠ node'.key)
    (below : ∀ arg ∈ node.args, arg.Below a.nodes.length) (tidy : Tidy catalog (a.place node).1.nodes)
    (tidy' : Tidy catalog (a'.place node').1.nodes) :
    Growing gate forward direction (a.place node).1.nodes (a'.place node').1.nodes ∧
      (a'.place node').2 = shift gate (a.place node).2 := by
  rcases place_cases a node with ⟨r, found, same, held, key⟩ | ⟨same, fresh⟩
  · obtain ⟨found', held', moved'⟩ := growing.moved r found held
    have key' := (alike r found found' held held' moved').mpr key
    rcases place_cases a' node' with ⟨r', other, same', there, key''⟩ | ⟨same', fresh'⟩
    · rw [same, same']
      exact ⟨growing, growing.tidy'.index_unique there held' (key''.trans key'.symm)⟩
    · exact absurd (List.mem_map.mpr ⟨found', List.mem_of_getElem? held', key'⟩) fresh'
  · rcases place_cases a' node' with ⟨r', found', same', held', key'⟩ | ⟨same', fresh'⟩
    · by_cases here : gate = some r'
      · exact absurd key' (apart r' found' here held')
      · obtain ⟨r, rfl⟩ := exists_shift here
        rcases growing.node_cases r with ⟨-, missing⟩ | ⟨found, other, held, there, moved'⟩
        · cases missing.symm.trans held'
        · obtain rfl := Option.some.inj (held'.symm.trans there)
          exact absurd (List.mem_map.mpr ⟨found, List.mem_of_getElem? held, (alike r found _ held there moved').mp key'⟩) fresh
    · have ordered := (place_sound node ⟨growing.ordered, Nat.le_refl _⟩ below).1.ordered
      rw [same] at tidy ordered ⊢
      rw [same'] at tidy' ⊢
      have last := shift_length growing.toFenced
      refine ⟨⟨⟨?_, ?_, ?_, ?_, ?_⟩, tidy, tidy', ordered, ?_⟩, last.symm⟩
      · rw [List.length_append, List.length_append, growing.count]
        exact Nat.add_right_comm _ _ _
      · intro g here
        rw [List.length_append]
        exact Nat.le_trans (growing.inside g here) (Nat.le_add_right _ _)
      · intro r found held
        rcases Nat.lt_trichotomy r a.nodes.length with inside | rfl | beyond
        · rw [List.getElem?_append_left inside] at held
          obtain ⟨found', held', moved'⟩ := growing.moved r found held
          exact ⟨found', (List.getElem?_append_left (List.getElem?_eq_some_iff.mp held').1).trans held', moved'⟩
        · rw [List.getElem?_concat_length] at held
          obtain rfl := Option.some.inj held
          refine ⟨node', ?_, moved⟩
          rw [last]
          exact List.getElem?_concat_length
        · rw [List.getElem?_eq_none (by simp; omega)] at held
          cases held
      · intro g here
        obtain ⟨found, held, own⟩ := growing.gated g here
        exact ⟨found, (List.getElem?_append_left (List.getElem?_eq_some_iff.mp held).1).trans held, own⟩
      · intro shut found member
        rcases List.mem_append.mp member with member | member
        · exact growing.reads shut found member
        · exact List.mem_singleton.mp member ▸ reads shut
      · intro g found here held
        obtain ⟨found', held', -⟩ := growing.gated g here
        rw [List.getElem?_append_left (List.getElem?_eq_some_iff.mp held').1] at held
        exact growing.entered g found here held

end Growing

structure Legal (t : Typed Instance) : Prop where
  drawn : Bound.Over catalog t.erase
  regular : Regular t.erase

private theorem Legal.arg {typing : Typing Instance} {args : List (Typed Instance)} (legal : Legal (.call typing args))
    {arg : Typed Instance} (member : arg ∈ args) : Legal arg := by
  obtain ⟨drawn, regular⟩ := legal
  rw [Typed.erase_call] at drawn regular
  exact ⟨drawn.arg (List.mem_map_of_mem member), regular.arg (List.mem_map_of_mem member)⟩

def directed (direction : Registered Instance) : Bound Instance :=
  .call ⟨direction, .selection⟩ [.raw .rawPacket]

def Directs (direction : Registered Instance) (forward : Bool) : Prop :=
  direction.entry.build.map (fun build => build .selection) = some (.direction forward)

private theorem Growing.append_gate {nodes' : List (Node Instance)} (growing : Growing none forward direction nodes nodes')
    {gateNode : Node Instance} (own : GateNode forward gateNode) (entered : gateNode.entry = some direction)
    (tidy' : Tidy catalog (nodes' ++ [gateNode])) :
    Growing (some nodes.length) forward direction nodes (nodes' ++ [gateNode]) := by
  have count : nodes'.length = nodes.length := growing.count
  refine ⟨⟨?_, ?_, ?_, ?_, ?_⟩, growing.tidy, tidy', growing.ordered, ?_⟩
  · rw [List.length_append, count]
    rfl
  · rintro _ ⟨⟩
    exact Nat.le_refl _
  · intro r node found
    have inside : r < nodes.length := (List.getElem?_eq_some_iff.mp found).1
    obtain ⟨node', found', moved⟩ := growing.moved r node found
    refine ⟨node', ?_, moved.congr fun arg member => ?_⟩
    · rw [shift, if_pos inside]
      exact (List.getElem?_append_left (count ▸ inside)).trans found'
    · refine (Opens.opened (Nat.le_refl nodes.length)).behind ((growing.ordered r node found arg member).mono inside.le) ?_
      rintro - rfl
      exact growing.reads rfl node (List.mem_of_getElem? found) member
  · rintro _ ⟨⟩
    exact ⟨_, count ▸ List.getElem?_concat_length, own⟩
  · rintro ⟨⟩
  · rintro _ node ⟨⟩ found
    rw [← count, List.getElem?_concat_length] at found
    rw [← Option.some.inj found, entered]

private theorem Growing.opening {a' : Allocation Instance} (growing : Growing gate forward direction nodes a'.nodes)
    (directs : Directs direction forward)
    {typing : Typing Instance} (binds : typing.binding = ⟨direction, .selection⟩)
    (legal : Legal (.call typing [.raw .rawPacket])) (position : Nat) (text : String) :
    ∃ g, Opens nodes.length gate (some g) ∧
      Growing (some g) forward direction nodes (a'.place (callNode position typing text [.raw])).1.nodes ∧
      (a'.place (callNode position typing text [.raw])).2 = g := by
  obtain ⟨drawn, regular⟩ := legal
  obtain ⟨⟨tidy', -, -, -⟩, -⟩ := place_call growing.tidy' drawn regular
    (show [Argument.raw].length = [Tree.raw Kind.rawPacket].length from rfl) (fun pair member => List.mem_singleton.mp member ▸ .raw _) position text
  have registered : direction ∈ catalog.registered := by
    have head := drawn.head
    rwa [binds] at head
  have key : (callNode position typing text [.raw]).key = Typed.callKey direction ([.raw].map argumentKey) := by
    rw [callNode, binds]
  have own : GateNode forward (callNode position typing text [.raw]) := by
    refine ⟨rfl, ?_, ?_, rfl, rfl⟩
    · rw [Node.build?, callNode, binds]
      exact directs
    · rw [callNode, binds]
  cases gate with
  | some g =>
    obtain ⟨found, held, gateNode⟩ := growing.gated g rfl
    have known := (growing.tidy'.key_call held registered).mpr ⟨growing.entered g found rfl held, gateNode.args⟩
    rcases place_cases a' (callNode position typing text [.raw]) with ⟨r, other, same, there, key'⟩ | ⟨same, fresh⟩
    · rw [same]
      exact ⟨g, .same _, growing, growing.tidy'.index_unique there held (key'.trans (key.trans known.symm))⟩
    · exact absurd (List.mem_map.mpr ⟨found, List.mem_of_getElem? held, known.trans key.symm⟩) fresh
  | none =>
    rcases place_cases a' (callNode position typing text [.raw]) with ⟨r, other, same, there, key'⟩ | ⟨same, fresh⟩
    · obtain ⟨-, args⟩ := (growing.tidy'.key_call there registered).mp (key'.trans key)
      rcases growing.node_cases r with ⟨-, missing⟩ | ⟨node, node', found, found', moved⟩
      · cases missing.symm.trans there
      · obtain rfl := Option.some.inj (found'.symm.trans there)
        have reads := (moved.mem_raw.mp (args ▸ List.mem_singleton_self _)).2
        exact absurd reads (growing.reads rfl node (List.mem_of_getElem? found))
    · rw [same] at tidy' ⊢
      have entered : (callNode position typing text [.raw]).entry = some direction := by rw [callNode, binds]
      exact ⟨nodes.length, .opened (Nat.le_refl _), growing.append_gate own entered tidy', growing.count⟩

mutual
/-- Behind a gate an expression gets the register that it gets without it. -/
theorem addTree_gated (directs : Directs direction forward) (position : Nat) (t t' : Typed Instance)
    {a a' : Allocation Instance} {gate : Option Nat}
    (growing : Growing gate forward direction a.nodes a'.nodes) (same : t'.erase = Tree.fedBy (directed direction) t.erase)
    (legal : Legal t) (legal' : Legal t') :
    ∃ gate', Opens a.nodes.length gate gate' ∧
      Growing gate' forward direction (addTree position t a).1.nodes (addTree position t' a').1.nodes ∧
      (addTree position t' a').2 = (addTree position t a).2.behind gate' ∧
      (gate' = none → (addTree position t a).2 ≠ .raw) := by
  cases t with
  | raw mark =>
    obtain ⟨typing, trees, rfl, binds, shown⟩ := Typed.of_erase_call same
    obtain ⟨tree, rfl, leaf⟩ := List.map_eq_singleton_iff.mp shown
    obtain rfl := Typed.of_erase_raw leaf
    obtain ⟨g, opens, grown, placed⟩ := growing.opening directs binds legal' position
      (Typed.text (.call typing [.raw .rawPacket]))
    refine ⟨some g, opens, ?_, ?_, by rintro ⟨⟩⟩
    · rw [addTree_call, note_nodes]
      exact grown
    · rw [addTree_call]
      exact congrArg Argument.register placed
  | constant value =>
    obtain rfl := Typed.of_erase_constant same
    have scalar : value.IsScalar := legal.drawn.value
    have tidy := (addTree_refers position (.constant value) a growing.tidy legal.drawn legal.regular).1.tidy
    have tidy' := (addTree_refers position (.constant value) a' growing.tidy' legal'.drawn legal'.regular).1.tidy
    rw [addTree_constant, note_nodes] at tidy tidy'
    obtain ⟨grown, placed⟩ := growing.place (constantNode position value) (constantNode position value)
      ⟨rfl, rfl, rfl, rfl, rfl, rfl⟩ (fun _ => List.not_mem_nil)
      (fun r found found' held held' moved => by
        rw [constantNode, growing.tidy'.key_constant held' scalar, growing.tidy.key_constant held scalar, moved.constant])
      (fun g found here held known => by
        obtain ⟨other, there, own⟩ := growing.gated g here
        obtain rfl := Option.some.inj (held.symm.trans there)
        cases own.constant.symm.trans ((growing.tidy'.key_constant held scalar).mp known))
      (List.forall_mem_nil _) tidy tidy'
    refine ⟨gate, .same gate, ?_, ?_, fun _ => by rintro ⟨⟩⟩
    · rw [addTree_constant, addTree_constant, note_nodes, note_nodes]
      exact grown
    · rw [addTree_constant, addTree_constant]
      exact congrArg Argument.register placed
  | call typing args =>
    rw [Typed.erase_call, Tree.fedBy_call] at same
    obtain ⟨typing', args', rfl, binds, leaves⟩ := Typed.of_erase_call same
    obtain ⟨gate', opens, growing', references, reads⟩ := addTrees_gated directs position args args' growing leaves
      (fun _ member => legal.arg member) fun _ member => legal'.arg member
    have registered : typing.binding.chosen ∈ catalog.registered := by
      have drawn := legal.drawn
      rw [Typed.erase_call] at drawn
      exact drawn.head
    have tidy := (addTree_refers position (.call typing args) a growing.tidy legal.drawn legal.regular).1.tidy
    have tidy' := (addTree_refers position (.call typing' args') a' growing.tidy' legal'.drawn legal'.regular).1.tidy
    rw [addTree_call, note_nodes] at tidy tidy'
    have below := (addTrees_sound position args a growing.ordered).2
    have key : (callNode position typing' (Typed.text (.call typing' args')) (addTrees position args' a').2).key =
        Typed.callKey typing.binding.chosen (((addTrees position args a).2.map (Argument.behind gate')).map argumentKey) := by
      rw [callNode, binds, references]
    obtain ⟨grown, placed⟩ := growing'.place
      (callNode position typing (Typed.text (.call typing args)) (addTrees position args a).2)
      (callNode position typing' (Typed.text (.call typing' args')) (addTrees position args' a').2)
      ⟨congrArg (fun binding : Binding Instance => some binding.chosen) binds, congrArg Binding.kind binds, rfl, references, rfl, rfl⟩ reads
      (fun r found found' held held' moved => by
        rw [key, growing'.tidy'.key_call held' registered, callNode, growing'.tidy.key_call held registered, moved.entry,
          moved.args]
        exact and_congr_right fun _ => (List.map_injective_iff.mpr fun _ _ => Argument.behind_inj.mp).eq_iff)
      (fun g found here held known => by
        obtain ⟨other, there, own⟩ := growing'.gated g here
        obtain rfl := Option.some.inj (held.symm.trans there)
        rw [key, growing'.tidy'.key_call held registered, own.args] at known
        subst here
        exact Argument.raw_not_mem_behind g _ (known.2 ▸ List.mem_singleton_self _))
      below tidy tidy'
    refine ⟨gate', opens, ?_, ?_, fun _ => by rintro ⟨⟩⟩
    · rw [addTree_call, addTree_call, note_nodes, note_nodes]
      exact grown
    · rw [addTree_call, addTree_call]
      exact congrArg Argument.register placed
termination_by structural t

private theorem addTrees_gated (directs : Directs direction forward) (position : Nat) (ts ts' : List (Typed Instance))
    {a a' : Allocation Instance} {gate : Option Nat}
    (growing : Growing gate forward direction a.nodes a'.nodes)
    (same : ts'.map Typed.erase = (ts.map Typed.erase).map (Tree.fedBy (directed direction))) (legal : ∀ t ∈ ts, Legal t)
    (legal' : ∀ t ∈ ts', Legal t) :
    ∃ gate', Opens a.nodes.length gate gate' ∧
      Growing gate' forward direction (addTrees position ts a).1.nodes (addTrees position ts' a').1.nodes ∧
      (addTrees position ts' a').2 = (addTrees position ts a).2.map (Argument.behind gate') ∧
      (gate' = none → .raw ∉ (addTrees position ts a).2) := by
  cases ts with
  | nil =>
    obtain rfl := List.map_eq_nil_iff.mp same
    exact ⟨gate, .same gate, growing, rfl, fun _ => List.not_mem_nil⟩
  | cons t ts =>
    obtain ⟨t', ts', rfl, first, rest⟩ := List.map_eq_cons_iff.mp same
    rw [List.forall_mem_cons] at legal legal'
    obtain ⟨gate₁, opens₁, growing₁, reference, reads⟩ := addTree_gated directs position t t' growing first legal.1 legal'.1
    obtain ⟨gate₂, opens₂, growing₂, references, reads'⟩ := addTrees_gated directs position ts ts' growing₁ rest legal.2 legal'.2
    obtain ⟨sound, below⟩ := addTree_sound position t a growing.ordered
    refine ⟨gate₂, opens₁.trans opens₂ sound.size, growing₂, ?_, fun shut member => ?_⟩
    · refine List.cons_eq_cons.mpr ⟨reference.trans ?_, references⟩
      exact (opens₂.behind below reads).symm
    · rcases List.mem_cons.mp member with raw | member
      · exact reads (opens₂.of_none shut) raw.symm
      · exact reads' shut member
termination_by structural ts
end

/-- Marks of exports change nothing behind a gate. -/
theorem Fenced.mark {marked marked' : List (Node Instance)} (fenced : Fenced gate forward nodes nodes')
    (larger : Extends nodes marked) (count : marked.length = nodes.length) (larger' : Extends nodes' marked')
    (count' : marked'.length = nodes'.length) : Fenced gate forward marked marked' where
  count := by rw [count, count', fenced.count]
  inside g here := count ▸ fenced.inside g here
  moved r node found := by
    obtain ⟨before, mark, held, rfl⟩ := larger.back count found
    obtain ⟨node', held', moved⟩ := fenced.moved r before held
    obtain ⟨mark', found'⟩ := larger' _ _ held'
    exact ⟨_, found', moved.entry, moved.kind, moved.constant, moved.args, moved.plain, moved.plain'⟩
  gated g here := by
    obtain ⟨node, held, own⟩ := fenced.gated g here
    obtain ⟨mark, found⟩ := larger' _ _ held
    exact ⟨_, found, own.args, own.built, own.kind, own.constant, own.plain⟩
  reads shut node member := by
    obtain ⟨r, found⟩ := List.mem_iff_getElem?.mp member
    obtain ⟨before, mark, held, rfl⟩ := larger.back count found
    exact fenced.reads shut before (List.mem_of_getElem? held)

end Library

end FlowMetering
