import FlowMetering.Proofs.LiveStreams
import FlowMetering.Proofs.RegisterOrder

/-! Programs as circuits. Each register of a circuit holds a live tree over the trees of its arguments; when an
emission arrives along one of its wires, the instance takes a step towards what its tree makes of all of them. -/

namespace FlowMetering

def Emission.isHeard : Emission → Bool
  | .value (some _) | .forward => true
  | .nothing | .value none => false

def Emission.heard (e : Emission) : Emission :=
  if e.isHeard then e else .nothing

/-- An input that brings what an argument has emitted for a packet. -/
inductive Input.Brings (packet : Packet) : Argument → Emission → Input → Prop
  | raw : Brings packet .raw .forward (.packet packet .flow)
  | forward (r : Nat) : Brings packet (.register r) .forward (.packet packet (.register r))
  | value (r : Nat) (v : Value) : Brings packet (.register r) (.value (some v)) (.value v r)

namespace Library

def Live.at (lives : Nat → Live) : Argument → Live
  | .raw => .raw ()
  | .register r => lives r

private theorem take_heard (p : Packet) (position : Nat) (e : Emission) (got : Instance × Emission) :
    Instance.take p position e.heard got = Instance.take p position e got := by
  cases e with
  | nothing | forward => rfl
  | value v => cases v <;> rfl

/-- An instance makes the same of emissions of which the same is heard. -/
theorem feed_congr {p : Packet} {es es' : List Emission} (same : es.map Emission.heard = es'.map Emission.heard)
    (position : Nat) (got : Instance × Emission) : Instance.feed p position es got = Instance.feed p position es' got := by
  induction es generalizing es' position got with
  | nil =>
    rw [List.map_nil] at same
    rw [List.map_eq_nil_iff.mp same.symm]
  | cons e es ih =>
    cases es' with
    | nil => cases same
    | cons e' es' =>
      obtain ⟨first, rest⟩ := List.cons_eq_cons.mp same
      rw [Instance.feed, Instance.feed, ← take_heard p position e, first, take_heard, ih rest]

/-- The positions at which a register is an argument. -/
theorem positions_register (c : Context) (q : Nat) :
    c.positions (.register q) = (List.range c.args.length).filter fun i => decide (c.args[i]? = some (.register q)) := by
  refine List.filter_congr fun i _ => ?_
  cases c.args[i]? with
  | none => rfl
  | some arg =>
    cases arg with
    | raw => rfl
    | register r =>
      change (q == r) = _
      rw [Bool.eq_iff_iff, beq_iff_eq, decide_eq_true_eq, Option.some.injEq, Argument.register.injEq]
      exact eq_comm

theorem mem_positions {c : Context} {q i : Nat} :
    i ∈ c.positions (.register q) ↔ c.args[i]? = some (.register q) := by
  rw [positions_register, List.mem_filter, List.mem_range, decide_eq_true_eq]
  exact and_iff_right_of_imp fun found => (List.getElem?_eq_some_iff.mp found).1

theorem fill_getElem? (slots : List (Option Value)) (positions : List Nat) (v : Value) (i : Nat) :
    (fill slots positions v)[i]? = if i ∈ positions then slots[i]?.map fun _ => some v else slots[i]? := by
  induction positions generalizing slots with
  | nil => rfl
  | cons position positions ih =>
    rw [fill, List.foldl_cons, ← fill, ih, List.getElem?_set']
    by_cases here : position = i
    · subst here
      rw [if_pos rfl, if_pos List.mem_cons_self]
      cases slots[position]? <;> simp
    · have same : i ∈ position :: positions ↔ i ∈ positions := by simp [Ne.symm here]
      simp only [if_neg here, same]

/-- A value that comes from a register fills all slots that wait for it. -/
theorem fill_filled {c : Context} {slots : List (Option Value)} (count : slots.length = c.args.length) (q : Nat) (v : Value)
    (emitted : Argument → Emission) :
    fill (filled (c.args.map emitted) slots) (c.positions (.register q)) v =
      filled (c.args.map fun arg => if arg = .register q then .value (some v) else emitted arg) slots := by
  apply List.ext_getElem?
  intro i
  rw [fill_getElem?]
  by_cases inside : i < c.args.length
  · have arg : c.args[i]? = some c.args[i] := List.getElem?_eq_getElem inside
    have small : i < slots.length := by omega
    have slot : slots[i]? = some slots[i] := List.getElem?_eq_getElem small
    simp only [filled, List.getElem?_zipWith, List.getElem?_map, arg, slot, Option.map_some, mem_positions]
    by_cases here : c.args[i] = .register q
    · simp [here, Emission.value?]
    · simp [here]
  · have short (emitted : Argument → Emission) : (filled (c.args.map emitted) slots)[i]? = none := by
      rw [filled, List.getElem?_eq_none]
      simp only [List.length_zipWith, List.length_map]
      omega
    rw [short, short, Option.map_none, ite_self]

def emitted (packet : Packet) (lives : Nat → Live) (arg : Argument) : Emission :=
  (Live.at lives arg).emission packet

/-- What has arrived of an emission at a register, where the wires that have been used are known. -/
def arrived (emitted : Argument → Emission) (wires : List (Argument × Nat)) (r : Nat) (arg : Argument) : Emission :=
  if (arg, r) ∈ wires then emitted arg else .nothing

/-- All that can be heard of the arguments of a register has arrived there. -/
def Complete (emitted : Argument → Emission) (wires : List (Argument × Nat)) (r : Nat) (args : List Argument) : Prop :=
  ∀ arg ∈ args, (emitted arg).isHeard = true → (arg, r) ∈ wires

instance (emitted : Argument → Emission) (wires : List (Argument × Nat)) (r : Nat) (args : List Argument) :
    Decidable (Complete emitted wires r args) :=
  inferInstanceAs (Decidable (∀ arg ∈ args, (emitted arg).isHeard = true → (arg, r) ∈ wires))

/-- A condition arrives before the packet that it decides on. -/
def InOrder (lives : Nat → Live) (emitted : Argument → Emission) (wires : List (Argument × Nat)) (r : Nat)
    (args : List Argument) : Prop :=
  ∀ condition source, args = [condition, source] → Live.HasRole .selection (Live.at lives source) →
    (source, r) ∈ wires → (emitted condition).isHeard = true → (condition, r) ∈ wires

/-- An argument that depends on packets only by way of a source. -/
inductive Within {φ : Type} (p : Program Instance φ) (source : Argument) : Argument → Prop
  | here : Within p source source
  | constant {r : Nat} {node : Node Instance} (found : p.nodes[r]? = some node) (known : node.constant.isSome = true) :
    Within p source (.register r)
  | call {r : Nat} {node : Node Instance} (found : p.nodes[r]? = some node)
    (inside : ∀ arg ∈ node.args, Within p source arg) : Within p source (.register r)

/-- The slots of an operator on arguments of which only the constants are known. -/
def slotsOn (lives : Nat → Live) (args : List Argument) : List (Option Value) :=
  args.map fun arg => constant? (Live.at lives arg)

/-- How an instance may be wired to its arguments: it waits for one of them only, or it is an operator, or a predicate
whose condition depends on packets by way of its source. -/
inductive Wiring {φ : Type} (p : Program Instance φ) (lives : Nat → Live) : Instance → List Argument → Prop
  | single {s : Instance} (before : List Argument) (role : Role) {last : Argument}
    (known : ∀ arg ∈ before, (constant? (Live.at lives arg)).isSome = true) (has : Live.HasRole role (Live.at lives last))
    (other : role ≠ .flow) : Wiring p lives s (before ++ [last])
  | packetOperator {op : Operator} {args : List Argument} (has : ∀ arg ∈ args, Live.HasRole .packet (Live.at lives arg))
    (varies : ∃ arg ∈ args, constant? (Live.at lives arg) = none) :
    Wiring p lives (.operator op .packetFeature (slotsOn lives args) ((slotsOn lives args).map Option.isSome)) args
  | flowOperator {op : Operator} {args : List Argument} (has : ∀ arg ∈ args, Live.HasRole .flow (Live.at lives arg)) :
    Wiring p lives (.operator op .flowFeature (slotsOn lives args) ((slotsOn lives args).map Option.isSome)) args
  | predicate {known : Option Bool} {condition source : Argument} (has : Live.HasRole .packet (Live.at lives condition))
    (inside : Live.HasRole .selection (Live.at lives source)) (within : Within p source condition) :
    Wiring p lives (.predicate known none) [condition, source]

theorem isHeard_of_brings {packet : Packet} {arg : Argument} {e : Emission} {input : Input}
    (brings : Input.Brings packet arg e input) : e.isHeard = true := by
  cases brings <;> rfl

private theorem heard_arrived {emitted : Argument → Emission} {wires : List (Argument × Nat)} {r : Nat} {arg : Argument}
    (complete : (emitted arg).isHeard = true → (arg, r) ∈ wires) :
    (arrived emitted wires r arg).heard = (emitted arg).heard := by
  rw [arrived]
  split
  next => rfl
  next missing =>
    have unheard : ¬(emitted arg).isHeard = true := fun heard => missing (complete heard)
    rw [Emission.heard, Emission.heard, if_neg unheard]
    exact ite_self _

/-- Where all has arrived, an instance has got all that its arguments emit. -/
theorem Complete.feed_eq {emitted : Argument → Emission} {wires : List (Argument × Nat)} {r : Nat} {args : List Argument}
    (complete : Complete emitted wires r args) (p : Packet) (got : Instance × Emission) :
    Instance.feed p 0 (args.map (arrived emitted wires r)) got = Instance.feed p 0 (args.map emitted) got := by
  apply feed_congr
  rw [List.map_map, List.map_map]
  exact List.map_congr_left fun arg member => heard_arrived (complete arg member)

theorem Live.HasRole.unique {role role' : Role} {live : Live} (has : HasRole role live) (has' : HasRole role' live)
    (varies : constant? live = none) : role = role' := by
  cases live with
  | raw mark => exact Eq.trans has (Eq.symm has')
  | constant value => cases varies
  | call head args => exact Option.some.inj (Eq.trans (Eq.symm has) has')

private theorem arrived_cons_of_ne {emitted : Argument → Emission} {wires : List (Argument × Nat)} {r : Nat} {arg a : Argument}
    (other : arg ≠ a) : arrived emitted ((a, r) :: wires) r arg = arrived emitted wires r arg := by
  rw [arrived, arrived]
  simp [other]

private theorem arrived_cons_self {emitted : Argument → Emission} {wires : List (Argument × Nat)} {r : Nat} {a : Argument} :
    arrived emitted ((a, r) :: wires) r a = emitted a :=
  if_pos List.mem_cons_self

theorem arrived_of_not_mem {emitted : Argument → Emission} {wires : List (Argument × Nat)} {r : Nat} {a : Argument}
    (fresh : (a, r) ∉ wires) : arrived emitted wires r a = .nothing :=
  if_neg fresh

/-- An instance has made a step: it is as all that has arrived has left it, and it answers when nothing more is to
arrive. -/
def Steps (packet : Packet) (emitted : Argument → Emission) (wires : List (Argument × Nat)) (r : Nat)
    (args : List Argument) (s : Instance) (after : Instance × Reaction) : Prop :=
  after.1 = (Instance.feed packet 0 (args.map (arrived emitted wires r)) (s, .nothing)).1 ∧
    after.2.emission =
      if Complete emitted wires r args then (Instance.feed packet 0 (args.map emitted) (s, .nothing)).2 else .nothing

section Step

variable {φ : Type} {p : Program Instance φ} {lives : Nat → Live} {packet : Packet} {wires : List (Argument × Nat)}
  {r : Nat} {a : Argument} {input : Input} {c : Context}

private theorem not_constant_of_brings {e : Emission} (brings : Input.Brings packet a e input)
    (same : emitted packet lives a = e) : constant? (Live.at lives a) = none := by
  cases known : constant? (Live.at lives a) with
  | none => rfl
  | some value =>
    have silent : e = .nothing := same.symm.trans (Live.emission_constant packet (by rw [known]; rfl))
    rw [silent] at brings
    cases brings

private theorem step_last {s : Instance} {before : List Argument} {last : Argument}
    (known : ∀ arg ∈ before, (constant? (Live.at lives arg)).isSome = true)
    (reads : c.args = before ++ [last]) (fresh : (last, r) ∉ wires)
    (brings : Input.Brings packet last (emitted packet lives last) input) :
    Steps packet (emitted packet lives) ((last, r) :: wires) r (before ++ [last]) s (s.event input c) := by
  have silent : ∀ arg ∈ before, emitted packet lives arg = .nothing :=
    fun arg member => Live.emission_constant packet (known arg member)
  have absent : ∀ arg ∈ before, arg ≠ last := by
    rintro arg member rfl
    rw [silent arg member] at brings
    cases brings
  have complete : Complete (emitted packet lives) ((last, r) :: wires) r (before ++ [last]) := by
    intro arg member heard
    rcases List.mem_append.mp member with member | member
    · rw [silent arg member] at heard
      cases heard
    · rw [List.mem_singleton.mp member]
      exact List.mem_cons_self
  have quiet (emitted' : Argument → Emission) (none : ∀ arg ∈ before, emitted' arg = .nothing) :
      Instance.feed packet 0 ((before ++ [last]).map emitted') (s, .nothing) =
        Instance.take packet before.length (emitted' last) (s, .nothing) := by
    rw [List.map_append, Instance.feed_append, Instance.feed_nothing packet 0 (List.forall_mem_map.mpr none),
      List.length_map, Nat.zero_add]
    rfl
  have taken : ((s.event input c).1, (s.event input c).2.emission) =
      Instance.take packet before.length (emitted packet lives last) (s, .nothing) := by
    generalize emitted packet lives last = e at brings
    cases brings with
    | raw | forward source => rfl
    | value source v =>
      have positions : c.positions (.register source) = [before.length] := by
        rw [Context.positions, reads, List.length_append, List.length_singleton, List.range_succ, List.filter_append]
        rw [List.filter_eq_nil_iff.mpr, List.nil_append, List.filter_singleton]
        · rw [List.getElem?_append_right (Nat.le_refl _), Nat.sub_self]
          simp
        · intro i inside
          have small := List.mem_range.mp inside
          rw [List.getElem?_append_left small, List.getElem?_eq_getElem small]
          have other := absent before[i] (List.getElem_mem small)
          cases held : before[i] with
          | raw => simp
          | register q =>
            rw [held] at other
            simpa using fun same : source = q => other (congrArg Argument.register same.symm)
      rw [Instance.event, positions]
      rfl
  refine ⟨?_, ?_⟩
  · rw [quiet _ fun arg member => ?_, arrived_cons_self, ← taken]
    rw [arrived_cons_of_ne (absent arg member), arrived, silent arg member, ite_self]
  · rw [if_pos complete, quiet _ silent, ← taken]

private theorem getElem?_filled {es : List Emission} {slots : List (Option Value)} {i : Nat} {e : Emission} {slot : Option Value}
    (emitted : es[i]? = some e) (held : slots[i]? = some slot) : (filled es slots)[i]? = some (e.value?.or slot) := by
  rw [filled, List.getElem?_zipWith, emitted, held]

private theorem step_operator {op : Operator} {args : List Argument}
    (has : ∀ arg ∈ args, Live.HasRole .packet (Live.at lives arg)) (reads : c.args = args) (member : a ∈ args)
    (brings : Input.Brings packet a (emitted packet lives a) input) :
    Steps packet (emitted packet lives) ((a, r) :: wires) r args
      (.operator op .packetFeature (slotsOn lives args) ((slotsOn lives args).map Option.isSome))
      ((Instance.operator op .packetFeature
        (filled (args.map (arrived (emitted packet lives) wires r)) (slotsOn lives args))
        ((slotsOn lives args).map Option.isSome)).event input c) := by
  have values : ∀ arg ∈ args, emitted packet lives arg ≠ .forward := fun arg member =>
    (has arg member).emission_packet packet
  have fed (emitted' : Argument → Emission) (values : ∀ arg ∈ args, emitted' arg ≠ .forward) :=
    Instance.feed_operator packet op ((slotsOn lives args).map Option.isSome) (args.map emitted') [] (slotsOn lives args)
      (by rw [slotsOn, List.length_map, List.length_map]) (List.forall_mem_map.mpr values) .nothing
  simp only [List.nil_append, List.length_nil] at fed
  obtain ⟨q, v, rfl, same, rfl⟩ : ∃ q v, a = .register q ∧ emitted packet lives a = .value (some v) ∧ input = .value v q := by
    have other := values a member
    generalize emitted packet lives a = e at brings other
    cases brings with
    | raw | forward source => exact absurd rfl other
    | value source v => exact ⟨source, v, rfl, rfl, rfl⟩
  have filling : fill (filled (args.map (arrived (emitted packet lives) wires r)) (slotsOn lives args))
      (c.positions (.register q)) v =
        filled (args.map (arrived (emitted packet lives) ((.register q, r) :: wires) r)) (slotsOn lives args) := by
    subst reads
    rw [fill_filled (by rw [slotsOn, List.length_map])]
    congr 1
    refine List.map_congr_left fun arg _ => ?_
    by_cases here : arg = .register q
    · rw [here, if_pos rfl, arrived_cons_self, same]
    · rw [if_neg here, arrived_cons_of_ne here]
  have arriving : ∀ arg ∈ args, arrived (emitted packet lives) ((.register q, r) :: wires) r arg ≠ .forward := by
    intro arg member
    rw [arrived]
    split
    · exact values arg member
    · rintro ⟨⟩
  rw [Instance.event, Instance.value, filling, if_pos rfl]
  refine ⟨by rw [fed _ arriving], ?_⟩
  dsimp only
  split
  next complete =>
    rw [← complete.feed_eq, fed _ arriving, if_pos]
    refine List.any_eq_true.mpr ⟨_, List.mem_map_of_mem member, ?_⟩
    rw [arrived_cons_self, same]
    rfl
  next waiting =>
    rw [Complete] at waiting
    push Not at waiting
    obtain ⟨arg, inside, heard, missing⟩ := waiting
    obtain ⟨i, small, rfl⟩ := List.mem_iff_getElem.mp inside
    have unknown : constant? (Live.at lives args[i]) = none := by
      cases known : constant? (Live.at lives args[i]) with
      | none => rfl
      | some value =>
        rw [emitted, Live.emission_constant packet (by rw [known]; rfl)] at heard
        cases heard
    have empty : none ∈ filled (args.map (arrived (emitted packet lives) ((.register q, r) :: wires) r))
        (slotsOn lives args) := by
      refine List.mem_iff_getElem?.mpr ⟨i, ?_⟩
      have absent : (args.map (arrived (emitted packet lives) ((.register q, r) :: wires) r))[i]? = some .nothing := by
        rw [List.getElem?_map, List.getElem?_eq_getElem small, Option.map_some, arrived_of_not_mem missing]
      have unfilled : (slotsOn lives args)[i]? = some none := by
        rw [slotsOn, List.getElem?_map, List.getElem?_eq_getElem small, Option.map_some, unknown]
      rw [getElem?_filled absent unfilled]
      rfl
    rw [Operator.reaction, if_neg]
    · rfl
    · exact fun all => Bool.false_ne_true (List.all_eq_true.mp all none empty)

/-- A predicate notes its condition, and decides when the packet arrives. -/
private theorem step_predicate {known : Option Bool} {condition source : Argument}
    (has : Live.HasRole .packet (Live.at lives condition)) (inside : Live.HasRole .selection (Live.at lives source))
    (order : InOrder lives (emitted packet lives) wires r [condition, source])
    (order' : InOrder lives (emitted packet lives) ((a, r) :: wires) r [condition, source])
    (member : a ∈ [condition, source]) (fresh : (a, r) ∉ wires)
    (brings : Input.Brings packet a (emitted packet lives a) input) :
    Steps packet (emitted packet lives) ((a, r) :: wires) r [condition, source] (.predicate known none)
      ((Instance.feed packet 0 ([condition, source].map (arrived (emitted packet lives) wires r))
        (.predicate known none, .nothing)).1.event input c) := by
  have varies := not_constant_of_brings brings rfl
  rcases List.mem_cons.mp member with rfl | member
  · have heard := isHeard_of_brings brings
    have other : source ≠ a := by
      rintro rfl
      cases has.unique inside varies
    have waiting : (source, r) ∉ wires := fun early => fresh (order a source rfl inside early heard)
    obtain ⟨q, v, same, rfl⟩ : ∃ q v, emitted packet lives a = .value (some v) ∧ input = .value v q := by
      have values := has.emission_packet packet
      rw [emitted] at brings ⊢
      generalize Live.emission packet (Live.at lives a) = e at brings values
      cases brings with
      | raw | forward source => exact absurd rfl values
      | value source v => exact ⟨source, v, rfl, rfl⟩
    rw [List.map_cons, List.map_singleton, arrived_of_not_mem fresh, arrived_of_not_mem waiting]
    refine ⟨?_, ?_⟩
    · rw [List.map_cons, List.map_singleton, arrived_cons_self, arrived_cons_of_ne other, arrived_of_not_mem waiting, same]
      rfl
    · split
      next complete =>
        rw [← complete.feed_eq, List.map_cons, List.map_singleton, arrived_cons_self, arrived_cons_of_ne other,
          arrived_of_not_mem waiting, same]
        rfl
      next => rfl
  · obtain rfl := List.mem_singleton.mp member
    have complete : Complete (emitted packet lives) ((a, r) :: wires) r [condition, a] := by
      intro arg member heard
      rcases List.mem_cons.mp member with rfl | member
      · exact order' arg a rfl inside List.mem_cons_self heard
      · rw [List.mem_singleton.mp member]
        exact List.mem_cons_self
    have other : condition ≠ a := by
      rintro rfl
      cases has.unique inside varies
    have passes : emitted packet lives a = .forward ∧ ∃ origin, input = .packet packet origin := by
      have selects := inside.emission_selection packet
      rw [emitted] at brings ⊢
      generalize Live.emission packet (Live.at lives a) = e at brings selects
      cases brings with
      | raw => exact ⟨rfl, _, rfl⟩
      | forward source => exact ⟨rfl, _, rfl⟩
      | value source v => exact selects.elim nofun nofun
    obtain ⟨same, origin, rfl⟩ := passes
    refine ⟨?_, ?_⟩
    · rw [List.map_cons, List.map_singleton, List.map_cons, List.map_singleton, arrived_of_not_mem fresh,
        arrived_cons_self, arrived_cons_of_ne other, same]
      rfl
    · rw [if_pos complete, ← complete.feed_eq, List.map_cons, List.map_singleton, List.map_cons, List.map_singleton,
        arrived_of_not_mem fresh, arrived_cons_self, arrived_cons_of_ne other, same]
      rfl

/-- An instance takes a step when an emission arrives. -/
theorem Wiring.steps {s : Instance} {args : List Argument} (wiring : Wiring p lives s args) (reads : c.args = args)
    (member : a ∈ args) (fresh : (a, r) ∉ wires) (brings : Input.Brings packet a (emitted packet lives a) input)
    (order : InOrder lives (emitted packet lives) wires r args)
    (order' : InOrder lives (emitted packet lives) ((a, r) :: wires) r args) :
    Steps packet (emitted packet lives) ((a, r) :: wires) r args s
      ((Instance.feed packet 0 (args.map (arrived (emitted packet lives) wires r)) (s, .nothing)).1.event input c) := by
  have varies := not_constant_of_brings brings rfl
  cases wiring with
  | single before role known has other =>
    rename_i last
    obtain rfl : a = last := by
      rcases List.mem_append.mp member with member | member
      · have constant := known a member
        rw [varies] at constant
        cases constant
      · exact List.mem_singleton.mp member
    have before_silent : ∀ arg ∈ before ++ [a], arrived (emitted packet lives) wires r arg = .nothing := by
      intro arg member
      rcases List.mem_append.mp member with member | member
      · rw [arrived, emitted, Live.emission_constant packet (known arg member), ite_self]
      · rw [List.mem_singleton.mp member]
        exact arrived_of_not_mem fresh
    rw [Instance.feed_nothing packet 0 (List.forall_mem_map.mpr before_silent)]
    exact step_last known reads fresh brings
  | packetOperator has varying =>
    rename_i op
    have values : ∀ arg ∈ args, arrived (emitted packet lives) wires r arg ≠ .forward := by
      intro arg member
      rw [arrived]
      split
      · exact (has arg member).emission_packet packet
      · exact nofun
    have fed := Instance.feed_operator packet op ((slotsOn lives args).map Option.isSome)
      (args.map (arrived (emitted packet lives) wires r)) [] (slotsOn lives args)
      (by rw [slotsOn, List.length_map, List.length_map]) (List.forall_mem_map.mpr values) .nothing
    rw [List.nil_append, List.nil_append, List.length_nil] at fed
    rw [fed]
    exact step_operator has reads member brings
  | flowOperator has =>
    rw [emitted, (has a member).emission_flow packet] at brings
    cases brings
  | predicate has inside within => exact step_predicate has inside order order' member fresh brings

end Step

end Library

end FlowMetering
