import FlowMetering.Proofs.UnheardRegisters

/-! Registers with one argument that varies. While a packet is delivered they are given what this argument emits, and nothing
else, at most once. So what a packet leaves of their instances follows from what the argument makes of it. -/

namespace FlowMetering

def Argument.source : Argument → Source
  | .raw => .flow
  | .register q => .register q

namespace Library

variable {φ : Type} {p : Program Instance φ} {m : Meter Instance φ}

/-- A register that reads one argument, and constants besides it. -/
structure Sole (p : Program Instance φ) (r : Nat) (a : Argument) : Prop where
  node : ∃ node, p.nodes[r]? = some node ∧ node.isControl = false ∧ a ∈ node.args ∧
    ∀ arg ∈ node.args, arg = a ∨ p.known arg ≠ none
  free : p.known a = none

namespace Sole

variable {r : Nat} {a : Argument}

theorem inside (sole : Sole p r a) : r < p.size := by
  obtain ⟨node, found, -⟩ := sole.node
  exact (List.getElem?_eq_some_iff.mp found).1

private theorem mem_events (sole : Sole p r a) : r ∈ p.events ↔ a = .raw := by
  obtain ⟨node, found, plain, reads, only⟩ := sole.node
  rw [Program.mem_events found, and_iff_right plain]
  constructor
  · rintro (raw | clocked)
    · exact ((only .raw raw).resolve_right fun known => known rfl).symm
    · obtain ⟨-, -, -, constants⟩ := Program.isClocked_iff.mp clocked
      obtain ⟨q, reg, rfl, found', constant⟩ := constants a reads
      have free := sole.free
      rw [Program.known_of_found found'] at free
      rw [free] at constant
      cases constant
  · rintro rfl
    exact .inl reads

theorem mem_dependents (sole : Sole p r a) {q : Nat} : r ∈ p.dependents q ↔ a = .register q := by
  obtain ⟨node, found, plain, reads, only⟩ := sole.node
  constructor
  · intro dependent
    have member := Program.mem_args_of_dependent dependent
    rw [Program.args_of_found found] at member
    exact ((only _ member).resolve_right fun known => known (known_of_dependent dependent)).symm
  · rintro rfl
    refine Program.mem_dependents.mpr ⟨?_, sole.inside, Program.mem_arguments.mpr ⟨node, found, reads⟩⟩
    have free := sole.free
    rw [Program.isConstant, Program.node?]
    cases found' : p.nodes[q]? with
    | none => rfl
    | some node' =>
      rw [Program.known_of_found found'] at free
      exact Option.isSome_eq_false_iff.mpr (Option.isNone_iff_eq_none.mpr free)

end Sole

/-- What an argument gives to its readers while a packet is delivered. -/
def supplied (m : Meter Instance φ) (packet : Packet) (t : Turn Instance φ) : Argument → List Input
  | .raw => [.packet packet .flow]
  | .register q => (Call.emissions (m.deliveryCalls packet t) q).filterMap (·.input? packet q)

def SpeaksOnce (m : Meter Instance φ) : Prop :=
  ∀ packet t, t.Shows (Ready m.program) → ∀ r, (Call.emissions (m.deliveryCalls packet t) r).countP Emission.speaks ≤ 1

private theorem length_filterMap_le (packet : Packet) (q : Nat) (es : List Emission) :
    (es.filterMap (·.input? packet q)).length ≤ es.countP Emission.speaks := by
  induction es with
  | nil => exact Nat.le_refl 0
  | cons e es ih =>
    rw [List.filterMap_cons, List.countP_cons]
    cases given : e.input? packet q with
    | none => exact Nat.le_add_right_of_le ih
    | some input =>
      rw [(Emission.source_of_input? given).2]
      exact Nat.succ_le_succ ih

theorem speaksOnce_of_compile {limit : Nat} {s : Specification} {m : Meter Instance PacketFilter}
    (compiled : s.compile catalog limit = .ok m.program) : SpeaksOnce m := by
  intro packet t ready r
  obtain ⟨stages⟩ := Specification.compile_stages compiled
  obtain ⟨layout⟩ := stages.layout
  obtain ⟨front, fronted⟩ := exists_front stages
  exact emits_once stages layout (Specification.compile_ordered compiled) packet ready fronted r

section Deliveries

variable {packet : Packet} {t : Turn Instance φ}

private theorem handed_eq_supplied {r q : Nat} (reads : ∀ q', r ∈ m.program.dependents q' ↔ q' = q) (calls : List Call) :
    calls.flatMap (m.handed packet r) = (Call.emissions calls q).filterMap (·.input? packet q) := by
  induction calls with
  | nil => rfl
  | cons call calls ih =>
    rw [List.flatMap_cons, ih, Meter.handed, ← List.singleton_append, Call.emissions_append, List.filterMap_append]
    by_cases here : call.register = q
    · rw [if_pos ((reads _).mpr here)]
      cases given : call.emission.input? packet q <;> simp [Call.emissions, here, given]
    · rw [if_neg fun dependent => here ((reads _).mp dependent)]
      simp [Call.emissions, here]

variable (ordered : m.program.Ordered) (once : SpeaksOnce m) (ready : t.Shows (Ready m.program))
include ordered once ready

/-- What a register is given while a packet is delivered is what its argument gives. -/
theorem Sole.inputs {r : Nat} {a : Argument} (sole : Sole m.program r a) :
    Call.inputs (m.deliveryCalls packet t) r = supplied m packet t a := by
  have arrived := Meter.inputs_perm ordered packet t r
  cases a with
  | raw =>
    have nothing : (m.deliveryCalls packet t).flatMap (m.handed packet r) = [] := by
      refine List.flatMap_eq_nil_iff.mpr fun call _ => if_neg fun reads => ?_
      cases sole.mem_dependents.mp reads
    rw [if_pos (sole.mem_events.mpr rfl), nothing] at arrived
    exact List.perm_singleton.mp arrived
  | register q =>
    have outside : r ∉ m.program.events := by
      intro event
      cases sole.mem_events.mp event
    have only (q' : Nat) : r ∈ m.program.dependents q' ↔ q' = q := by
      rw [sole.mem_dependents, Argument.register.injEq, eq_comm]
    rw [if_neg outside, List.nil_append, handed_eq_supplied only] at arrived
    have few := (length_filterMap_le packet q (Call.emissions (m.deliveryCalls packet t) q)).trans (once packet t ready q)
    rw [supplied]
    generalize (Call.emissions (m.deliveryCalls packet t) q).filterMap (·.input? packet q) = given at arrived few
    rcases given with - | ⟨input, - | ⟨another, rest⟩⟩
    · exact arrived.eq_nil
    · exact List.perm_singleton.mp arrived
    · exact absurd few (by simp)

omit ordered once ready in
/-- What a delivery leaves of an instance follows from what its register is given. -/
theorem deliverPacket_instance {r : Nat} {s : Instance} (inside : r < m.program.size)
    (held : t.record.instances[r]? = some (some s)) : (m.deliverPacket packet t).record.instances[r]? =
      some (some (s.after (footing m.program r) (Call.inputs (m.deliveryCalls packet t) r)).finishEvent) := by
  rw [Meter.deliverPacket, closed_instances, if_pos inside, ((deliveryCalls_follows m packet t).held r s held).1]
  rfl

theorem Sole.delivered {r : Nat} {a : Argument} (sole : Sole m.program r a) {s : Instance}
    (held : t.record.instances[r]? = some (some s)) : (m.deliverPacket packet t).record.instances[r]? =
      some (some (s.after (footing m.program r) (supplied m packet t a)).finishEvent) := by
  rw [deliverPacket_instance sole.inside held, sole.inputs ordered once ready]

/-- What a register gives to its readers follows from what it is given itself. -/
theorem Sole.supplied {r : Nat} {a : Argument} (sole : Sole m.program r a) {s : Instance}
    (held : t.record.instances[r]? = some (some s)) : supplied m packet t (.register r) =
      (s.answers (footing m.program r) (supplied m packet t a)).filterMap (·.input? packet r) := by
  rw [Library.supplied, ((deliveryCalls_follows m packet t).held r s held).2, sole.inputs ordered once ready]

def Gates (p : Program Instance φ) (a : Argument) : Prop :=
  ∀ q, a = .register q → ∀ s, Sorted p q s → s.role? = some .selection

omit ordered in
/-- A selection gives the packet to its readers, or nothing. -/
theorem supplied_gate {a : Argument} (gates : Gates m.program a) :
    supplied m packet t a = [] ∨ supplied m packet t a = [.packet packet a.source] := by
  cases a with
  | raw => exact .inr rfl
  | register q =>
    have few := (length_filterMap_le packet q (Call.emissions (m.deliveryCalls packet t) q)).trans (once packet t ready q)
    have only : ∀ input ∈ supplied m packet t (.register q), input = .packet packet (.register q) := by
      intro input member
      obtain ⟨e, said, given⟩ := List.mem_filterMap.mp member
      have follows := deliveryCalls_follows m packet t
      rcases t.idle_or_held q with idle | ⟨s, held⟩
      · cases (follows.idle q idle).2 e said ▸ given
      · rw [(follows.held q s held).2] at said
        have allowed := s.allowed_answers _ _ e said
        rw [gates q rfl s (ready.1.1 q s held)] at allowed
        rcases allowed with rfl | rfl
        · cases given
        · exact (Option.some.inj given).symm
    change (supplied m packet t (.register q)).length ≤ 1 at few
    generalize supplied m packet t (.register q) = given at few only ⊢
    rcases given with - | ⟨input, - | ⟨another, rest⟩⟩
    · exact .inl rfl
    · exact .inr (congrArg (fun input => [input]) (only input List.mem_cons_self))
    · exact absurd few (by simp)

end Deliveries

def Begun (p : Program Instance φ) (instances : List (Option Instance)) : Prop :=
  ∀ (r : Nat) node build, p.nodes[r]? = some node → node.build? = some build →
    instances[r]? = some (some ((build node.kind).start (footing p r)))

/-- Whatever instances have been called for before, a start leaves what it would leave of those that have been built. -/
theorem begun_of_recorded {allowed : Packet → Prop} {past : Journal} {now : Int64} {t : Turn Instance φ}
    (recorded : Recorded m allowed past (m.start now t)) : Begun m.program (m.start now t).record.instances := by
  intro r node build found built
  have initial : m.make.instances[r]? = some (some (build node.kind)) := by
    rw [Meter.make, List.getElem?_map, found, Option.map_some, built]
    rfl
  have held := recorded.instances r
  rw [recalled, initial, Option.map_some, Option.map_some] at held
  obtain ⟨-, started⟩ := start_sweep (m := m) now
    { t.log (.segment now) with record := { t.record with values := m.program.nodes.map (·.constant) } } m.program.size
  obtain ⟨c, s, args, values, same⟩ := started r (List.getElem?_eq_some_iff.mp found).1 _ held
  have seen (i : Nat) : c.argument i = (footing m.program r).argument i :=
    (argument_of_constants args values i).trans (argument_of_constants rfl rfl i).symm
  have again : s.start c = (s.start c).start c := (Instance.start_called c c .start s).symm
  rw [held, same, again, ← same, start_recallAll,
    Instance.start_congr (congrArg List.length (show c.args = (footing m.program r).args from args)) seen]

end Library

end FlowMetering
