import FlowMetering.Library.Catalog
import FlowMetering.Proofs.LifeCycle
import Mathlib.Tactic.Ring

/-! Deliveries as trees of calls. An instance may emit at every call, and every emission calls further instances, without
a bound in sight. What bounds the calls is the order of the registers: only greater ones are called in turn, so the calls
that one delivery brings about form a finite tree. -/

namespace FlowMetering

def Happening.called? : Happening → Option Nat
  | .call r _ _ => some r
  | _ => none

/-- A call of an instance, with the calls that its emission brings about, in their order. -/
inductive CallTree where
  | call (register : Nat) (within : List CallTree)

namespace CallTree

mutual
/-- The registers that are called, one for each call, in the order of the calls. -/
def registers : CallTree → List Nat
  | .call r within => r :: allRegisters within
termination_by structural tree => tree

def allRegisters : List CallTree → List Nat
  | [] => []
  | tree :: trees => registers tree ++ allRegisters trees
termination_by structural trees => trees
end

/-- Calls that are under way at the same time, the outermost first. -/
inductive Nested : List CallTree → List Nat → Prop
  | nil (forest : List CallTree) : Nested forest []
  | cons {forest within : List CallTree} {r : Nat} {path : List Nat} (member : .call r within ∈ forest)
      (inner : Nested within path) : Nested forest (r :: path)

private theorem allRegisters_append (one other : List CallTree) :
    allRegisters (one ++ other) = allRegisters one ++ allRegisters other := by
  induction one with
  | nil => rfl
  | cons tree trees ih => rw [List.cons_append, allRegisters, allRegisters, ih, List.append_assoc]

/-- Calls of registers from `bound` on: what is called within a call has a greater register, and so has what is called after
it. -/
inductive Ascending (size : Nat) : Nat → List CallTree → Prop
  | nil (bound : Nat) : Ascending size bound []
  | cons {bound r : Nat} {within rest : List CallTree} (above : bound ≤ r) (inside : r < size)
      (deeper : Ascending size (r + 1) within) (later : Ascending size (r + 1) rest) :
      Ascending size bound (.call r within :: rest)

namespace Ascending

variable {size bound : Nat} {forest : List CallTree}

private theorem mono {small : Nat} (le : small ≤ bound) (ascending : Ascending size bound forest) : Ascending size small forest := by
  cases ascending with
  | nil => exact .nil small
  | cons above inside deeper later => exact .cons (Nat.le_trans le above) inside deeper later

private theorem mem_registers (ascending : Ascending size bound forest) : ∀ r ∈ allRegisters forest, bound ≤ r ∧ r < size := by
  induction ascending with
  | nil => exact fun _ member => absurd member List.not_mem_nil
  | cons above inside deeper later within rest =>
    intro q member
    rcases List.mem_append.mp member with member | member
    · rcases List.mem_cons.mp member with rfl | member
      · exact ⟨above, inside⟩
      · have := within q member
        omega
    · have := rest q member
      omega

private theorem of_mem {r : Nat} {within : List CallTree} (ascending : Ascending size bound forest)
    (member : .call r within ∈ forest) : bound ≤ r ∧ r < size ∧ Ascending size (r + 1) within := by
  induction ascending with
  | nil => exact absurd member List.not_mem_nil
  | cons above inside deeper later _ ih =>
    rcases List.mem_cons.mp member with same | member
    · cases same
      exact ⟨above, inside, deeper⟩
    · obtain ⟨later, inside, deeper⟩ := ih member
      exact ⟨by omega, inside, deeper⟩

private theorem nested {path : List Nat} (ascending : Ascending size bound forest) (nested : Nested forest path) :
    path.Pairwise (· < ·) ∧ (∀ q ∈ path, bound ≤ q) ∧ path.length ≤ size - bound := by
  induction nested generalizing bound with
  | nil forest => exact ⟨.nil, fun _ member => absurd member List.not_mem_nil, Nat.zero_le _⟩
  | cons member inner ih =>
    obtain ⟨above, inside, deeper⟩ := ascending.of_mem member
    obtain ⟨sorted, greater, short⟩ := ih deeper
    refine ⟨.cons greater sorted, ?_, ?_⟩
    · intro q member
      rcases List.mem_cons.mp member with rfl | member
      · exact above
      · have := greater q member
        omega
    · rw [List.length_cons]
      omega

private theorem length_lt (ascending : Ascending size bound forest) : (allRegisters forest).length < 2 ^ (size - bound) := by
  induction ascending with
  | nil => exact Nat.two_pow_pos _
  | @cons bound r within rest above inside deeper later ihWithin ihRest =>
    have split : size - r = (size - (r + 1)) + 1 := by omega
    have mono : 2 ^ (size - r) ≤ 2 ^ (size - bound) := Nat.pow_le_pow_right Nat.zero_lt_two (by omega)
    have double : 2 ^ (size - r) = 2 * 2 ^ (size - (r + 1)) := by rw [split, pow_succ, Nat.mul_comm]
    rw [allRegisters, registers, List.length_append, List.length_cons]
    omega

end Ascending

end CallTree

namespace Meter

variable {σ φ : Type} [Feature σ]

mutual
/-- A call of the instance of a register with all that follows from it: the calls that it brings about, and the turn that it
ends in. Nothing here bounds how far calls go; a call that went on for ever would end nowhere. -/
inductive Calls (m : Meter σ φ) (now : Int64) (packet : Option Packet) :
    Nat → Phase → (Context → σ → σ × Reaction) → Turn σ φ → List CallTree → Turn σ φ → Prop
  | idle {r : Nat} {phase : Phase} {answer : Context → σ → σ × Reaction} {t : Turn σ φ}
      (absent : ∀ s, t.record.instances[r]? ≠ some (some s)) : Calls m now packet r phase answer t [] t
  | called {r : Nat} {phase : Phase} {answer : Context → σ → σ × Reaction} {t last : Turn σ φ} {within : List CallTree}
      {s : σ} (held : t.record.instances[r]? = some (some s))
      (spreads : Spreads m now packet r (m.call now r phase answer t).2 (m.call now r phase answer t).1 within last) :
      Calls m now packet r phase answer t [.call r within] last

/-- An emission of a register with all that follows from it. -/
inductive Spreads (m : Meter σ φ) (now : Int64) (packet : Option Packet) :
    Nat → Emission → Turn σ φ → List CallTree → Turn σ φ → Prop
  | nothing {r : Nat} {t : Turn σ φ} : Spreads m now packet r .nothing t [] t
  | cleared {r : Nat} {t : Turn σ φ} : Spreads m now packet r (.value none) t [] (t.setValue r none)
  | value {r : Nat} {v : Value} {t last : Turn σ φ} {forest : List CallTree}
      (each : CallsEach m now packet (.value v r) (m.program.dependents r) (t.setValue r (some v)) forest last) :
      Spreads m now packet r (.value (some v)) t forest last
  | unforwarded {r : Nat} {t : Turn σ φ} (missing : packet = none) : Spreads m now packet r .forward t [] t
  | forward {r : Nat} {p : Packet} {t last : Turn σ φ} {forest : List CallTree} (present : packet = some p)
      (each : CallsEach m now packet (.packet p (.register r)) (m.program.dependents r) t forest last) :
      Spreads m now packet r .forward t forest last

inductive CallsEach (m : Meter σ φ) (now : Int64) (packet : Option Packet) :
    Input → List Nat → Turn σ φ → List CallTree → Turn σ φ → Prop
  | nil {input : Input} {t : Turn σ φ} : CallsEach m now packet input [] t [] t
  | cons {input : Input} {d : Nat} {ds : List Nat} {t middle last : Turn σ φ} {one others : List CallTree}
      (first : Calls m now packet d (.event input) (Feature.event input) t one middle)
      (rest : CallsEach m now packet input ds middle others last) :
      CallsEach m now packet input (d :: ds) t (one ++ others) last
end

variable {m : Meter σ φ} {now : Int64} {packet : Option Packet}

mutual
private theorem Calls.unique {r : Nat} {phase : Phase} {answer : Context → σ → σ × Reaction} {t last last' : Turn σ φ}
    {forest forest' : List CallTree} (one : Calls m now packet r phase answer t forest last)
    (other : Calls m now packet r phase answer t forest' last') : forest' = forest ∧ last' = last := by
  match one, other with
  | .idle _, .idle _ => exact ⟨rfl, rfl⟩
  | .idle absent, .called held _ => exact absurd held (absent _)
  | .called held _, .idle absent => exact absurd held (absent _)
  | .called _ spreads, .called _ spreads' =>
    obtain ⟨rfl, rfl⟩ := spreads.unique spreads'
    exact ⟨rfl, rfl⟩
termination_by structural one

private theorem Spreads.unique {r : Nat} {emission : Emission} {t last last' : Turn σ φ} {forest forest' : List CallTree}
    (one : Spreads m now packet r emission t forest last) (other : Spreads m now packet r emission t forest' last') :
    forest' = forest ∧ last' = last := by
  match one, other with
  | .nothing, .nothing => exact ⟨rfl, rfl⟩
  | .cleared, .cleared => exact ⟨rfl, rfl⟩
  | .value each, .value each' => exact each.unique each'
  | .unforwarded _, .unforwarded _ => exact ⟨rfl, rfl⟩
  | .unforwarded missing, .forward present _ => exact absurd (missing.symm.trans present) nofun
  | .forward present _, .unforwarded missing => exact absurd (missing.symm.trans present) nofun
  | .forward present each, .forward present' each' =>
    obtain rfl := Option.some.inj (present.symm.trans present')
    exact each.unique each'
termination_by structural one

private theorem CallsEach.unique {input : Input} {ds : List Nat} {t last last' : Turn σ φ} {forest forest' : List CallTree}
    (one : CallsEach m now packet input ds t forest last) (other : CallsEach m now packet input ds t forest' last') :
    forest' = forest ∧ last' = last := by
  match one, other with
  | .nil, .nil => exact ⟨rfl, rfl⟩
  | .cons first rest, .cons first' rest' =>
    obtain ⟨same, middle⟩ := first.unique first'
    obtain ⟨same', last⟩ := rest.unique (middle ▸ rest')
    exact ⟨by rw [same, same'], last⟩
termination_by structural one
end

mutual
private theorem Calls.journalled {r : Nat} {phase : Phase} {answer : Context → σ → σ × Reaction} {t last : Turn σ φ}
    {forest : List CallTree} (calls : Calls m now packet r phase answer t forest last) :
    ∃ written, last.journal = t.journal ++ written ∧ written.map Happening.called? = (CallTree.allRegisters forest).map some := by
  match calls with
  | .idle _ => exact ⟨[], (List.append_nil _).symm, rfl⟩
  | .called (s := s) held spreads =>
    obtain ⟨written, journal, each⟩ := spreads.journalled
    let remarks := (answer (m.context t now r) s).2.remarks
    have first : (m.call now r phase answer t).1.journal = t.journal ++ [.call r phase remarks] := by
      rw [call_eq held]
      rfl
    refine ⟨.call r phase remarks :: written, ?_, ?_⟩
    · rw [journal, first, List.append_assoc, List.singleton_append]
    · rw [CallTree.allRegisters, CallTree.registers, CallTree.allRegisters, List.append_nil, List.map_cons, each]
      rfl
termination_by structural calls

private theorem Spreads.journalled {r : Nat} {emission : Emission} {t last : Turn σ φ} {forest : List CallTree}
    (spreads : Spreads m now packet r emission t forest last) :
    ∃ written, last.journal = t.journal ++ written ∧ written.map Happening.called? = (CallTree.allRegisters forest).map some := by
  match spreads with
  | .nothing | .cleared | .unforwarded _ => exact ⟨[], (List.append_nil _).symm, rfl⟩
  | .value each => exact each.journalled
  | .forward _ each => exact each.journalled
termination_by structural spreads

private theorem CallsEach.journalled {input : Input} {ds : List Nat} {t last : Turn σ φ} {forest : List CallTree}
    (calls : CallsEach m now packet input ds t forest last) :
    ∃ written, last.journal = t.journal ++ written ∧ written.map Happening.called? = (CallTree.allRegisters forest).map some := by
  match calls with
  | .nil => exact ⟨[], (List.append_nil _).symm, rfl⟩
  | .cons first rest =>
    obtain ⟨one, grown, each⟩ := first.journalled
    obtain ⟨other, growing, each'⟩ := rest.journalled
    refine ⟨one ++ other, by rw [growing, grown, List.append_assoc], ?_⟩
    rw [CallTree.allRegisters_append, List.map_append, List.map_append, each, each']
termination_by structural calls
end

mutual
private theorem Calls.ascending (ordered : m.program.Ordered) {r : Nat} {phase : Phase} {answer : Context → σ → σ × Reaction}
    {t last : Turn σ φ} {forest : List CallTree} (calls : Calls m now packet r phase answer t forest last) :
    forest = [] ∨ ∃ within, forest = [.call r within] ∧ CallTree.Ascending m.program.size (r + 1) within := by
  match calls with
  | .idle _ => exact .inl rfl
  | .called _ spreads => exact .inr ⟨_, rfl, spreads.ascending ordered⟩
termination_by structural calls

private theorem Spreads.ascending (ordered : m.program.Ordered) {r : Nat} {emission : Emission} {t last : Turn σ φ} {forest : List CallTree}
    (spreads : Spreads m now packet r emission t forest last) : CallTree.Ascending m.program.size (r + 1) forest := by
  match spreads with
  | .nothing | .cleared | .unforwarded _ => exact .nil _
  | .value each | .forward _ each =>
    refine each.ascending ordered (m.program.dependents_ascending r) ?_
    intro d member
    exact ⟨ordered.lt_of_dependent member, (Program.mem_dependents.mp member).2.1⟩
termination_by structural spreads

private theorem CallsEach.ascending (ordered : m.program.Ordered) {input : Input} {bound : Nat} {ds : List Nat}
    {t last : Turn σ φ} {forest : List CallTree} (calls : CallsEach m now packet input ds t forest last) (sorted : ds.Pairwise (· < ·))
    (range : ∀ d ∈ ds, bound ≤ d ∧ d < m.program.size) : CallTree.Ascending m.program.size bound forest := by
  match calls with
  | .nil => exact .nil bound
  | .cons (d := d) first rest =>
    obtain ⟨above, inside⟩ := range d List.mem_cons_self
    obtain ⟨lower, sorted⟩ := List.pairwise_cons.mp sorted
    have later := rest.ascending ordered sorted fun d' member =>
      ⟨Nat.succ_le_of_lt (lower d' member), (range d' (List.mem_cons_of_mem _ member)).2⟩
    rcases first.ascending ordered with rfl | ⟨within, rfl, deeper⟩
    · exact later.mono (by omega)
    · exact .cons above inside deeper later
termination_by structural calls
end

private theorem callsEach_foldl {next : Nat → Input → Turn σ φ → Turn σ φ} {input : Input} {ds : List Nat}
    (step : ∀ d ∈ ds, ∀ t, ∃ forest, Calls m now packet d (.event input) (Feature.event input) t forest (next d input t))
    (t : Turn σ φ) : ∃ forest, CallsEach m now packet input ds t forest (ds.foldl (fun t d => next d input t) t) := by
  induction ds generalizing t with
  | nil => exact ⟨[], .nil⟩
  | cons d ds ih =>
    obtain ⟨one, first⟩ := step d List.mem_cons_self t
    obtain ⟨others, rest⟩ := ih (fun d member => step d (List.mem_cons_of_mem _ member)) (next d input t)
    exact ⟨one ++ others, .cons first rest⟩

private theorem spreads_propagate {next : Nat → Input → Turn σ φ → Turn σ φ} {r : Nat}
    (step : ∀ d ∈ m.program.dependents r, ∀ input t,
      ∃ forest, Calls m now packet d (.event input) (Feature.event input) t forest (next d input t))
    (emission : Emission) (t : Turn σ φ) :
    ∃ forest, Spreads m now packet r emission t forest (m.propagate next packet r t emission) := by
  have each (input : Input) (t : Turn σ φ) := callsEach_foldl (fun d member t => step d member input t) t
  cases emission with
  | nothing => exact ⟨[], .nothing⟩
  | value v =>
    cases v with
    | none => exact ⟨[], .cleared⟩
    | some v =>
      obtain ⟨forest, calls⟩ := each (.value v r) (t.setValue r (some v))
      exact ⟨forest, .value calls⟩
  | forward =>
    cases present : packet with
    | none => exact ⟨[], .unforwarded rfl⟩
    | some p =>
      subst present
      obtain ⟨forest, calls⟩ := each (.packet p (.register r)) t
      exact ⟨forest, .forward rfl calls⟩

private theorem calls_propagate {next : Nat → Input → Turn σ φ → Turn σ φ} {r : Nat}
    (step : ∀ d ∈ m.program.dependents r, ∀ input t,
      ∃ forest, Calls m now packet d (.event input) (Feature.event input) t forest (next d input t))
    (phase : Phase) (answer : Context → σ → σ × Reaction) (t : Turn σ φ) :
    ∃ forest, Calls m now packet r phase answer t forest
      (m.propagate next packet r (m.call now r phase answer t).1 (m.call now r phase answer t).2) := by
  rcases t.idle_or_held r with idle | ⟨s, held⟩
  · rw [call_idle idle]
    exact ⟨[], .idle idle⟩
  · obtain ⟨within, spreads⟩ := spreads_propagate step (m.call now r phase answer t).2 (m.call now r phase answer t).1
    exact ⟨_, .called held spreads⟩

/-- Deliveries do not run out of fuel: what is given for a register suffices for the calls to end by themselves. -/
private theorem deliver_calls (ordered : m.program.Ordered) {fuel r : Nat} (inside : r < m.program.size)
    (enough : m.program.size ≤ r + fuel) (input : Input) (t : Turn σ φ) :
    ∃ forest, Calls m now packet r (.event input) (Feature.event input) t forest (m.deliver now packet fuel r input t) := by
  induction fuel generalizing r input t with
  | zero => omega
  | succ fuel ih =>
    apply calls_propagate
    intro d member input t
    have later := ordered.lt_of_dependent member
    exact ih (Program.mem_dependents.mp member).2.1 (by omega) input t

private theorem dispatch_calls (ordered : m.program.Ordered) {r : Nat} (inside : r < m.program.size) (input : Input) (t : Turn σ φ) :
    ∃ forest, Calls m now packet r (.event input) (Feature.event input) t forest (m.dispatch now packet r input t) :=
  deliver_calls ordered inside (by omega) input t

/-- A call that ends: it ends in one way only, after finitely many calls, all of which are written into the journal. They
are of registers from the one that is called on; calls that are under way at the same time have greater registers the
deeper they are, so that they nest no deeper than there are registers left. -/
structure Ends (m : Meter σ φ) (now : Int64) (packet : Option Packet) (r : Nat) (phase : Phase)
    (answer : Context → σ → σ × Reaction) (t : Turn σ φ) (forest : List CallTree) (last : Turn σ φ) : Prop where
  calls : Calls m now packet r phase answer t forest last
  unique : ∀ forest' last', Calls m now packet r phase answer t forest' last' → forest' = forest ∧ last' = last
  journal : ∃ written, last.journal = t.journal ++ written ∧ written.map Happening.called? = (CallTree.allRegisters forest).map some
  registers : ∀ q ∈ CallTree.allRegisters forest, r ≤ q ∧ q < m.program.size
  nested : ∀ path, CallTree.Nested forest path → path.Pairwise (· < ·) ∧ path.length ≤ m.program.size - r
  count : (CallTree.allRegisters forest).length < 2 ^ (m.program.size - r)

private theorem Calls.ends (ordered : m.program.Ordered) {r : Nat} (inside : r < m.program.size) {phase : Phase}
    {answer : Context → σ → σ × Reaction} {t last : Turn σ φ} {forest : List CallTree}
    (calls : Calls m now packet r phase answer t forest last) : m.Ends now packet r phase answer t forest last := by
  have ascending : CallTree.Ascending m.program.size r forest := by
    rcases calls.ascending ordered with rfl | ⟨within, rfl, deeper⟩
    · exact .nil r
    · exact .cons (Nat.le_refl r) inside deeper (.nil _)
  refine ⟨calls, fun _ _ => calls.unique, calls.journalled, ascending.mem_registers, ?_, ascending.length_lt⟩
  intro path nested
  obtain ⟨sorted, -, short⟩ := ascending.nested nested
  exact ⟨sorted, short⟩

end Meter

/-- In compiled programs propagation ends, whatever the instances do: an input that is given to a register, and the stop of
a register, come to an end after finitely many calls. -/
theorem Specification.propagation_ends {σ φ : Type} [Feature σ] {catalog : Catalog σ φ} {limit : Nat} {s : Specification}
    {m : Meter σ φ} (compiled : s.compile catalog limit = .ok m.program) {r : Nat} (inside : r < m.program.size)
    (now : Int64) (t : Turn σ φ) :
    (∀ packet input, ∃ forest, m.Ends now packet r (.event input) (Feature.event input) t forest
      (m.dispatch now packet r input t)) ∧
    ∀ reason, ∃ forest, m.Ends now none r (.stop reason) (Feature.stop reason) t forest (m.stopOne reason now t r) := by
  have ordered := Specification.compile_ordered compiled
  constructor
  · intro packet input
    obtain ⟨forest, calls⟩ := Meter.dispatch_calls ordered inside input t
    exact ⟨forest, calls.ends ordered inside⟩
  · intro reason
    obtain ⟨forest, calls⟩ := Meter.calls_propagate (fun d member input t =>
      Meter.dispatch_calls ordered (Program.mem_dependents.mp member).2.1 input t) (.stop reason) (Feature.stop reason) t
    exact ⟨forest, calls.ends ordered inside⟩

def doubled : Specification :=
  .ofFeatures [.array [.string "sum", .array [.string "add", .string "ipTotalLength", .string "ipTotalLength"]]]

theorem Specification.propagation_ends_doubled : ∃ p, doubled.compile Library.catalog 4096 = .ok p ∧ 0 < p.size ∧
    let m : Meter Library.Instance Library.PacketFilter := ⟨p, []⟩
    let t := m.start 1 (.ofRecord m.make)
    let input := .packet (.ofLength 1 60) .flow
    (∃ forest, m.Ends 1 (some (.ofLength 1 60)) 0 (.event input) (Feature.event input) t forest
      (m.dispatch 1 (some (.ofLength 1 60)) 0 input t) ∧ CallTree.allRegisters forest = [0, 1, 2]) ∧
    ∃ forest, m.Ends 1 none 0 (.stop .forcedEnd) (Feature.stop .forcedEnd) t forest (m.stopOne .forcedEnd 1 t 0) := by
  have facts : ((doubled.compile Library.catalog 4096).toOption.any fun p =>
      let m : Meter Library.Instance Library.PacketFilter := ⟨p, []⟩
      let t := m.start 1 (.ofRecord m.make)
      p.size == 3 && (m.dispatch 1 (some (.ofLength 1 60)) 0 (.packet (.ofLength 1 60) .flow) t).journal.map Happening.called? ==
        t.journal.map Happening.called? ++ [some 0, some 1, some 2]) = true := by decide +kernel
  cases compiled : doubled.compile Library.catalog 4096 with
  | error problem =>
    rw [compiled] at facts
    cases facts
  | ok p =>
    rw [compiled] at facts
    obtain ⟨size, journal⟩ := Bool.and_eq_true_iff.mp facts
    have inside : 0 < p.size := by
      rw [eq_of_beq size]
      exact Nat.zero_lt_succ 2
    obtain ⟨dispatched, stopped⟩ := propagation_ends (m := ⟨p, []⟩) compiled inside 1
      (Meter.start ⟨p, []⟩ 1 (.ofRecord (Meter.make ⟨p, []⟩)))
    refine ⟨p, rfl, inside, ?_, stopped .forcedEnd⟩
    obtain ⟨forest, ends⟩ := dispatched (some (.ofLength 1 60)) (.packet (.ofLength 1 60) .flow)
    refine ⟨forest, ends, ?_⟩
    obtain ⟨written, grown, calls⟩ := ends.journal
    have same := eq_of_beq journal
    rw [grown, List.map_append, List.append_cancel_left_eq, calls] at same
    exact List.map_injective_iff.mpr (Option.some_injective Nat) same

end FlowMetering
