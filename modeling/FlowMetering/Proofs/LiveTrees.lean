import FlowMetering.Bound.Lowering
import FlowMetering.Proofs.Evaluation
import FlowMetering.Proofs.Trees

/-! Expressions that run by themselves. Each call of a live tree holds an instance; for a packet the arguments of a
call are asked first, and what they emit is given to its instance from left to right. -/

namespace FlowMetering

def Emission.value? : Emission → Option Value
  | .value v => v
  | _ => none

def Emission.isForward : Emission → Bool
  | .forward => true
  | _ => false

namespace Library

abbrev Plain := Tree Unit (Binding Instance)

def plain (tree : Bound Instance) : Plain :=
  tree.map (fun _ => ()) id

def instance? (binding : Binding Instance) : Option Instance :=
  binding.chosen.entry.build.map fun build => build binding.kind

def constant? {ι : Type} : Tree Unit ι → Option Value
  | .constant value => some value
  | _ => none

/-- An instance started on arguments of which only the constants are known. -/
def Instance.startOn (constants : List (Option Value)) (s : Instance) : Instance :=
  s.start ⟨0, (List.range constants.length).map .register, constants, 0, 0⟩

/-- An expression at run time. A call that cannot be built has no instance. -/
abbrev Live := Tree Unit (Option Instance)

mutual
def awake : Plain → Live
  | .raw mark => .raw mark
  | .constant value => .constant value
  | .call binding args => .call ((instance? binding).map (Instance.startOn (args.map constant?))) (awakeAll args)
termination_by structural tree => tree

def awakeAll : List Plain → List Live
  | [] => []
  | arg :: args => awake arg :: awakeAll args
termination_by structural args => args
end

theorem awakeAll_eq_map (args : List Plain) : awakeAll args = args.map awake := by
  induction args with
  | nil => rfl
  | cons arg args ih => rw [awakeAll, ih, List.map_cons]

namespace Instance

/-- What an instance makes of the emission of an argument, where nothing comes in its answer stays. -/
def take (p : Packet) (position : Nat) (e : Emission) (got : Instance × Emission) : Instance × Emission :=
  match e with
  | .nothing => got
  | .value none => got
  | .value (some v) => ((got.1.value v [position]).1, (got.1.value v [position]).2.emission)
  | .forward => ((got.1.packet p).1, (got.1.packet p).2.emission)

/-- What an instance makes of the emissions of its arguments, the first one being number `position`. The answer to the
last one counts. -/
def feed (p : Packet) : Nat → List Emission → Instance × Emission → Instance × Emission
  | _, [], got => got
  | position, e :: es, got => feed p (position + 1) es (take p position e got)

theorem feed_append (p : Packet) (position : Nat) (es es' : List Emission) (got : Instance × Emission) :
    feed p position (es ++ es') got = feed p (position + es.length) es' (feed p position es got) := by
  induction es generalizing position got with
  | nil => rfl
  | cons e es ih => rw [List.cons_append, feed, feed, ih, List.length_cons, Nat.add_assoc, Nat.add_comm 1]

theorem feed_nothing (p : Packet) (position : Nat) {es : List Emission} (nothing : ∀ e ∈ es, e = .nothing)
    (got : Instance × Emission) : feed p position es got = got := by
  induction es generalizing position with
  | nil => rfl
  | cons e es ih =>
    rw [feed, nothing e List.mem_cons_self]
    exact ih _ fun e member => nothing e (List.mem_cons_of_mem _ member)

def receive (position : Nat) (e : Emission) (s : Instance) : Instance :=
  match e with
  | .nothing | .value none | .forward => s
  | .value (some v) => (s.value v [position]).1

/-- What an instance has got from the results of its arguments at the end of a flow. -/
def gather : Nat → List Emission → Instance → Instance
  | _, [], s => s
  | position, e :: es, s => gather (position + 1) es (s.receive position e)

end Instance

namespace Live

mutual
/-- Runs a packet through an expression. -/
def pull (p : Packet) : Live → Live × Emission
  | .raw mark => (.raw mark, .forward)
  | .constant value => (.constant value, .nothing)
  | .call none args => (.call none ((pullAll p args).map (·.1)), .nothing)
  | .call (some s) args =>
    (.call (some (Instance.feed p 0 ((pullAll p args).map (·.2)) (s, .nothing)).1.finishEvent) ((pullAll p args).map (·.1)),
      (Instance.feed p 0 ((pullAll p args).map (·.2)) (s, .nothing)).2)
termination_by structural live => live

def pullAll (p : Packet) : List Live → List (Live × Emission)
  | [] => []
  | arg :: args => pull p arg :: pullAll p args
termination_by structural args => args
end

private theorem pullAll_eq_map (p : Packet) (args : List Live) : pullAll p args = args.map (pull p) := by
  induction args with
  | nil => rfl
  | cons arg args ih => rw [pullAll, ih, List.map_cons]

def next (p : Packet) (live : Live) : Live :=
  (pull p live).1

def emission (p : Packet) (live : Live) : Emission :=
  (pull p live).2

@[simp] theorem next_call (p : Packet) (s : Instance) (args : List Live) :
    next p (.call (some s) args) =
      .call (some (Instance.feed p 0 (args.map (emission p)) (s, .nothing)).1.finishEvent) (args.map (next p)) := by
  rw [next, pull, pullAll_eq_map, List.map_map, List.map_map]
  rfl

@[simp] theorem emission_call (p : Packet) (s : Instance) (args : List Live) :
    emission p (.call (some s) args) = (Instance.feed p 0 (args.map (emission p)) (s, .nothing)).2 := by
  rw [emission, pull, pullAll_eq_map, List.map_map]
  rfl

theorem next_constant (p : Packet) {live : Live} (constant : (constant? live).isSome) : next p live = live := by
  cases live with
  | constant value => rfl
  | raw mark | call head args => cases constant

theorem emission_constant (p : Packet) {live : Live} (constant : (constant? live).isSome) :
    emission p live = .nothing := by
  cases live with
  | constant value => rfl
  | raw mark | call head args => cases constant

theorem constant?_next (p : Packet) (live : Live) : constant? (next p live) = constant? live := by
  cases live with
  | raw mark => rfl
  | constant value => rfl
  | call head args => cases head <;> rfl

mutual
def close (reason : EndReason) : Live → Emission
  | .raw _ => .nothing
  | .constant _ => .nothing
  | .call none _ => .nothing
  | .call (some s) args => ((s.gather 0 (closeAll reason args)).stop reason).2.emission
termination_by structural live => live

def closeAll (reason : EndReason) : List Live → List Emission
  | [] => []
  | arg :: args => close reason arg :: closeAll reason args
termination_by structural args => args
end

def result (reason : EndReason) : Live → Option Value
  | .constant value => some value
  | live => (close reason live).value?

theorem result_call (reason : EndReason) (head : Option Instance) (args : List Live) :
    result reason (.call head args) = (close reason (.call head args)).value? := rfl

def emissions : Live → List Packet → List Emission
  | _, [] => []
  | live, p :: packets => emission p live :: emissions (next p live) packets

def stream (live : Live) (packets : List Packet) : Stream :=
  List.zipWith (fun p e => if e.isForward then some p else none) packets (emissions live packets)

private theorem closeAll_eq_map (reason : EndReason) (args : List Live) : closeAll reason args = args.map (close reason) := by
  induction args with
  | nil => rfl
  | cons arg args ih => rw [closeAll, ih, List.map_cons]

@[simp] theorem close_call (reason : EndReason) (s : Instance) (args : List Live) :
    close reason (.call (some s) args) = ((s.gather 0 (args.map (close reason))).stop reason).2.emission := by
  rw [close, closeAll_eq_map]

end Live

end Library

end FlowMetering
