import FlowMetering.Proofs.SingleEmissions

/-! Registers that nobody speaks to at the end of a segment. Selections and what is read from packets have nothing to say when
they are stopped, so what reads nothing else is stopped with the instance that the packets have left, and what this instance
gives then stays the value of its register. -/

namespace FlowMetering.Library

variable {φ : Type} {p : Program Instance φ} {m : Meter Instance φ}

def Mute (p : Program Instance φ) (q : Nat) : Prop :=
  ∀ s, Sorted p q s → s.role? ≠ some .flow ∧ s.operation? = none

def Unheard (p : Program Instance φ) (r : Nat) : Prop :=
  ∀ q, r ∈ p.dependents q → Mute p q

structure Leaves (m : Meter Instance φ) (r : Nat) (before after : Turn Instance φ) : Prop where
  sorted : after.Shows (Idle m.program)
  kept : after.record.instances[r]? = before.record.instances[r]?
  value : after.record.values[r]? = before.record.values[r]?

namespace Leaves

variable {r : Nat} {t first middle last : Turn Instance φ}

private theorem refl (sorted : t.Shows (Idle m.program)) : Leaves m r t t :=
  ⟨sorted, rfl, rfl⟩

private theorem trans (a : Leaves m r first middle) (b : Leaves m r middle last) : Leaves m r first last :=
  ⟨b.sorted, b.kept.trans a.kept, b.value.trans a.value⟩

private theorem foldl {ι : Type} {step : Turn Instance φ → ι → Turn Instance φ} (is : List ι)
    (each : ∀ i ∈ is, ∀ t, t.Shows (Idle m.program) → Leaves m r t (step t i)) (sorted : t.Shows (Idle m.program)) :
    Leaves m r t (is.foldl step t) :=
  List.foldlRecOn is step (motive := fun t' => Leaves m r t t') (.refl sorted) fun _ leaves i member =>
    leaves.trans (each i member _ leaves.sorted)

private theorem setValue (sorted : t.Shows (Idle m.program)) {q : Nat} (other : q ≠ r) (v : Option Value) :
    Leaves m r t (t.setValue q v) :=
  ⟨Meter.Sound.setValue sorted q fun _ _ => trivial, rfl, List.getElem?_set_ne other⟩

private theorem call (sorted : t.Shows (Idle m.program)) {q : Nat} (other : q ≠ r) (now : Int64) (phase : Phase)
    {answer : Context → Instance → Instance × Reaction} (follows : ∀ c s, (answer c s).1 = s.called c phase) :
    Leaves m r t (m.call now q phase answer t).1 := by
  rcases t.idle_or_held q with idle | ⟨s, held⟩
  · rw [Meter.call_idle idle]
    exact .refl sorted
  · rw [Meter.call_eq held, follows]
    exact ⟨Meter.Sound.setInstance sorted ((sorted.1 q s held).called _ phase), List.getElem?_set_ne other, rfl⟩

private theorem propagate {next : Nat → Input → Turn Instance φ → Turn Instance φ}
    (each : ∀ d v q t, d ≠ r → t.Shows (Idle m.program) → Leaves m r t (next d (.value v q) t))
    (sorted : t.Shows (Idle m.program)) {q : Nat} (other : q ≠ r) {e : Emission}
    (silent : r ∈ m.program.dependents q → e = .nothing) : Leaves m r t (m.propagate next none q t e) := by
  cases e with
  | nothing | forward => exact .refl sorted
  | value v =>
    have placed := setValue sorted other v
    cases v with
    | none => exact placed
    | some v =>
      refine placed.trans (.foldl _ (fun d reads t sorted => each d v q t ?_ sorted) placed.sorted)
      rintro rfl
      cases silent reads

private theorem silent_call (sorted : t.Shows (Idle m.program)) {q : Nat} (now : Int64) (phase : Phase)
    {answer : Context → Instance → Instance × Reaction}
    (quiet : ∀ c s, Sorted m.program q s → (answer c s).2.emission = .nothing) :
    (m.call now q phase answer t).2 = .nothing := by
  rcases t.idle_or_held q with idle | ⟨s, held⟩
  · rw [Meter.call_idle idle]
  · rw [Meter.call_eq held]
    exact quiet _ s (sorted.1 q s held)

variable (unheard : Unheard m.program r)
include unheard

private theorem deliver (now : Int64) (fuel : Nat) {d : Nat} (other : d ≠ r) (v : Value) (q : Nat) (sorted : t.Shows (Idle m.program)) :
    Leaves m r t (m.deliver now none fuel d (.value v q) t) := by
  induction fuel generalizing d v q t with
  | zero => exact .refl sorted
  | succ fuel ih =>
    have called : Leaves m r t (m.call now d (.event (.value v q)) (Feature.event (.value v q)) t).1 :=
      .call sorted other now _ fun _ _ => rfl
    refine called.trans (.propagate (fun d v q t other sorted => ih other v q sorted) called.sorted other fun reads => ?_)
    exact silent_call sorted now _ fun c s sort => s.value_silent (unheard d reads s sort).2 v _

private theorem stopOne (reason : EndReason) (time : Int64) {q : Nat} (other : q ≠ r) (sorted : t.Shows (Idle m.program)) :
    Leaves m r t (m.stopOne reason time t q) := by
  have called : Leaves m r t (m.call time q (.stop reason) (Feature.stop reason) t).1 :=
    .call sorted other time _ fun _ _ => rfl
  refine called.trans (.propagate (fun d v q t other sorted => ?_) called.sorted other fun reads => ?_)
  · exact .deliver unheard time _ other v q sorted
  · exact silent_call sorted time _ fun c s sort => Instance.stop_silent reason (unheard q reads s sort).1

end Leaves

private theorem stopOne_value {r : Nat} (unheard : Unheard m.program r) (reason : EndReason) (time : Int64) {t : Turn Instance φ}
    (sorted : t.Shows (Idle m.program)) {s : Instance} (held : t.record.instances[r]? = some (some s))
    (slot : r < t.record.values.length) {v : Option Value} (gives : (s.stop reason).2.emission = .value v) :
    (m.stopOne reason time t r).Shows (Idle m.program) ∧ (m.stopOne reason time t r).record.values[r]? = some v := by
  have own : r ∉ m.program.dependents r := by
    intro reads
    have silent := Instance.stop_silent reason (unheard r reads s (sorted.1 r s held)).1
    cases gives.symm.trans silent
  rw [Meter.stopOne, Meter.call_eq held]
  change (m.propagate _ none r _ (s.stop reason).2.emission).Shows (Idle m.program) ∧
    (m.propagate _ none r _ (s.stop reason).2.emission).record.values[r]? = some v
  rw [gives]
  generalize stopped : ((t.setInstance r (Feature.stop reason (m.context t time r) s).1).raise _).log _ = t'
  have sorted' : t'.Shows (Idle m.program) := by
    rw [← stopped]
    exact Meter.Sound.setInstance sorted ((sorted.1 r s held).called (m.context t time r) (.stop reason))
  have slot' : r < t'.record.values.length := by
    rw [← stopped]
    exact slot
  have placed : (t'.setValue r v).Shows (Idle m.program) := Meter.Sound.setValue sorted' r fun _ _ => trivial
  have stored : (t'.setValue r v).record.values[r]? = some v := List.getElem?_set_self slot'
  cases v with
  | none => exact ⟨placed, stored⟩
  | some v =>
    have told : Leaves m r (t'.setValue r (some v))
        ((m.program.dependents r).foldl (fun t d => m.dispatch time none d (.value v r) t) (t'.setValue r (some v))) := by
      refine .foldl _ (fun d reads t sorted => .deliver unheard time _ ?_ v r sorted) placed
      rintro rfl
      exact own reads
    exact ⟨told.sorted, told.value.trans stored⟩

/-- The end of a segment makes what the packets have left the value of a register that nobody speaks to then. -/
theorem stopSweep_value {r : Nat} (unheard : Unheard m.program r) (reason : EndReason) (time : Int64) {t : Turn Instance φ}
    (sorted : t.Shows (Idle m.program)) {s : Instance} (held : t.record.instances[r]? = some (some s))
    (slot : r < t.record.values.length) {v : Option Value} (gives : (s.stop reason).2.emission = .value v) :
    ((List.range m.program.size).foldl (m.stopOne reason time) t).record.values[r]? = some v := by
  obtain ⟨node, -, found, -⟩ := sorted.1 r s held
  have inside : r < m.program.size := (List.getElem?_eq_some_iff.mp found).1
  refine (foldl_range_reaches (Leaves m r t) (fun t => t.Shows (Idle m.program) ∧ t.record.values[r]? = some v) inside
    (.refl sorted) ?_ ?_ ?_).2
  · exact fun q ahead t leaves => leaves.trans (.stopOne unheard reason time (Nat.ne_of_lt ahead) leaves.sorted)
  · intro t leaves
    have stored := leaves.value.trans (List.getElem?_eq_getElem slot)
    exact stopOne_value unheard reason time leaves.sorted (leaves.kept.trans held) (List.getElem?_eq_some_iff.mp stored).1
      gives
  · intro q behind t done
    have leaves := Leaves.stopOne unheard reason time (Nat.ne_of_gt behind) done.1
    exact ⟨leaves.sorted, leaves.value.trans done.2⟩

end FlowMetering.Library
