import FlowMetering.Proofs.DeliveryCalls
import FlowMetering.Proofs.RecordedInstances

/-! Instances in a delivery. Each of them goes by the inputs that its own register is given, and by nothing else. -/

namespace FlowMetering.Library

namespace Instance

def after (c : Context) (s : Instance) (inputs : List Input) : Instance :=
  inputs.foldl (fun s input => (s.event input c).1) s

def answers (c : Context) : Instance → List Input → List Emission
  | _, [] => []
  | s, input :: inputs => (s.event input c).2.emission :: answers c (s.event input c).1 inputs

theorem after_append (c : Context) (s : Instance) (one other : List Input) :
    s.after c (one ++ other) = (s.after c one).after c other :=
  List.foldl_append

theorem answers_append (c : Context) (s : Instance) (one other : List Input) :
    s.answers c (one ++ other) = s.answers c one ++ (s.after c one).answers c other := by
  induction one generalizing s with
  | nil => rfl
  | cons input one ih => exact congrArg (_ :: ·) (ih _)

end Instance

variable {φ : Type} {m : Meter Instance φ}

/-- Instances have come by some calls to where the inputs of these calls take them. -/
structure Follows (p : Program Instance φ) (calls : List Call) (before after : Turn Instance φ) : Prop where
  idle : ∀ r, (∀ s, before.record.instances[r]? ≠ some (some s)) →
    after.record.instances[r]? = before.record.instances[r]? ∧ ∀ e ∈ Call.emissions calls r, e = .nothing
  held : ∀ r s, before.record.instances[r]? = some (some s) →
    after.record.instances[r]? = some (some (s.after (footing p r) (Call.inputs calls r))) ∧
      Call.emissions calls r = s.answers (footing p r) (Call.inputs calls r)

namespace Follows

variable {p : Program Instance φ} {first middle last : Turn Instance φ} {one other : List Call}

theorem of_instances (same : last.record.instances = first.record.instances) : Follows p [] first last where
  idle r _ := ⟨by rw [same], nofun⟩
  held r s held := ⟨by rw [same]; exact held, rfl⟩

theorem trans (a : Follows p one first middle) (b : Follows p other middle last) : Follows p (one ++ other) first last where
  idle r idle := by
    obtain ⟨kept, silent⟩ := a.idle r idle
    obtain ⟨kept', silent'⟩ := b.idle r fun s => kept ▸ idle s
    rw [Call.emissions_append]
    exact ⟨kept'.trans kept, List.forall_mem_append.mpr ⟨silent, silent'⟩⟩
  held r s held := by
    obtain ⟨gone, said⟩ := a.held r s held
    obtain ⟨gone', said'⟩ := b.held r _ gone
    rw [Call.inputs_append, Call.emissions_append, Instance.after_append, Instance.answers_append]
    exact ⟨gone', congr (congrArg _ said) said'⟩

private theorem along {ι : Type} {step : Turn Instance φ → ι → Turn Instance φ} {tell : Turn Instance φ → ι → List Call}
    (each : ∀ t i, Follows p (tell t i) t (step t i)) (is : List ι) (t : Turn Instance φ) :
    Follows p (FlowMetering.along step tell t is) t (is.foldl step t) := by
  induction is generalizing t with
  | nil => exact .of_instances rfl
  | cons i is ih => exact (each t i).trans (ih (step t i))

/-- An instance that is called takes one step, and all others stay as they are. -/
theorem call (now : Int64) (r : Nat) (input : Input) (t : Turn Instance φ) :
    Follows m.program [⟨r, input, (m.call now r (.event input) (Feature.event input) t).2⟩] t
      (m.call now r (.event input) (Feature.event input) t).1 := by
  have single (q : Nat) (e : Emission) : Call.inputs [⟨r, input, e⟩] q = (if r = q then [input] else []) ∧
      Call.emissions [⟨r, input, e⟩] q = if r = q then [e] else [] := by
    by_cases here : r = q <;> simp [Call.inputs, Call.emissions, here]
  rcases t.idle_or_held r with idle | ⟨s, held⟩
  · rw [Meter.call_idle idle]
    refine ⟨fun q _ => ⟨rfl, fun e member => ?_⟩, fun q s held => ?_⟩
    · rw [(single q _).2] at member
      split at member
      · exact List.mem_singleton.mp member
      · cases member
    · have other : r ≠ q := by
        rintro rfl
        exact idle s held
      rw [(single q _).1, (single q _).2, if_neg other, if_neg other]
      exact ⟨held, rfl⟩
  · have answer : s.event input (m.context t now r) = s.event input (footing m.program r) := Instance.event_congr rfl input s
    rw [Meter.call_eq held]
    change Follows m.program [⟨r, input, (s.event input (m.context t now r)).2.emission⟩] t _
    refine ⟨fun q idle => ?_, fun q s' held' => ?_⟩
    · have other : r ≠ q := by
        rintro rfl
        exact idle s held
      rw [(single q _).2, if_neg other]
      exact ⟨List.getElem?_set_ne other, List.forall_mem_nil _⟩
    · rw [(single q _).1, (single q _).2]
      by_cases here : r = q
      · subst here
        obtain rfl : s = s' := Option.some.inj (Option.some.inj (held.symm.trans held'))
        rw [if_pos rfl, if_pos rfl, answer]
        refine ⟨?_, rfl⟩
        exact (getElem?_setInstance held _).trans (congrArg (some ∘ some) (congrArg Prod.fst answer))
      · rw [if_neg here, if_neg here]
        exact ⟨(List.getElem?_set_ne here).trans held', rfl⟩

private theorem calls (packet : Packet) (fuel r : Nat) (input : Input) (t : Turn Instance φ) :
    Follows m.program (m.calls packet fuel r input t) t (m.deliver packet.time (some packet) fuel r input t) := by
  induction fuel generalizing r input t with
  | zero => exact .of_instances rfl
  | succ fuel ih =>
    have called := Follows.call (m := m) packet.time r input t
    rw [Meter.calls, Meter.deliver]
    generalize m.call packet.time r (.event input) (Feature.event input) t = answer at called
    obtain ⟨t', e⟩ := answer
    have stored : Follows m.program [] t' (t'.store r e) := .of_instances (by cases e <;> rfl)
    dsimp only
    rw [Meter.propagate_eq]
    exact called.trans (stored.trans (.along (fun t (w : Nat × Input) => ih w.1 w.2 t) _ _))

end Follows

/-- The instances after a delivery, before the packet is closed. -/
theorem deliveryCalls_follows (m : Meter Instance φ) (packet : Packet) (t : Turn Instance φ) :
    Follows m.program (m.deliveryCalls packet t) t
      (m.program.events.foldl (fun t r => m.dispatch packet.time (some packet) r (.packet packet .flow) t) t) :=
  .along (fun t r => .calls packet _ r _ t) _ _

end FlowMetering.Library
