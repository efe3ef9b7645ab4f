import FlowMetering.Proofs.AddressFamilies
import FlowMetering.Proofs.CalledInstances
import Mathlib.Logic.Function.Basic

/-! The slots of operators on packets. When a packet comes the slots hold constants and nothing else, each value goes to
the slots of its own register, and once the packet is closed the slots are as they have been. -/

namespace FlowMetering

open Library

variable {φ : Type}

def Program.known {σ : Type} (p : Program σ φ) : Argument → Option Value
  | .raw => none
  | .register q => ((p.nodes.map (·.constant))[q]?).join

theorem Program.known_of_found {σ : Type} {p : Program σ φ} {q : Nat} {node : Node σ} (found : p.nodes[q]? = some node) :
    p.known (.register q) = node.constant := by
  rw [known, List.getElem?_map, found]
  rfl

def Input.note (known : Argument → Option Value) : Input → Argument → Option Value
  | .packet _ _ => known
  | .value v q => Function.update known (.register q) (some v)

/-- What is known of arguments after some inputs. -/
def Input.noted (known : Argument → Option Value) (inputs : List Input) : Argument → Option Value :=
  inputs.foldl note known

namespace Input

variable {known : Argument → Option Value} {inputs : List Input} {q : Nat} {v : Value}

theorem note_other {input : Input} {arg : Argument} (other : ∀ v q, input = .value v q → arg ≠ .register q) :
    note known input arg = known arg := by
  cases input with
  | packet p source => rfl
  | value v q => exact Function.update_of_ne (other v q rfl) _ _

theorem noted_other {arg : Argument} (other : ∀ v q, .value v q ∈ inputs → arg ≠ .register q) :
    noted known inputs arg = known arg := by
  induction inputs generalizing known with
  | nil => rfl
  | cons input inputs ih =>
    refine (ih fun v q member => other v q (List.mem_cons_of_mem _ member)).trans (note_other fun v q same => ?_)
    exact other v q (same ▸ List.mem_cons_self)

/-- A register that is heard of once is known by what is heard of it. -/
theorem noted_of_mem (distinct : (inputs.map source).Nodup) (member : .value v q ∈ inputs) :
    noted known inputs (.register q) = some v := by
  induction inputs generalizing known with
  | nil => cases member
  | cons input inputs ih =>
    obtain ⟨absent, distinct⟩ := List.nodup_cons.mp distinct
    rcases List.mem_cons.mp member with rfl | member
    · change noted (note known (.value v q)) inputs (.register q) = some v
      refine (noted_other fun v' q' later same => absent ?_).trans (Function.update_self _ _ _)
      obtain rfl := Argument.register.inj same
      exact List.mem_map.mpr ⟨_, later, rfl⟩
    · exact ih distinct member

end Input

namespace Library

private theorem fill_positions {c : Context} (known : Argument → Option Value) (q : Nat) (v : Value) :
    fill (c.args.map known) (c.positions (.register q)) v = c.args.map (Input.note known (.value v q)) := by
  apply List.ext_getElem?
  intro i
  rw [fill_getElem?, List.getElem?_map, List.getElem?_map]
  cases found : c.args[i]? with
  | none => simp
  | some arg =>
    by_cases here : arg = .register q
    · subst here
      simp [mem_positions, found, Input.note]
    · simp [mem_positions, found, Input.note, here]

theorem clear_noted {args : List Argument} {known known' : Argument → Option Value}
    (kept : ∀ arg ∈ args, known arg ≠ none → known' arg = known arg) :
    clear (args.map known') ((args.map known).map Option.isSome) = args.map known := by
  rw [clear, List.map_map, List.zipWith_map]
  induction args with
  | nil => rfl
  | cons arg args ih =>
    rw [List.forall_mem_cons] at kept
    rw [List.zipWith_cons_cons, ih kept.2, List.map_cons]
    cases same : known arg with
    | none => simp [same]
    | some v => simp [same, kept.1 (by simp [same])]

theorem Operator.reaction_eq_value (op : Operator) (slots : List (Option Value)) (w : Value) :
    .value (some w) = (op.reaction slots).emission ↔ op.evaluate slots = some w := by
  rw [← op.reaction_value? slots]
  cases (op.reaction slots).emission with
  | nothing | forward => simp [Emission.value?]
  | value v => simp [Emission.value?, eq_comm]

namespace Instance

/-- Inputs fill the slots of an operator with what is known of its arguments. -/
theorem after_operator (c : Context) (op : Operator) (kind : Kind) (known : Argument → Option Value) (constant : List Bool)
    (inputs : List Input) : (operator op kind (c.args.map known) constant).after c inputs =
      .operator op kind (c.args.map (Input.noted known inputs)) constant := by
  induction inputs generalizing known with
  | nil => rfl
  | cons input inputs ih =>
    have step : ((operator op kind (c.args.map known) constant).event input c).1 =
        .operator op kind (c.args.map (input.note known)) constant := by
      cases input with
      | packet p source => rfl
      | value v q => exact congrArg (operator op kind · constant) (fill_positions known q v)
    rw [after, List.foldl_cons, ← after, step, ih]
    rfl

/-- An operator that is given one value after the other speaks when it has got the last one, if it speaks at all. -/
theorem answers_operator (c : Context) (op : Operator) (known : Argument → Option Value) (constant : List Bool)
    {inputs : List Input} (values : ∀ input ∈ inputs, ∃ v q, input = .value v q ∧ .register q ∈ c.args ∧
      known (.register q) = none) (distinct : (inputs.map Input.source).Nodup) :
    ((operator op .packetFeature (c.args.map known) constant).answers c inputs).countP Emission.speaks ≤ 1 ∧
      ∀ w, .value (some w) ∈ (operator op .packetFeature (c.args.map known) constant).answers c inputs ↔
        inputs ≠ [] ∧ op.evaluate (c.args.map (Input.noted known inputs)) = some w := by
  induction inputs generalizing known with
  | nil => exact ⟨Nat.zero_le 1, fun w => by simp [answers]⟩
  | cons input inputs ih =>
    obtain ⟨absent, rest⟩ := List.nodup_cons.mp distinct
    rw [List.forall_mem_cons] at values
    obtain ⟨⟨v, q, rfl, -, -⟩, values⟩ := values
    have step : (operator op .packetFeature (c.args.map known) constant).event (.value v q) c =
        (.operator op .packetFeature (c.args.map (Input.note known (.value v q))) constant,
          op.reaction (c.args.map (Input.note known (.value v q)))) := by
      rw [event, value, fill_positions, if_pos rfl]
    have later : ∀ input ∈ inputs, ∃ v' q', input = .value v' q' ∧ .register q' ∈ c.args ∧
        Input.note known (.value v q) (.register q') = none := by
      intro input member
      obtain ⟨v', q', rfl, reads, unknown⟩ := values input member
      refine ⟨v', q', rfl, reads, (Input.note_other ?_).trans unknown⟩
      rintro _ _ ⟨⟩ same
      rw [Argument.register.inj same] at member
      exact absent (List.mem_map.mpr ⟨_, member, rfl⟩)
    obtain ⟨once, results⟩ := ih (Input.note known (.value v q)) later rest
    rw [answers, step]
    dsimp only
    cases inputs with
    | nil =>
      refine ⟨List.countP_le_length, fun w => ?_⟩
      rw [answers, List.mem_singleton, op.reaction_eq_value]
      exact (and_iff_right (List.cons_ne_nil _ _)).symm
    | cons next inputs =>
      -- the slots of the next register are still empty
      obtain ⟨v', q', rfl, reads, unknown⟩ := later _ List.mem_cons_self
      have missing : none ∈ c.args.map (Input.note known (.value v q)) := List.mem_map.mpr ⟨_, reads, unknown⟩
      have silent : (op.reaction (c.args.map (Input.note known (.value v q)))).emission = .nothing := by
        rw [Operator.reaction, if_neg]
        · rfl
        · intro full
          cases List.all_eq_true.mp full none missing
      rw [silent]
      refine ⟨by simpa [Emission.speaks] using once, fun w => ?_⟩
      rw [List.mem_cons, results w]
      simp [Input.noted]

end Instance

end Library

end FlowMetering
