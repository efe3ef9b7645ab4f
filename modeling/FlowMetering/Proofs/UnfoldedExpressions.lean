import FlowMetering.Proofs.Evaluation
import FlowMetering.Proofs.LoweredTrees

/-! Expressions as specifications write them. The raw input has no notation of its own: it stands behind a name and nowhere
else, in definitions of composites as well. -/

namespace FlowMetering

/-- The expressions that can be written. -/
inductive Expression.Written : Expression → Prop
  | constant {value : Value} (scalar : value.IsScalar) : Written (.constant value)
  | name (name : String) : Written (.call name [.raw ()])
  | call {name : String} {args : List Expression} (each : ∀ arg ∈ args, Written arg) : Written (.call name args)

namespace Expression

mutual
theorem written_ofJson (json : Json) (e : Expression) (read : ofJson json = .ok e) : e.Written := by
  cases json with
  | null => cases read
  | boolean b =>
    cases read
    exact .constant trivial
  | number n =>
    cases read
    exact .constant (Value.isScalar_ofNumber n)
  | string name =>
    rw [ofJson] at read
    split at read
    · cases read
    · cases read
      exact .name name
  | array items =>
    cases items with
    | nil => cases read
    | cons head args =>
      cases head with
      | string name =>
        obtain ⟨args', inner, rfl⟩ := map_eq_ok.mp read
        exact .call (written_ofJsons args args' inner)
      | null | boolean _ | number _ | array _ | object _ => cases read
  | object members => cases read
termination_by structural json

private theorem written_ofJsons (jsons : List Json) (es : List Expression) (read : ofJsons jsons = .ok es) :
    ∀ e ∈ es, e.Written := by
  cases jsons with
  | nil =>
    cases read
    exact fun _ member => absurd member List.not_mem_nil
  | cons json jsons =>
    obtain ⟨e, first, read⟩ := bind_eq_ok.mp read
    obtain ⟨es, rest, read⟩ := bind_eq_ok.mp read
    cases read
    exact List.forall_mem_cons.mpr ⟨written_ofJson json e first, written_ofJsons jsons es rest⟩
termination_by structural jsons
end

theorem Written.scalar {e : Expression} (written : e.Written) : e.Scalar := by
  induction written with
  | constant scalar => exact .constant scalar
  | name name => exact .call trivial (List.forall_mem_singleton.mpr (.raw ()))
  | call each ih => exact .call trivial ih

/-- A call has the raw input for its only argument, or written expressions. -/
theorem Written.args {name : String} {args : List Expression} (written : Written (.call name args)) :
    args = [.raw ()] ∨ ∀ arg ∈ args, Written arg := by
  cases written with
  | name => exact .inl rfl
  | call each => exact .inr each

end Expression

namespace Library

private theorem unfoldedAll_eq_map (args : List Expression) : unfoldedAll args = args.map unfolded := by
  induction args with
  | nil => rfl
  | cons arg args ih => rw [unfoldedAll, ih, List.map_cons]

/-- Definitions of composites are expressions without composites. -/
theorem expand_definition : ∀ composite ∈ composites,
    (do let definition ← Expression.ofJson composite.definition
        definition.expand catalog.composite? (Expression.maxExpansion - 1)) =
      Expression.ofJson composite.definition := by
  simp only [composites, List.forall_mem_cons]
  exact ⟨rfl, rfl, rfl, rfl, rfl, List.forall_mem_nil _⟩

private theorem written_definition {name : String} {e : Expression} (found : definition? name = some e) : e.Written := by
  obtain ⟨composite, _, read⟩ := Option.bind_eq_some_iff.mp found
  cases outcome : Expression.ofJson composite.definition with
  | error problem =>
    rw [outcome] at read
    cases read
  | ok e' =>
    rw [outcome] at read
    cases read
    exact Expression.written_ofJson _ _ outcome

theorem written_unfolded {e : Expression} (written : e.Written) : (unfolded e).Written := by
  induction written with
  | constant scalar => exact .constant scalar
  | name name =>
    rw [unfolded]
    cases found : definition? name with
    | none => exact .name name
    | some e => exact written_definition found
  | call each ih =>
    rename_i name args
    rw [unfolded]
    cases found : definition? name with
    | none =>
      refine .call ?_
      rw [unfoldedAll_eq_map]
      exact List.forall_mem_map.mpr ih
    | some e => exact written_definition found

private theorem expand_eq_unfolded {e result : Expression}
    (expanded : e.expand catalog.composite? Expression.maxExpansion = .ok result) : result = unfolded e := by
  change e.expandWith catalog.composite? (fun composite => do
    let definition ← Expression.ofJson composite.definition
    definition.expand catalog.composite? (Expression.maxExpansion - 1)) = .ok result at expanded
  induction e using Tree.induct generalizing result with
  | raw mark =>
    cases expanded
    rfl
  | constant value =>
    cases expanded
    rfl
  | call name args ih =>
    rw [unfolded, definition?]
    rcases Expression.expandWith_call_cases expanded with ⟨composite, found, whole⟩ | ⟨missing, results, rfl, each⟩
    · rw [expand_definition composite (List.mem_of_find?_eq_some found)] at whole
      rw [found, Option.bind_some, whole]
      rfl
    · rw [missing, Option.bind_none, Option.getD_none, unfoldedAll_eq_map]
      refine congrArg (Tree.call name) ?_
      clear expanded
      induction each with
      | nil => rfl
      | cons first rest ih' =>
        rw [List.map_cons, ih _ List.mem_cons_self first,
          ih' fun arg member => ih arg (List.mem_cons_of_mem _ member)]

/-- The feature of a specification is the unfolded expression. -/
theorem field_unfolded {e : Expression} {field : Field Expression}
    (unfolds : Field.ofExpression catalog.composite? e = .ok field) : field.tree = unfolded e := by
  obtain ⟨result, expanded, rest⟩ := bind_eq_ok.mp unfolds
  rw [← expand_eq_unfolded expanded]
  dsimp only at rest
  split at rest <;> cases rest <;> rfl

end Library

end FlowMetering
