import FlowMetering.Proofs.Signatures
import FlowMetering.Proofs.Stages

/-! The expressions of a specification on their way to the typing stage. Constants are scalars from the reading on,
and binding takes every call from the catalog. -/

namespace FlowMetering

theorem Tree.All.withInput {ρ ι : Type} {onValue : Value → Prop} {onHead : ι → Prop} {tree input : Tree ρ ι}
    (all : All onValue onHead tree) (replaced : All onValue onHead input) :
    All onValue onHead (tree.withInput input) := by
  induction tree using Tree.induct with
  | raw mark => exact .raw mark
  | constant value => exact .constant all.value
  | call head args ih =>
    have each : ∀ (args : List (Tree ρ ι)), (∀ arg ∈ args, All onValue onHead (Tree.withInput arg input)) →
        ∀ arg ∈ Tree.withInputs args input, All onValue onHead arg := by
      intro args held
      induction args with
      | nil => exact fun _ member => absurd member List.not_mem_nil
      | cons first rest ih =>
        have others := ih fun arg member => held arg (List.mem_cons_of_mem _ member)
        intro arg member
        cases first with
        | raw mark =>
          rcases List.mem_cons.mp member with rfl | member
          · exact replaced
          · exact others arg member
        | constant value | call head args =>
          rcases List.mem_cons.mp member with rfl | member
          · exact held _ List.mem_cons_self
          · exact others arg member
    exact .call all.head (each args fun arg member => ih arg member (all.arg member))

theorem Value.isScalar_ofNumber (n : Json.Number) : (Value.ofNumber n).IsScalar := by
  cases n with
  | natural n =>
    rw [ofNumber]
    cases Word.signed? n.toNat with
    | none => trivial
    | some m => trivial
  | negative n => trivial
  | double x => trivial

namespace Expression

abbrev Scalar : Expression → Prop :=
  Tree.All Value.IsScalar fun _ => True

mutual
private theorem scalar_ofJson (json : Json) (e : Expression) (read : ofJson json = .ok e) : e.Scalar := by
  cases json with
  | null => cases read
  | boolean b =>
    cases read
    exact .constant trivial
  | number n =>
    cases read
    exact .constant (Value.isScalar_ofNumber n)
  | string name =>
    rw [ofJson] at read
    split at read
    · cases read
    · cases read
      exact .call trivial fun arg member => List.mem_singleton.mp member ▸ .raw ()
  | array items =>
    cases items with
    | nil => cases read
    | cons head args =>
      cases head with
      | string name =>
        obtain ⟨args', inner, rfl⟩ := map_eq_ok.mp read
        exact .call trivial (scalar_ofJsons args args' inner)
      | null | boolean _ | number _ | array _ | object _ => cases read
  | object members => cases read
termination_by structural json

private theorem scalar_ofJsons (jsons : List Json) (es : List Expression) (read : ofJsons jsons = .ok es) :
    ∀ e ∈ es, e.Scalar := by
  cases jsons with
  | nil =>
    cases read
    exact fun _ member => absurd member List.not_mem_nil
  | cons json jsons =>
    obtain ⟨e, first, read⟩ := bind_eq_ok.mp read
    obtain ⟨es, rest, read⟩ := bind_eq_ok.mp read
    cases read
    exact List.forall_mem_cons.mpr ⟨scalar_ofJson json e first, scalar_ofJsons jsons es rest⟩
termination_by structural jsons
end

theorem expandAllWith_eq_mapM {composite? : String → Option Composite} {unfold : Composite → Except Problem Expression}
    (args : List Expression) : expandAllWith composite? unfold args = args.mapM (expandWith composite? unfold) := by
  induction args with
  | nil => rfl
  | cons arg args ih => rw [expandAllWith, List.mapM_cons, ih]

theorem expandAllWith_eq_ok {composite? : String → Option Composite} {unfold : Composite → Except Problem Expression}
    {args results : List Expression} :
    expandAllWith composite? unfold args = .ok results ↔
      List.Forall₂ (fun arg result => expandWith composite? unfold arg = .ok result) args results := by
  rw [expandAllWith_eq_mapM]
  exact mapM_eq_ok

/-- A call is expanded to what the composite of its name unfolds to or, where there is none, argument by argument. -/
theorem expandWith_call_cases {composite? : String → Option Composite} {unfold : Composite → Except Problem Expression}
    {name : String} {args : List Expression} {result : Expression}
    (expanded : expandWith composite? unfold (.call name args) = .ok result) :
    (∃ composite, composite? name = some composite ∧ unfold composite = .ok result) ∨
      composite? name = none ∧ ∃ results, result = .call name results ∧
        List.Forall₂ (fun arg result => expandWith composite? unfold arg = .ok result) args results := by
  rw [expandWith] at expanded
  split at expanded
  next composite found =>
    split at expanded
    · exact .inl ⟨composite, found, expanded⟩
    · cases expanded
  next missing =>
    obtain ⟨results, each, rfl⟩ := map_eq_ok.mp expanded
    exact .inr ⟨missing, results, rfl, expandAllWith_eq_ok.mp each⟩

private theorem Scalar.expandWith {composite? : String → Option Composite} {unfold : Composite → Except Problem Expression}
    (unfolded : ∀ composite e, unfold composite = .ok e → e.Scalar) {e result : Expression} (scalar : e.Scalar)
    (expanded : expandWith composite? unfold e = .ok result) : result.Scalar := by
  induction e using Tree.induct generalizing result with
  | raw mark =>
    cases expanded
    exact scalar
  | constant value =>
    cases expanded
    exact scalar
  | call name args ih =>
    rcases expandWith_call_cases expanded with ⟨composite, -, whole⟩ | ⟨-, results, rfl, each⟩
    · exact unfolded composite result whole
    · refine .call trivial fun result member => ?_
      obtain ⟨arg, inside, done⟩ := forall₂_mem_right each member
      exact ih arg inside (scalar.arg inside) done

private theorem Scalar.expand {composite? : String → Option Composite} {depth : Nat} {e result : Expression} (scalar : e.Scalar)
    (expanded : e.expand composite? depth = .ok result) : result.Scalar := by
  induction depth generalizing e result with
  | zero => exact scalar.expandWith (fun _ _ unfolded => by cases unfolded) expanded
  | succ depth ih =>
    refine scalar.expandWith (fun composite e unfolded => ?_) expanded
    obtain ⟨definition, read, unfolded⟩ := bind_eq_ok.mp unfolded
    exact ih (scalar_ofJson _ _ read) unfolded

end Expression

namespace Bound

variable {σ φ : Type} {catalog : Catalog σ φ}

theorem lowerAll_eq_map (args : List (Bound σ)) : lowerAll args = args.map lower := by
  induction args with
  | nil => rfl
  | cons arg args ih => rw [lowerAll, ih, List.map_cons]

theorem allWithImplicitInputs_eq_map (args : List (Bound σ)) :
    allWithImplicitInputs args = args.map withImplicitInputs := by
  induction args with
  | nil => rfl
  | cons arg args ih => rw [allWithImplicitInputs, ih, List.map_cons]

theorem Over.withImplicitInputs {tree : Bound σ} (drawn : Over catalog tree) : Over catalog tree.withImplicitInputs := by
  induction tree using Tree.induct with
  | raw mark => exact drawn
  | constant value => exact drawn
  | call binding args ih =>
    rw [Bound.withImplicitInputs, allWithImplicitInputs_eq_map]
    have each : ∀ arg ∈ args.map Bound.withImplicitInputs, Over catalog arg :=
      List.forall_mem_map.mpr fun arg member => ih arg member (drawn.arg member)
    split
    · exact .call drawn.head (List.forall_mem_append.mpr ⟨each, fun arg member => List.mem_singleton.mp member ▸ .raw _⟩)
    · exact .call drawn.head each

theorem Over.lower {tree : Bound σ} (drawn : Over catalog tree) : Over catalog tree.lower := by
  induction tree using Tree.induct with
  | raw mark => exact drawn
  | constant value => exact drawn
  | call binding args ih =>
    have each : ∀ arg ∈ lowerAll args, Over catalog arg := by
      rw [lowerAll_eq_map]
      exact List.forall_mem_map.mpr fun arg member => ih arg member (drawn.arg member)
    rw [Bound.lower]
    split
    next feature selection _ pair =>
      rw [pair] at each
      exact (each feature (by simp)).withInput (each selection (by simp))
    next => exact .call drawn.head each

theorem firstOk_eq_ok {α β ε : Type} {attempt : α → Except ε β} {candidates : List α} {result : β}
    (succeeded : firstOk attempt candidates = .ok result) : ∃ candidate ∈ candidates, attempt candidate = .ok result := by
  induction candidates with
  | nil => cases succeeded
  | cons candidate candidates ih =>
    rw [firstOk] at succeeded
    split at succeeded
    next done =>
      cases succeeded
      exact ⟨candidate, List.mem_cons_self, done⟩
    next =>
      split at succeeded
      next rest =>
        cases succeeded
        obtain ⟨other, member, done⟩ := ih rest
        exact ⟨other, List.mem_cons_of_mem _ member, done⟩
      next => cases succeeded

theorem find_subset (catalog : Catalog σ φ) (name : String) (kind : Kind) (count : Nat) :
    catalog.find name kind count ⊆ catalog.registered := by
  intro candidate member
  simp only [Catalog.find, List.mem_append, List.mem_filter] at member
  rcases member with ((⟨⟨⟨member, _⟩, _⟩, _⟩ | ⟨⟨⟨member, _⟩, _⟩, _⟩) | (⟨⟨⟨member, _⟩, _⟩, _⟩ | ⟨⟨⟨member, _⟩, _⟩, _⟩))
  all_goals exact member

/-- Binding succeeds on a call where an entry is found all of whose arguments can be bound. -/
theorem ofExpression_call {required : Kind} {name : String} {args : List Expression} {result : Bound σ}
    (bound : ofExpression catalog required (.call name args) = .ok result) :
    ∃ candidate ∈ catalog.find name required args.length, ∃ bounds,
      ofExpressions catalog (((candidate.entry.argumentKinds args.length).getD []).map (argumentKind required)) args =
        .ok bounds ∧ result = .call ⟨candidate, required⟩ bounds := by
  rw [ofExpression] at bound
  split at bound
  next => cases bound
  next candidates _ =>
    dsimp only at bound
    split at bound
    next done =>
      cases bound
      obtain ⟨candidate, member, attempt⟩ := firstOk_eq_ok done
      obtain ⟨bounds, each, same⟩ := map_eq_ok.mp attempt
      exact ⟨candidate, member, bounds, each, same.symm⟩
    next => cases bound

theorem ofExpressions_eq_ok {kinds : List Kind} {args : List Expression} {bounds : List (Bound σ)}
    (bound : ofExpressions catalog kinds args = .ok bounds) :
    List.Forall₂ (fun pair result => ofExpression catalog pair.1 pair.2 = .ok result) (kinds.zip args) bounds := by
  induction args generalizing kinds bounds with
  | nil =>
    cases bound
    rw [List.zip_nil_right]
    exact .nil
  | cons arg args ih =>
    cases kinds with
    | nil =>
      cases bound
      exact .nil
    | cons kind kinds =>
      obtain ⟨first, done, bound⟩ := bind_eq_ok.mp bound
      obtain ⟨others, rest, bound⟩ := bind_eq_ok.mp bound
      cases bound
      exact .cons done (ih rest)

theorem over_ofExpression {required : Kind} {e : Expression} {result : Bound σ} (scalar : e.Scalar)
    (bound : ofExpression catalog required e = .ok result) : Over catalog result := by
  induction e using Tree.induct generalizing required result with
  | raw mark =>
    rw [ofExpression] at bound
    split at bound
    · cases bound
      exact .raw _
    · cases bound
  | constant value =>
    rw [ofExpression] at bound
    split at bound
    · cases bound
      exact .constant scalar.value
    · cases bound
  | call name args ih =>
    obtain ⟨candidate, found, bounds, each, rfl⟩ := ofExpression_call bound
    refine .call (find_subset catalog _ _ _ found) ?_
    intro bound member
    obtain ⟨⟨kind, arg⟩, inside, done⟩ := forall₂_mem_right (ofExpressions_eq_ok each) member
    have held := (List.of_mem_zip inside).2
    exact ih arg held (scalar.arg held) done

end Bound

namespace Specification

variable {σ φ : Type}

def lowered (catalog : Catalog σ φ) (s : Specification) : Except CompileError (List (Field (Bound σ))) := do
  let expressions ← stage Expression.ofJson s.features
  let expanded ← stage (Field.ofExpression catalog.composite?) expressions
  stage (bindField catalog) expanded

theorem lowered_over {catalog : Catalog σ φ} {s : Specification} {fields : List (Field (Bound σ))}
    (lowered : s.lowered catalog = .ok fields) : ∀ field ∈ fields, Bound.Over catalog field.tree := by
  intro field member
  obtain ⟨expressions, read, lowered⟩ := bind_eq_ok.mp lowered
  obtain ⟨expanded, unfolded, bound⟩ := bind_eq_ok.mp lowered
  obtain ⟨field', member, bound⟩ := forall₂_mem_right (stage_results bound) member
  obtain ⟨e, member, unfolded⟩ := forall₂_mem_right (stage_results unfolded) member
  obtain ⟨json, -, read⟩ := forall₂_mem_right (stage_results read) member
  obtain ⟨tree, built, same⟩ := bind_eq_ok.mp bound
  obtain ⟨result, expansion, unfolded⟩ := bind_eq_ok.mp unfolded
  have scalar : field'.tree.Scalar := by
    have held := (Expression.scalar_ofJson _ _ read).expand expansion
    dsimp only at unfolded
    split at unfolded <;> cases unfolded <;> exact held
  cases same
  exact (Bound.over_ofExpression scalar built).withImplicitInputs.lower

end Specification

end FlowMetering
