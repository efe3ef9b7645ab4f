import FlowMetering.Proofs.ExactSharing
import FlowMetering.Proofs.OverloadSearch

/-! Repeated exports. No other stage of a compilation complains of an export, so a specification is rejected for one
exactly if a feature repeats the shape of an earlier one and nothing is wrong before registers are allocated. -/

namespace FlowMetering

def Unrepeated {ε α : Type} (fault : ε → Fault) (attempt : Except ε α) : Prop :=
  ∀ e, attempt = .error e → fault e ≠ .duplicateExport

namespace Unrepeated

variable {ε α β : Type} {fault : ε → Fault}

private theorem ok (result : α) : Unrepeated fault (.ok result) :=
  nofun

private theorem error {e : ε} (other : fault e ≠ .duplicateExport) : Unrepeated fault (.error e : Except ε α) := by
  rintro _ ⟨⟩
  exact other

private theorem bind {first : Except ε α} {next : α → Except ε β} (own : Unrepeated fault first)
    (rest : ∀ middle, Unrepeated fault (next middle)) : Unrepeated fault (first >>= next) := by
  cases first with
  | error e => exact .error (own e rfl)
  | ok middle => exact rest middle

private theorem map {first : Except ε α} {f : α → β} (own : Unrepeated fault first) : Unrepeated fault (first.map f) := by
  cases first with
  | error e => exact .error (own e rfl)
  | ok middle => exact .ok (f middle)

end Unrepeated

mutual
private theorem Expression.unrepeated_ofJson (json : Json) : Unrepeated Problem.fault (ofJson json) := by
  cases json with
  | null | object members => exact .error nofun
  | boolean b | number n => exact .ok _
  | string name =>
    rw [ofJson]
    split
    · exact .error nofun
    · exact .ok _
  | array items =>
    cases items with
    | nil => exact .error nofun
    | cons head args =>
      cases head with
      | string name => exact (unrepeated_ofJsons args).map
      | null | boolean _ | number _ | array _ | object _ => exact .error nofun
termination_by structural json

private theorem Expression.unrepeated_ofJsons (jsons : List Json) : Unrepeated Problem.fault (ofJsons jsons) := by
  cases jsons with
  | nil => exact .ok _
  | cons json jsons =>
    exact (unrepeated_ofJson json).bind fun _ => (unrepeated_ofJsons jsons).bind fun _ => .ok _
termination_by structural jsons
end

private theorem Expression.unrepeated_expandWith {composite? : String → Option Composite}
    {unfold : Composite → Except Problem Expression} (unfolds : ∀ composite, Unrepeated Problem.fault (unfold composite))
    (e : Expression) : Unrepeated Problem.fault (expandWith composite? unfold e) := by
  induction e using Tree.induct with
  | raw mark => exact .ok _
  | constant value => exact .ok _
  | call name args ih =>
    have all : Unrepeated Problem.fault (expandAllWith composite? unfold args) := by
      induction args with
      | nil => exact .ok _
      | cons arg args rest =>
        have others := rest fun arg member => ih arg (List.mem_cons_of_mem _ member)
        exact (ih arg List.mem_cons_self).bind fun _ => others.bind fun _ => .ok _
    rw [expandWith]
    split
    · split
      · exact unfolds _
      · exact .error (by rintro ⟨⟩)
    · exact all.map

private theorem Expression.unrepeated_expand (composite? : String → Option Composite) (depth : Nat) (e : Expression) :
    Unrepeated Problem.fault (e.expand composite? depth) := by
  induction depth generalizing e with
  | zero =>
    refine unrepeated_expandWith (fun composite => ?_) e
    exact .error nofun
  | succ depth ih => exact unrepeated_expandWith (fun _ => (unrepeated_ofJson _).bind ih) e

namespace Bound

variable {σ φ : Type} {catalog : Catalog σ φ}

private theorem distinct_subset (problems : List Problem) : distinct problems ⊆ problems := by
  have grows (found : List Problem) :
      problems.foldl (fun found p => if found.contains p then found else found ++ [p]) found ⊆ found ++ problems := by
    induction problems generalizing found with
    | nil => exact List.subset_append_left _ _
    | cons p problems ih =>
      rw [List.foldl_cons]
      refine List.Subset.trans (ih _) ?_
      split
      · exact List.append_subset.mpr ⟨List.subset_append_left _ _, fun q member =>
          List.mem_append_right _ (List.mem_cons_of_mem _ member)⟩
      · rw [List.append_assoc]
        exact List.Subset.refl _
  exact grows []

private theorem joinProblems_cases (name : String) (problems : List Problem) :
    joinProblems name problems ∈ problems ∨ ∃ reason, joinProblems name problems = ⟨name, .typeMismatch reason⟩ := by
  rw [joinProblems]
  split
  next only single => exact .inl (distinct_subset problems (single ▸ List.mem_singleton_self only))
  next => exact .inr ⟨_, rfl⟩

private theorem firstOk_error {α β ε : Type} {attempt : α → Except ε β} {candidates : List α} {problems : List ε}
    (failed : firstOk attempt candidates = .error problems) :
    ∀ problem ∈ problems, ∃ candidate ∈ candidates, attempt candidate = .error problem := by
  induction candidates generalizing problems with
  | nil =>
    cases failed
    exact fun _ member => absurd member List.not_mem_nil
  | cons candidate candidates ih =>
    rw [firstOk] at failed
    split at failed
    next => cases failed
    next problem first =>
      split at failed
      next => cases failed
      next others rest =>
        cases failed
        refine List.forall_mem_cons.mpr ⟨⟨candidate, List.mem_cons_self, first⟩, fun other member => ?_⟩
        obtain ⟨candidate', held, done⟩ := ih rest other member
        exact ⟨candidate', List.mem_cons_of_mem _ held, done⟩

private theorem unrepeated_ofExpression (required : Kind) (e : Expression) :
    Unrepeated Problem.fault (ofExpression catalog required e) := by
  induction e using Tree.induct generalizing required with
  | raw mark =>
    rw [ofExpression]
    split
    · exact .ok _
    · exact .error (by rintro ⟨⟩)
  | constant value =>
    rw [ofExpression]
    split
    · exact .ok _
    · exact .error (by rintro ⟨⟩)
  | call name args ih =>
    have all (kinds : List Kind) : Unrepeated Problem.fault (ofExpressions catalog kinds args) := by
      induction args generalizing kinds with
      | nil => exact .ok _
      | cons arg args rest =>
        cases kinds with
        | nil => exact .ok _
        | cons kind kinds =>
          have others := rest (fun arg member => ih arg (List.mem_cons_of_mem _ member)) kinds
          exact (ih arg List.mem_cons_self kind).bind fun _ => others.bind fun _ => .ok _
    cases found : catalog.find name required args.length with
    | nil =>
      rw [ofExpression, found]
      apply Unrepeated.error
      rw [noCandidate]
      split <;> rintro ⟨⟩
    | cons first others =>
      rw [ofExpression_find found]
      cases searched : firstOk (bindWith catalog required args) (first :: others) with
      | ok bound => exact .ok bound
      | error problems =>
        apply Unrepeated.error
        rcases joinProblems_cases name problems with member | ⟨reason, same⟩
        · obtain ⟨candidate, -, failed⟩ := firstOk_error searched _ member
          exact (all _).map _ failed
        · rw [same]
          rintro ⟨⟩

end Bound

theorem Typed.unrepeated_ofBound {σ : Type} (limit : Nat) (b : Bound σ) :
    Unrepeated Problem.fault (ofBound limit b) := by
  induction b using Tree.induct with
  | raw mark => exact .ok _
  | constant value => exact .ok _
  | call binding args ih =>
    have all : Unrepeated Problem.fault (ofBounds limit args) := by
      induction args with
      | nil => exact .ok _
      | cons arg args rest =>
        have others := rest fun arg member => ih arg (List.mem_cons_of_mem _ member)
        exact (ih arg List.mem_cons_self).bind fun _ => others.bind fun _ => .ok _
    refine all.bind fun typed => ?_
    dsimp only
    split
    · exact .ok _
    next error _ => cases error <;> exact .error nofun

namespace Specification

variable {σ φ : Type} {catalog : Catalog σ φ} {limit : Nat} {s : Specification}

private theorem unrepeated_stage {α β : Type} {step : α → Except Problem β} (each : ∀ item, Unrepeated Problem.fault (step item))
    (items : List α) : Unrepeated CompileError.fault (stage step items) := by
  have all (items : List (α × Nat)) :
      Unrepeated CompileError.fault (items.mapM fun item => located (item.2 + 1) (step item.1)) := by
    induction items with
    | nil => exact .ok _
    | cons item items ih =>
      rw [List.mapM_cons]
      refine Unrepeated.bind ?_ fun _ => ih.bind fun _ => .ok _
      cases done : step item.1 with
      | ok result => exact .ok result
      | error problem => exact .error (each item.1 problem done)
  exact all items.zipIdx

/-- What a compilation has before registers are allocated: typed features, controls and filters. -/
def prepared (catalog : Catalog σ φ) (limit : Nat) (s : Specification) :
    Except CompileError (List (Field (Typed σ)) × List (Registered σ) × List (String × φ)) := do
  let expressions ← stage Expression.ofJson s.features
  let names ← stage controlName s.control
  let expanded ← stage (Field.ofExpression catalog.composite?) expressions
  let bound ← stage (bindField catalog) expanded
  let controls ← stage (boundControl catalog) names
  let typed ← stage (typeField limit) bound
  let filters ← stage (namedFilter catalog) s.filter
  return (typed, controls, filters)

theorem compile_eq_prepared (catalog : Catalog σ φ) (limit : Nat) (s : Specification) :
    s.compile catalog limit =
      s.prepared catalog limit >>= fun (fields, controls, filters) =>
        Allocation.ofFields fields controls >>= fun a => a.program limit filters := by
  simp only [compile, prepared, bind_assoc, pure_bind]

private theorem unrepeated_prepared : Unrepeated CompileError.fault (s.prepared catalog limit) := by
  refine (unrepeated_stage Expression.unrepeated_ofJson _).bind fun _ => ?_
  refine (unrepeated_stage (fun json => ?_) _).bind fun _ => ?_
  · cases json with
    | string name => exact .ok name
    | null | boolean _ | number _ | array _ | object _ => exact .error nofun
  refine (unrepeated_stage (fun e => ?_) _).bind fun _ => ?_
  · refine (Expression.unrepeated_expand _ _ e).bind fun _ => ?_
    dsimp only
    split <;> exact .ok _
  refine (unrepeated_stage (fun field => ?_) _).bind fun _ => ?_
  · exact (Bound.unrepeated_ofExpression _ field.tree).bind fun _ => .ok _
  refine (unrepeated_stage (fun name => ?_) _).bind fun _ => ?_
  · rw [boundControl]
    split
    · exact .ok _
    · exact .error nofun
  refine (unrepeated_stage (fun field => ?_) _).bind fun _ => ?_
  · exact (Typed.unrepeated_ofBound limit field.tree).bind fun _ => .ok _
  refine (unrepeated_stage (fun name => ?_) _).bind fun _ => .ok _
  rw [namedFilter]
  split
  · exact .ok _
  · exact .error nofun

private theorem unrepeated_program {a : Allocation σ} {filters : List (String × φ)} :
    Unrepeated CompileError.fault (a.program limit filters) := by
  have sources (slots : List TemplateTree.Slot) : Unrepeated CompileError.fault (TemplateTree.sources limit slots) := by
    have all (found : List (String × Nat)) : Unrepeated CompileError.fault (slots.foldlM (fun found slot =>
        let sources := TypeTree.collect found slot.type
        let count := TypeTree.combinations sources
        if limit < count then .error ⟨slot.position, slot.name, .tooManyVariants count limit⟩ else .ok sources) found) := by
      induction slots generalizing found with
      | nil => exact .ok _
      | cons slot slots ih =>
        rw [List.foldlM_cons]
        refine Unrepeated.bind ?_ ih
        dsimp only
        split
        · exact .error nofun
        · exact .ok _
    exact all []
  exact ((sources _).bind fun _ => .ok _).bind fun _ => .ok _

/-- The features that come to be allocated are typed. -/
theorem prepared_wellTyped {fields : List (Field (Typed σ))} {controls : List (Registered σ)}
    {filters : List (String × φ)} (done : s.prepared catalog limit = .ok (fields, controls, filters)) :
    ∀ field ∈ fields, Typed.WellTyped catalog limit field.tree := by
  obtain ⟨expressions, read, done⟩ := bind_eq_ok.mp done
  obtain ⟨names, named, done⟩ := bind_eq_ok.mp done
  obtain ⟨expanded, unfolded, done⟩ := bind_eq_ok.mp done
  obtain ⟨bound, lowered, done⟩ := bind_eq_ok.mp done
  obtain ⟨controls', controlled, done⟩ := bind_eq_ok.mp done
  obtain ⟨typed, resolved, done⟩ := bind_eq_ok.mp done
  obtain ⟨filters', filtered, done⟩ := bind_eq_ok.mp done
  cases done
  intro field member
  obtain ⟨field', held, types⟩ := forall₂_mem_right (stage_results resolved) member
  have drawn := lowered_over (bind_eq_ok.mpr ⟨_, read, bind_eq_ok.mpr ⟨_, unfolded, lowered⟩⟩) field' held
  obtain ⟨tree, typed, same⟩ := bind_eq_ok.mp types
  cases same
  exact Typed.wellTyped_ofBound drawn typed

/-- Registers are shared by expressions of one shape and by no others. The one specification that is rejected for its
exports is the one that exports a shape twice and has no earlier problem. -/
theorem compile_shares_exactly (catalog : Catalog σ φ) (limit : Nat) (s : Specification) :
    (∀ p, s.compile catalog limit = .ok p → ∃ fields controls filters a,
      s.prepared catalog limit = .ok (fields, controls, filters) ∧ Allocation.ofFields fields controls = .ok a ∧
        p.nodes = a.nodes ∧ Allocation.SharesExactly fields a) ∧
    ∀ position name, s.compile catalog limit = .error ⟨position, name, .duplicateExport⟩ ↔
      ∃ fields controls filters i field, s.prepared catalog limit = .ok (fields, controls, filters) ∧
        fields[i]? = some field ∧ Allocation.Repeats (fields.take i) field ∧
        (∀ j other, j < i → fields[j]? = some other → ¬Allocation.Repeats (fields.take j) other) ∧
        position = i + 1 ∧ name = field.name := by
  rw [compile_eq_prepared]
  cases done : s.prepared catalog limit with
  | error problem =>
    refine ⟨nofun, fun position name => ⟨?_, ?_⟩⟩
    · intro failed
      cases failed
      exact absurd rfl (unrepeated_prepared _ done)
    · rintro ⟨fields, controls, filters, i, field, prepared, -⟩
      cases prepared
  | ok result =>
    obtain ⟨fields, controls, filters⟩ := result
    change (∀ p, (Allocation.ofFields fields controls >>= fun a => a.program limit filters) = .ok p → _) ∧
      ∀ position name, (Allocation.ofFields fields controls >>= fun a => a.program limit filters) = _ ↔ _
    have first {i i' : Nat} {field : Field (Typed σ)} (found : fields[i]? = some field)
        (repeats : Allocation.Repeats (fields.take i) field)
        (none : ∀ j other, j < i' → fields[j]? = some other → ¬Allocation.Repeats (fields.take j) other) : i' ≤ i :=
      Nat.le_of_not_lt fun before => none i field before found repeats
    rcases Allocation.ofFields_cases (prepared_wellTyped done) controls with
      ⟨a, allocated, shares, fresh⟩ | ⟨i, field, found, repeats, none, failed⟩
    · refine ⟨fun p finished => ?_, fun position name => ⟨fun failed => ?_, ?_⟩⟩
      · obtain ⟨a', allocated', finished⟩ := bind_eq_ok.mp finished
        cases allocated.symm.trans allocated'
        exact ⟨fields, controls, filters, a, rfl, allocated, Allocation.program_nodes finished, shares⟩
      · rw [allocated] at failed
        exact absurd rfl (unrepeated_program _ failed)
      · rintro ⟨fields', controls', filters', i, field, prepared, found, repeats, -⟩
        cases prepared
        exact absurd repeats (fresh i field found)
    · rw [failed]
      refine ⟨nofun, fun position name => ⟨?_, ?_⟩⟩
      · intro same
        cases same
        exact ⟨fields, controls, filters, i, field, rfl, found, repeats, fun j other => none j other, rfl, rfl⟩
      · rintro ⟨fields', controls', filters', i', field', prepared, found', repeats', none', rfl, rfl⟩
        cases prepared
        obtain rfl : i = i' := Nat.le_antisymm (first found' repeats' none) (first found repeats none')
        cases found.symm.trans found'
        rfl

end Specification

end FlowMetering
