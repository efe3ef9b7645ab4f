import FlowMetering.Compilation
import Mathlib.Data.List.Forall2

/-! A successful compilation has gone through all its stages. The results of the stages are named here, so that
facts about programs can be carried from one stage to the next. -/

namespace FlowMetering

theorem bind_eq_ok {ε α β : Type} {first : Except ε α} {next : α → Except ε β} {result : β} :
    (first >>= next) = .ok result ↔ ∃ middle, first = .ok middle ∧ next middle = .ok result := by
  cases first with
  | error problem => exact ⟨nofun, fun ⟨_, same, _⟩ => nomatch same⟩
  | ok middle => exact ⟨fun same => ⟨middle, rfl, same⟩, fun ⟨_, same, rest⟩ => by cases same; exact rest⟩

theorem map_eq_ok {ε α β : Type} {first : Except ε α} {f : α → β} {result : β} :
    first.map f = .ok result ↔ ∃ middle, first = .ok middle ∧ f middle = result := by
  cases first with
  | error problem => exact ⟨nofun, fun ⟨_, same, _⟩ => nomatch same⟩
  | ok middle =>
    refine ⟨fun same => ⟨middle, rfl, by cases same; rfl⟩, ?_⟩
    rintro ⟨_, same, rfl⟩
    cases same
    rfl

/-- A run through a list succeeds exactly if it does for each item. -/
theorem mapM_eq_ok {ε α β : Type} {step : α → Except ε β} {items : List α} {results : List β} :
    items.mapM step = .ok results ↔ List.Forall₂ (fun item result => step item = .ok result) items results := by
  induction items generalizing results with
  | nil => exact ⟨fun same => by cases same; exact .nil, fun none => by cases none; rfl⟩
  | cons item items ih =>
    rw [List.mapM_cons]
    constructor
    · intro succeeded
      obtain ⟨result, done, succeeded⟩ := bind_eq_ok.mp succeeded
      obtain ⟨others, rest, succeeded⟩ := bind_eq_ok.mp succeeded
      cases succeeded
      exact .cons done (ih.mp rest)
    · intro each
      cases each with
      | cons done rest => exact bind_eq_ok.mpr ⟨_, done, bind_eq_ok.mpr ⟨_, ih.mpr rest, rfl⟩⟩

/-- What each step keeps is kept by a run of steps that succeeds. -/
theorem foldlM_keeps {ε α β : Type} {step : β → α → Except ε β} {holds : β → Prop}
    (each : ∀ item found next, holds found → step found item = .ok next → holds next) {items : List α} {found result : β}
    (start : holds found) (done : items.foldlM step found = .ok result) : holds result := by
  induction items generalizing found with
  | nil =>
    cases done
    exact start
  | cons item items ih =>
    rw [List.foldlM_cons] at done
    obtain ⟨next, first, rest⟩ := bind_eq_ok.mp done
    exact ih (each item found next start first) rest

theorem ok_of_isOk {ε α : Type} {attempt : Except ε α} (ok : attempt.isOk = true) : ∃ result, attempt = .ok result := by
  cases attempt with
  | error problem => cases ok
  | ok result => exact ⟨result, rfl⟩

/-- What is decided of the result is decided of a success. -/
theorem ok_of_any {ε α : Type} {attempt : Except ε α} {holds : α → Prop} [DecidablePred holds]
    (shown : attempt.toOption.any (fun result => decide (holds result)) = true) :
    ∃ result, attempt = .ok result ∧ holds result := by
  cases attempt with
  | error problem => cases shown
  | ok result => exact ⟨result, rfl, of_decide_eq_true shown⟩

theorem forall₂_mem_left {α β : Type} {related : α → β → Prop} {as : List α} {bs : List β}
    (each : List.Forall₂ related as bs) {a : α} (member : a ∈ as) : ∃ b ∈ bs, related a b := by
  induction each with
  | nil => exact absurd member List.not_mem_nil
  | cons first rest ih =>
    rcases List.mem_cons.mp member with rfl | member
    · exact ⟨_, List.mem_cons_self, first⟩
    · obtain ⟨b, inside, held⟩ := ih member
      exact ⟨b, List.mem_cons_of_mem _ inside, held⟩

theorem forall₂_mem_right {α β : Type} {related : α → β → Prop} {as : List α} {bs : List β}
    (each : List.Forall₂ related as bs) {b : β} (member : b ∈ bs) : ∃ a ∈ as, related a b :=
  forall₂_mem_left each.flip member

theorem forall₂_comp {α β γ : Type} {before : α → β → Prop} {behind : β → γ → Prop} {as : List α} {bs : List β}
    {cs : List γ} (first : List.Forall₂ before as bs) (second : List.Forall₂ behind bs cs) :
    List.Forall₂ (fun a c => ∃ b, before a b ∧ behind b c) as cs := by
  induction first generalizing cs with
  | nil =>
    cases second
    exact .nil
  | cons one rest ih =>
    cases second with
    | cons one' rest' => exact .cons ⟨_, one, one'⟩ (ih rest')

private theorem forall₂_split {α β γ : Type} {before : α → β → Prop} {behind : β → γ → Prop} {as : List α} {cs : List γ}
    (both : List.Forall₂ (fun a c => ∃ b, before a b ∧ behind b c) as cs) :
    ∃ bs, List.Forall₂ before as bs ∧ List.Forall₂ behind bs cs := by
  induction both with
  | nil => exact ⟨[], .nil, .nil⟩
  | cons one rest ih =>
    obtain ⟨b, first, second⟩ := one
    obtain ⟨bs, others, others'⟩ := ih
    exact ⟨b :: bs, .cons first others, .cons second others'⟩

namespace Specification

variable {σ φ : Type} {catalog : Catalog σ φ} {limit : Nat} {s : Specification} {program : Program σ φ}

private theorem located_eq_ok {α : Type} {position : Nat} {attempt : Except Problem α} {result : α} :
    located position attempt = .ok result ↔ attempt = .ok result := by
  cases attempt with
  | error problem => exact ⟨nofun, nofun⟩
  | ok found => exact ⟨fun same => by cases same; rfl, fun same => by cases same; rfl⟩

/-- A stage succeeds exactly if it does for each item. -/
theorem stage_eq_ok {α β : Type} {step : α → Except Problem β} {items : List α} {results : List β} :
    stage step items = .ok results ↔ List.Forall₂ (fun item result => step item = .ok result) items results := by
  refine mapM_eq_ok.trans ?_
  simp only [located_eq_ok]
  rw [← List.forall₂_map_left_iff (f := Prod.fst) (R := fun item result => step item = .ok result), List.zipIdx_map_fst]

/-- A stage that succeeds has succeeded for each item. -/
theorem stage_results {α β : Type} {step : α → Except Problem β} {items : List α} {results : List β}
    (succeeded : stage step items = .ok results) :
    List.Forall₂ (fun item result => step item = .ok result) items results :=
  stage_eq_ok.mp succeeded

/-- What a compilation has found at each stage. -/
structure Stages (catalog : Catalog σ φ) (limit : Nat) (s : Specification) (program : Program σ φ) where
  expressions : List Expression
  names : List String
  expanded : List (Field Expression)
  bound : List (Field (Bound σ))
  controls : List (Registered σ)
  typed : List (Field (Typed σ))
  filters : List (String × φ)
  allocation : Allocation σ
  read : stage Expression.ofJson s.features = .ok expressions
  named : stage controlName s.control = .ok names
  unfolded : stage (Field.ofExpression catalog.composite?) expressions = .ok expanded
  lowered : stage (bindField catalog) expanded = .ok bound
  controlled : stage (boundControl catalog) names = .ok controls
  resolved : stage (typeField limit) bound = .ok typed
  filtered : stage (namedFilter catalog) s.filter = .ok filters
  allocated : Allocation.ofFields typed controls = .ok allocation
  finished : allocation.program limit filters = .ok program

theorem Stages.controls_eq_nil (stages : Stages catalog limit s program) (uncontrolled : s.control = []) :
    stages.controls = [] := by
  have named := stage_results stages.named
  rw [uncontrolled, List.forall₂_nil_left_iff] at named
  have controlled := stage_results stages.controlled
  rwa [named, List.forall₂_nil_left_iff] at controlled

theorem compile_stages (compiled : s.compile catalog limit = .ok program) :
    Nonempty (Stages catalog limit s program) := by
  obtain ⟨expressions, read, compiled⟩ := bind_eq_ok.mp compiled
  obtain ⟨names, named, compiled⟩ := bind_eq_ok.mp compiled
  obtain ⟨expanded, unfolded, compiled⟩ := bind_eq_ok.mp compiled
  obtain ⟨bound, lowered, compiled⟩ := bind_eq_ok.mp compiled
  obtain ⟨controls, controlled, compiled⟩ := bind_eq_ok.mp compiled
  obtain ⟨typed, resolved, compiled⟩ := bind_eq_ok.mp compiled
  obtain ⟨filters, filtered, compiled⟩ := bind_eq_ok.mp compiled
  obtain ⟨allocation, allocated, finished⟩ := bind_eq_ok.mp compiled
  exact ⟨⟨expressions, names, expanded, bound, controls, typed, filters, allocation, read, named, unfolded,
    lowered, controlled, resolved, filtered, allocated, finished⟩⟩

/-- What a feature comes to by itself before registers are allocated. -/
def prepareField (catalog : Catalog σ φ) (limit : Nat) (json : Json) : Except Problem (Field (Typed σ)) := do
  let e ← Expression.ofJson json
  let expanded ← Field.ofExpression catalog.composite? e
  let bound ← bindField catalog expanded
  typeField limit bound

def prepareControl (catalog : Catalog σ φ) (json : Json) : Except Problem (Registered σ) := do
  let name ← controlName json
  boundControl catalog name

theorem prepareField_eq_ok {json : Json} {field : Field (Typed σ)} : prepareField catalog limit json = .ok field ↔
    ∃ bound, (∃ expanded, (∃ e, Expression.ofJson json = .ok e ∧ Field.ofExpression catalog.composite? e = .ok expanded) ∧
      bindField catalog expanded = .ok bound) ∧ typeField limit bound = .ok field := by
  simp only [prepareField, bind_eq_ok]
  constructor
  · rintro ⟨e, read, expanded, unfolded, bound, lowered, typed⟩
    exact ⟨bound, ⟨expanded, ⟨e, read, unfolded⟩, lowered⟩, typed⟩
  · rintro ⟨bound, ⟨expanded, ⟨e, read, unfolded⟩, lowered⟩, typed⟩
    exact ⟨e, read, expanded, unfolded, bound, lowered, typed⟩

/-- The typed features of a compilation are what each comes to by itself. -/
theorem Stages.prepared (stages : Stages catalog limit s program) :
    List.Forall₂ (fun json field => prepareField catalog limit json = .ok field) s.features stages.typed := by
  have expanded := forall₂_comp (stage_results stages.read) (stage_results stages.unfolded)
  exact (forall₂_comp (forall₂_comp expanded (stage_results stages.lowered)) (stage_results stages.resolved)).imp
    fun _ _ => prepareField_eq_ok.mpr

/-- A specification compiles exactly if its features, its controls and its filters can each be had by themselves and registers
can be allocated for them. -/
theorem compile_eq_ok_iff : s.compile catalog limit = .ok program ↔ ∃ fields controls filters allocation,
    List.Forall₂ (fun json field => prepareField catalog limit json = .ok field) s.features fields ∧
    List.Forall₂ (fun json control => prepareControl catalog json = .ok control) s.control controls ∧
    List.Forall₂ (fun name filter => namedFilter catalog name = .ok filter) s.filter filters ∧
    Allocation.ofFields fields controls = .ok allocation ∧ allocation.program limit filters = .ok program := by
  constructor
  · intro compiled
    obtain ⟨stages⟩ := compile_stages compiled
    refine ⟨stages.typed, stages.controls, stages.filters, stages.allocation, stages.prepared, ?_,
      stage_results stages.filtered, stages.allocated, stages.finished⟩
    exact (forall₂_comp (stage_results stages.named) (stage_results stages.controlled)).imp fun _ _ => bind_eq_ok.mpr
  · rintro ⟨fields, controls, filters, allocation, prepared, controlled, filtered, allocated, finished⟩
    obtain ⟨bound, lowered, typed⟩ := forall₂_split (prepared.imp fun _ _ => prepareField_eq_ok.mp)
    obtain ⟨expanded, unfolded, lowered⟩ := forall₂_split lowered
    obtain ⟨expressions, read, unfolded⟩ := forall₂_split unfolded
    obtain ⟨names, named, controlled⟩ := forall₂_split (controlled.imp fun _ _ => bind_eq_ok.mp)
    simp only [compile, bind_eq_ok]
    exact ⟨expressions, stage_eq_ok.mpr read, names, stage_eq_ok.mpr named, expanded, stage_eq_ok.mpr unfolded,
      bound, stage_eq_ok.mpr lowered, controls, stage_eq_ok.mpr controlled, fields, stage_eq_ok.mpr typed,
      filters, stage_eq_ok.mpr filtered, allocation, allocated, finished⟩

end Specification

end FlowMetering
