import FlowMetering.Library.Catalog
import FlowMetering.Proofs.Stages

/-! Problems of single features. A feature that is unknown, mistyped or malformed is so whatever else is specified: the
specification of this feature alone is rejected for the same problem. -/

namespace FlowMetering

private theorem bind_eq_error {ε α β : Type} {first : Except ε α} {next : α → Except ε β} {problem : ε} :
    (first >>= next) = .error problem ↔
      first = .error problem ∨ ∃ middle, first = .ok middle ∧ next middle = .error problem := by
  cases first with
  | error other => simp [bind, Except.bind]
  | ok middle => simp [bind, Except.bind]

private theorem foldlM_error {ε α β : Type} {step : β → α → Except ε β} (failure : ε → Prop)
    (each : ∀ found item problem, step found item = .error problem → failure problem) {items : List α} {found : β}
    {problem : ε} (failed : items.foldlM step found = .error problem) : failure problem := by
  induction items generalizing found with
  | nil => cases failed
  | cons item items ih =>
    rw [List.foldlM_cons] at failed
    rcases bind_eq_error.mp failed with first | ⟨next, -, rest⟩
    · exact each found item problem first
    · exact ih rest

theorem forall₂_getElem?_right {α β : Type} {related : α → β → Prop} {as : List α} {bs : List β}
    (each : List.Forall₂ related as bs) {i : Nat} {b : β} (found : bs[i]? = some b) : ∃ a, as[i]? = some a ∧ related a b := by
  induction each generalizing i with
  | nil => cases found
  | cons first rest ih =>
    cases i with
    | zero =>
      cases found
      exact ⟨_, rfl, first⟩
    | succ i => exact ih found

/-- A fault that lies in one feature. The others lie in controls or filters, in what is exported twice, or in how many
templates there are. -/
def Fault.ofFeature : Fault → Bool
  | .unknownFeature | .typeMismatch _ | .unresolvableVariant | .unsupportedConstant | .invalidExpression _ => true
  | .unknownControl | .unknownFilter | .tooManyVariants _ _ | .duplicateExport => false

namespace Specification

variable {σ φ : Type} {catalog : Catalog σ φ} {limit : Nat} {s : Specification} {e : CompileError}

private theorem located_eq_error {α : Type} {position : Nat} {attempt : Except Problem α} :
    located position attempt = .error e ↔ e.position = position ∧ attempt = .error ⟨e.name, e.fault⟩ := by
  cases attempt with
  | ok result => simp [located]
  | error problem =>
    obtain ⟨number, name, fault⟩ := e
    obtain ⟨name', fault'⟩ := problem
    simp only [located, Problem.located, Except.error.injEq, CompileError.mk.injEq, Problem.mk.injEq]
    constructor
    · rintro ⟨rfl, rfl, rfl⟩
      exact ⟨rfl, rfl, rfl⟩
    · rintro ⟨rfl, rfl, rfl⟩
      exact ⟨rfl, rfl, rfl⟩

private theorem mapM_located_error {α β : Type} {step : α → Except Problem β} {items : List (α × Nat)}
    (failed : items.mapM (fun item => located (item.2 + 1) (step item.1)) = .error e) :
    ∃ item ∈ items, e.position = item.2 + 1 ∧ step item.1 = .error ⟨e.name, e.fault⟩ := by
  induction items with
  | nil => cases failed
  | cons item items ih =>
    rw [List.mapM_cons] at failed
    rcases bind_eq_error.mp failed with first | ⟨result, -, failed⟩
    · exact ⟨item, List.mem_cons_self, located_eq_error.mp first⟩
    · rcases bind_eq_error.mp failed with rest | ⟨results, -, same⟩
      · obtain ⟨other, member, held⟩ := ih rest
        exact ⟨other, List.mem_cons_of_mem _ member, held⟩
      · cases same

private theorem stage_error {α β : Type} {step : α → Except Problem β} {items : List α} (failed : stage step items = .error e) :
    ∃ i item, items[i]? = some item ∧ e.position = i + 1 ∧ step item = .error ⟨e.name, e.fault⟩ := by
  obtain ⟨⟨item, i⟩, member, position, problem⟩ := mapM_located_error failed
  exact ⟨i, item, by simpa [List.mem_zipIdx_iff_getElem?] using member, position, problem⟩

private theorem located_bind {α β : Type} (position : Nat) (first : Except Problem α) (next : α → Except Problem β) :
    located position (first >>= next) = located position first >>= fun a => located position (next a) := by
  cases first with
  | error problem => rfl
  | ok a => rfl

private theorem stage_nil {α β : Type} (step : α → Except Problem β) : stage step [] = pure [] :=
  rfl

private theorem stage_singleton {α β : Type} (step : α → Except Problem β) (item : α) :
    stage step [item] = located 1 (step item) >>= fun result => pure [result] := by
  simp [stage]

private theorem controlName_error {json : Json} {problem : Problem} (failed : controlName json = .error problem) :
    problem.fault = .unknownControl := by
  cases json with
  | string name => cases failed
  | null | boolean _ | number _ | array _ | object _ =>
    cases failed
    rfl

private theorem boundControl_error {name : String} {problem : Problem} (failed : boundControl catalog name = .error problem) :
    problem.fault = .unknownControl := by
  rw [boundControl] at failed
  split at failed
  · cases failed
  · cases failed
    rfl

private theorem namedFilter_error {name : String} {problem : Problem} (failed : namedFilter catalog name = .error problem) :
    problem.fault = .unknownFilter := by
  rw [namedFilter] at failed
  split at failed
  · cases failed
  · cases failed
    rfl

private theorem stage_fault {α β : Type} {step : α → Except Problem β} {fault : Fault}
    (each : ∀ item problem, step item = .error problem → problem.fault = fault) {items : List α}
    (failed : stage step items = .error e) : e.fault = fault := by
  obtain ⟨i, item, -, -, problem⟩ := stage_error failed
  exact each item _ problem

private theorem ofFields_error {fields : List (Field (Typed σ))} {controls : List (Registered σ)}
    (failed : Allocation.ofFields fields controls = .error e) : e.fault = .duplicateExport := by
  rcases bind_eq_error.mp failed with exported | ⟨a, -, same⟩
  · refine foldlM_error (fun e => e.fault = .duplicateExport) (fun a item problem exported => ?_) exported
    simp only [Allocation.addField] at exported
    split at exported
    · rw [Allocation.addExport] at exported
      split at exported
      · split at exported
        · cases exported
          rfl
        · cases exported
      · cases exported
    · cases exported
  · cases same

private theorem program_error {a : Allocation σ} {filters : List (String × φ)} (failed : a.program limit filters = .error e) :
    ∃ count, e.fault = .tooManyVariants count limit := by
  rcases bind_eq_error.mp failed with templates | ⟨template, -, same⟩
  · rcases bind_eq_error.mp templates with counted | ⟨sources, -, same⟩
    · refine foldlM_error (fun e => ∃ count, e.fault = .tooManyVariants count limit)
        (fun found slot problem counted => ?_) counted
      dsimp only at counted
      split at counted
      · cases counted
        exact ⟨_, rfl⟩
      · cases counted
    · cases same
  · cases same

private theorem prepareField_of_compile_error (failed : s.compile catalog limit = .error e) (own : e.fault.ofFeature) :
    ∃ i json, s.features[i]? = some json ∧ e.position = i + 1 ∧
      prepareField catalog limit json = .error ⟨e.name, e.fault⟩ := by
  have elsewhere {fault : Fault} (same : e.fault = fault) (other : fault.ofFeature = false) : False := by
    simp [same, other] at own
  rcases bind_eq_error.mp failed with failed | ⟨expressions, read, failed⟩
  · obtain ⟨i, json, found, position, problem⟩ := stage_error failed
    exact ⟨i, json, found, position, bind_eq_error.mpr (.inl problem)⟩
  have read := stage_results read
  rcases bind_eq_error.mp failed with failed | ⟨names, -, failed⟩
  · exact (elsewhere (stage_fault (fun _ _ => controlName_error) failed) rfl).elim
  rcases bind_eq_error.mp failed with failed | ⟨expanded, unfolded, failed⟩
  · obtain ⟨i, expression, found, position, problem⟩ := stage_error failed
    obtain ⟨json, found, read⟩ := forall₂_getElem?_right read found
    exact ⟨i, json, found, position, bind_eq_error.mpr (.inr ⟨_, read, bind_eq_error.mpr (.inl problem)⟩)⟩
  have unfolded := forall₂_comp read (stage_results unfolded)
  rcases bind_eq_error.mp failed with failed | ⟨bound, lowered, failed⟩
  · obtain ⟨i, field, found, position, problem⟩ := stage_error failed
    obtain ⟨json, found, e, read, unfolded⟩ := forall₂_getElem?_right unfolded found
    refine ⟨i, json, found, position, ?_⟩
    simpa [prepareField, read, unfolded, bind, Except.bind] using bind_eq_error.mpr (.inl problem)
  have lowered := forall₂_comp unfolded (stage_results lowered)
  rcases bind_eq_error.mp failed with failed | ⟨controls, -, failed⟩
  · exact (elsewhere (stage_fault (fun _ _ => boundControl_error) failed) rfl).elim
  rcases bind_eq_error.mp failed with failed | ⟨typed, -, failed⟩
  · obtain ⟨i, field, found, position, problem⟩ := stage_error failed
    obtain ⟨json, found, expanded, ⟨e, read, unfolded⟩, lowered⟩ := forall₂_getElem?_right lowered found
    refine ⟨i, json, found, position, ?_⟩
    simpa [prepareField, read, unfolded, lowered, bind, Except.bind] using problem
  rcases bind_eq_error.mp failed with failed | ⟨filters, -, failed⟩
  · exact (elsewhere (stage_fault (fun _ _ => namedFilter_error) failed) rfl).elim
  rcases bind_eq_error.mp failed with failed | ⟨a, -, failed⟩
  · exact (elsewhere (ofFields_error failed) rfl).elim
  · obtain ⟨count, same⟩ := program_error failed
    exact (elsewhere same rfl).elim

private theorem compile_ofFeatures_error {json : Json} {problem : Problem} (failed : prepareField catalog limit json = .error problem) :
    (ofFeatures [json]).compile catalog limit = .error (problem.located 1) := by
  have alone : (ofFeatures [json]).compile catalog limit = located 1 (prepareField catalog limit json) >>= fun field =>
      Allocation.ofFields [field] [] >>= fun a => a.program limit [] := by
    simp only [compile, prepareField, ofFeatures, stage_singleton, stage_nil, located_bind, bind_assoc, pure_bind]
  rw [alone, failed]
  rfl

/-- Problems of features are local. Where a specification is rejected for a fault of a feature, the feature at the position
that is named is rejected for the same fault when it is specified alone, without controls and filters. -/
theorem compile_error_local (failed : s.compile catalog limit = .error e) (own : e.fault.ofFeature) :
    1 ≤ e.position ∧ e.position ≤ s.features.length ∧ ∃ json, s.features[e.position - 1]? = some json ∧
      (ofFeatures [json]).compile catalog limit = .error { e with position := 1 } := by
  obtain ⟨i, json, found, position, alone⟩ := prepareField_of_compile_error failed own
  have inside := (List.getElem?_eq_some_iff.mp found).1
  refine ⟨by omega, by omega, json, ?_, compile_ofFeatures_error alone⟩
  simpa [position] using found

/-- The first problem is that of the last feature. The repeated export and the unknown filter would be found later. -/
def faulty : Specification where
  features := [.string "octetTotalCount", .string "octetTotalCount",
    .array [.string "add", .string "sourceIPAddress", .boolean true]]
  control := [.string "_tcpEnd"]
  filter := ["smtp"]

theorem compile_error_local_faulty :
    faulty.compile Library.catalog 4096 = .error ⟨3, "add(sourceIPAddress,true)", .unresolvableVariant⟩ ∧
      (ofFeatures [.array [.string "add", .string "sourceIPAddress", .boolean true]]).compile Library.catalog 4096 =
        .error ⟨1, "add(sourceIPAddress,true)", .unresolvableVariant⟩ := by
  have failed : faulty.compile Library.catalog 4096 = .error ⟨3, "add(sourceIPAddress,true)", .unresolvableVariant⟩ := by
    rfl
  obtain ⟨-, -, json, found, alone⟩ := compile_error_local failed rfl
  cases found
  exact ⟨failed, alone⟩

end Specification

end FlowMetering
