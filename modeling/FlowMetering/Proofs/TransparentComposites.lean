import FlowMetering.Proofs.CompiledRegisters
import FlowMetering.Proofs.RenamedFields
import FlowMetering.Proofs.UnfoldedExpressions

/-! Composites are transparent. A specification with its composites spelled out compiles exactly if the specification itself
does, into the same registers; what a composite lends to a program is the name of its field. -/

namespace FlowMetering

variable {σ φ : Type}

/-- What expansion puts in the place of a composite while `depth` of them may stand for each other. -/
def Expression.unfolding (composite? : String → Option Composite) : Nat → Composite → Except Problem Expression
  | 0, composite => .error ⟨composite.name,
    .invalidExpression ("composite expansion nested deeper than " ++ toString maxExpansion)⟩
  | depth + 1, composite => do
    let definition ← ofJson composite.definition
    expand composite? depth definition

theorem Expression.expand_eq (composite? : String → Option Composite) (depth : Nat) :
    expand composite? depth = expandWith composite? (unfolding composite? depth) := by
  cases depth <;> rfl

namespace Json

def calledAlone? : Json → Option String
  | .string name => if name = "" then none else some name
  | .array [.string name] => some name
  | _ => none

def calledComposite? (composite? : String → Option Composite) (json : Json) : Option Composite :=
  json.calledAlone?.bind composite?

mutual
/-- Replaces the calls of composites by what `spell` gives for them. A composite that is called on arguments stays, and so
does what cannot be read. -/
def spelledOutWith (composite? : String → Option Composite) (spell : Composite → Option Json) : Json → Option Json
  | .string name =>
    match calledComposite? composite? (.string name) with
    | some composite => spell composite
    | none => some (.string name)
  | .array items =>
    match items with
    | [] => some (.array [])
    | head :: args =>
      match head with
      | .string name =>
        match composite? name with
        | some composite => if args.isEmpty then spell composite else some (.array (.string name :: args))
        | none => (allSpelledOutWith composite? spell args).map fun args => .array (.string name :: args)
      | head => some (.array (head :: args))
  | .null => some .null
  | .boolean b => some (.boolean b)
  | .number n => some (.number n)
  | .object members => some (.object members)
termination_by structural json => json

def allSpelledOutWith (composite? : String → Option Composite) (spell : Composite → Option Json) :
    List Json → Option (List Json)
  | [] => some []
  | json :: jsons => do
    let json ← spelledOutWith composite? spell json
    let jsons ← allSpelledOutWith composite? spell jsons
    return json :: jsons
termination_by structural jsons => jsons
end

/-- The expression with its composites spelled out, unless composites stand for composites more than `depth` times. -/
def spelledOut? (composite? : String → Option Composite) : Nat → Json → Option Json
  | 0 => spelledOutWith composite? fun _ => none
  | depth + 1 => spelledOutWith composite? fun composite => spelledOut? composite? depth composite.definition

def expandedWith (composite? : String → Option Composite) (unfold : Composite → Except Problem Expression) (json : Json) :
    Except Problem Expression := do
  let e ← Expression.ofJson json
  e.expandWith composite? unfold

def allExpandedWith (composite? : String → Option Composite) (unfold : Composite → Except Problem Expression)
    (jsons : List Json) : Except Problem (List Expression) := do
  let es ← Expression.ofJsons jsons
  Expression.expandAllWith composite? unfold es

section

variable {composite? : String → Option Composite} {unfold unfold' : Composite → Except Problem Expression}
variable {spell : Composite → Option Json}

theorem expandedWith_name {name : String} (named : name ≠ "") : expandedWith composite? unfold (.string name) =
    match composite? name with
    | some composite => unfold composite
    | none => .ok (.call name [.raw ()]) := by
  rw [expandedWith, Expression.ofJson, if_neg named]
  change Expression.expandWith composite? unfold (.call name [.raw ()]) = _
  rw [Expression.expandWith]
  cases composite? name <;> rfl

theorem allExpandedWith_cons (json : Json) (jsons : List Json) :
    (allExpandedWith composite? unfold (json :: jsons)).toOption =
      (expandedWith composite? unfold json).toOption.bind fun e =>
        (allExpandedWith composite? unfold jsons).toOption.map (e :: ·) := by
  rw [allExpandedWith, allExpandedWith, expandedWith, Expression.ofJsons]
  cases Expression.ofJson json with
  | error problem => rfl
  | ok e =>
    cases Expression.ofJsons jsons with
    | error problem =>
      change none = (e.expandWith composite? unfold).toOption.bind fun _ => none
      rw [Option.bind_fun_none]
    | ok es =>
      change (do
        let e ← e.expandWith composite? unfold
        let es ← Expression.expandAllWith composite? unfold es
        return e :: es : Except Problem _).toOption = _
      change _ = (e.expandWith composite? unfold).toOption.bind fun e =>
        (Expression.expandAllWith composite? unfold es).toOption.map (e :: ·)
      cases e.expandWith composite? unfold with
      | error problem => rfl
      | ok e => cases Expression.expandAllWith composite? unfold es <;> rfl

/-- A call of a name that is no composite is read and expanded argument by argument. -/
theorem expandedWith_call {name : String} (plain : composite? name = none) (args : List Json) :
    (expandedWith composite? unfold (.array (.string name :: args))).toOption =
      (allExpandedWith composite? unfold args).toOption.map (.call name) := by
  rw [expandedWith, allExpandedWith, Expression.ofJson]
  cases Expression.ofJsons args with
  | error problem => rfl
  | ok es =>
    change (Expression.expandWith composite? unfold (.call name es)).toOption = _
    rw [Expression.expandWith, plain]
    dsimp only
    change _ = (Expression.expandAllWith composite? unfold es).toOption.map _
    cases Expression.expandAllWith composite? unfold es <;> rfl

theorem expandedWith_alone {name : String} {composite : Composite} (found : composite? name = some composite) :
    expandedWith composite? unfold (.array [.string name]) = unfold composite := by
  change Expression.expandWith composite? unfold (.call name []) = _
  rw [Expression.expandWith, found]
  rfl

/-- A composite takes no arguments, and no expression that can be written is the raw input. -/
theorem expandedWith_refused (unfold : Composite → Except Problem Expression) {name : String} {composite : Composite}
    (found : composite? name = some composite) (json : Json) (jsons : List Json) : (expandedWith composite? unfold (.array (.string name :: json :: jsons))).toOption = none := by
  rw [expandedWith, Expression.ofJson, Expression.ofJsons]
  cases read : Expression.ofJson json with
  | error problem => rfl
  | ok e =>
    cases Expression.ofJsons jsons with
    | error problem => rfl
    | ok es =>
      change (Expression.expandWith composite? unfold (.call name (e :: es))).toOption = none
      have busy : Expression.implicitOnly (e :: es) = false := by
        cases es with
        | nil =>
          have written := Expression.written_ofJson json e read
          cases written <;> rfl
        | cons e' es => rfl
      rw [Expression.expandWith, found]
      simp [busy, Except.toOption]

mutual
/-- Where the composites themselves expand as they are spelled out, so does an expression. -/
theorem expandedWith_spelledOut (spells : ∀ composite json, spell composite = some json →
      (unfold composite).toOption = (expandedWith composite? unfold' json).toOption)
    (json spelled : Json) (same : spelledOutWith composite? spell json = some spelled) :
    (expandedWith composite? unfold json).toOption = (expandedWith composite? unfold' spelled).toOption := by
  cases json with
  | null | boolean b | number n | object members =>
    cases same
    rfl
  | string name =>
    by_cases empty : name = ""
    · subst empty
      cases same
      rfl
    · rw [spelledOutWith, calledComposite?, calledAlone?, if_neg empty, Option.bind_some] at same
      rw [expandedWith_name empty]
      cases found : composite? name with
      | some composite =>
        rw [found] at same
        exact spells composite spelled same
      | none =>
        rw [found] at same
        obtain rfl := Option.some.inj same
        rw [expandedWith_name empty, found]
  | array items =>
    cases items with
    | nil =>
      cases same
      rfl
    | cons head args =>
      cases head with
      | null | boolean _ | number _ | array _ | object _ =>
        cases same
        rfl
      | string name =>
        rw [spelledOutWith] at same
        cases found : composite? name with
        | none =>
          rw [found] at same
          obtain ⟨args', each, rfl⟩ := Option.map_eq_some_iff.mp same
          rw [expandedWith_call found, expandedWith_call found, allExpandedWith_spelledOut spells args args' each]
        | some composite =>
          cases args with
          | nil =>
            rw [found] at same
            rw [expandedWith_alone found]
            exact spells composite spelled same
          | cons arg args =>
            rw [found] at same
            obtain rfl := Option.some.inj same
            rw [expandedWith_refused unfold found, expandedWith_refused unfold' found]
termination_by structural json

theorem allExpandedWith_spelledOut (spells : ∀ composite json, spell composite = some json →
      (unfold composite).toOption = (expandedWith composite? unfold' json).toOption)
    (jsons spelled : List Json) (same : allSpelledOutWith composite? spell jsons = some spelled) :
    (allExpandedWith composite? unfold jsons).toOption = (allExpandedWith composite? unfold' spelled).toOption := by
  cases jsons with
  | nil =>
    cases same
    rfl
  | cons json jsons =>
    obtain ⟨first, one, same⟩ := Option.bind_eq_some_iff.mp same
    obtain ⟨rest, others, same⟩ := Option.bind_eq_some_iff.mp same
    obtain rfl := Option.some.inj same
    rw [allExpandedWith_cons, allExpandedWith_cons, expandedWith_spelledOut spells json first one,
      allExpandedWith_spelledOut spells jsons rest others]
termination_by structural jsons
end

theorem calledComposite_spelledOutWith
    (spells : ∀ composite json, spell composite = some json → json.calledComposite? composite? = none) {json spelled : Json}
    (same : spelledOutWith composite? spell json = some spelled) : spelled.calledComposite? composite? = none := by
  cases json with
  | null | boolean b | number n | object members =>
    cases same
    rfl
  | string name =>
    rw [spelledOutWith] at same
    cases found : calledComposite? composite? (.string name) with
    | some composite =>
      rw [found] at same
      exact spells composite spelled same
    | none =>
      rw [found] at same
      obtain rfl := Option.some.inj same
      exact found
  | array items =>
    cases items with
    | nil =>
      cases same
      rfl
    | cons head args =>
      cases head with
      | null | boolean _ | number _ | array _ | object _ =>
        cases same
        rfl
      | string name =>
        rw [spelledOutWith] at same
        cases found : composite? name with
        | none =>
          rw [found] at same
          obtain ⟨args', -, rfl⟩ := Option.map_eq_some_iff.mp same
          cases args' with
          | nil => exact found
          | cons arg args' => rfl
        | some composite =>
          rw [found] at same
          cases args with
          | nil => exact spells composite spelled same
          | cons arg args =>
            obtain rfl := Option.some.inj same
            rfl

end

variable {composite? : String → Option Composite} {depth : Nat} {json spelled : Json}

/-- Expansion does not tell an expression from what it is spelled out to, and the latter needs no depth. -/
theorem expand_spelledOut (unfold' : Composite → Except Problem Expression)
    (same : json.spelledOut? composite? depth = some spelled) :
    (Expression.ofJson json >>= Expression.expand composite? depth).toOption =
      (expandedWith composite? unfold' spelled).toOption := by
  induction depth generalizing json spelled with
  | zero => exact expandedWith_spelledOut (fun _ _ spell => by cases spell) json spelled same
  | succ depth ih => exact expandedWith_spelledOut (fun _ _ spell => ih spell) json spelled same

/-- No composite is left at the top of what is spelled out. -/
theorem calledComposite_spelledOut (same : json.spelledOut? composite? depth = some spelled) :
    spelled.calledComposite? composite? = none := by
  induction depth generalizing json spelled with
  | zero => exact calledComposite_spelledOutWith (fun _ _ spell => by cases spell) same
  | succ depth ih => exact calledComposite_spelledOutWith (fun _ _ spell => ih spell) same

/-- What the field of a feature is called, and which element is declared for it. -/
def label (composite? : String → Option Composite) (json : Json) (expanded : Expression) : String × Option Element :=
  match json.calledComposite? composite? with
  | some composite => (composite.name, composite.declared)
  | none => (expanded.text, none)

theorem ofExpression_call {name : String} {args : List Expression} {field : Field Expression} :
    Field.ofExpression composite? (.call name args) = .ok field ↔
      ∃ expanded, Expression.expand composite? Expression.maxExpansion (.call name args) = .ok expanded ∧
        field = match composite? name with
          | some composite => ⟨composite.name, composite.declared, expanded⟩
          | none => ⟨expanded.text, none, expanded⟩ := by
  refine bind_eq_ok.trans (exists_congr fun expanded => and_congr_right fun _ => ?_)
  dsimp only
  cases composite? name <;> simp [pure, Except.pure, eq_comm]

/-- A feature that expands lends its field the label of its composite. -/
theorem ofExpression_label {e : Expression} (read : Expression.ofJson json = .ok e) (field : Field Expression) :
    Field.ofExpression composite? e = .ok field ↔ ∃ expanded, e.expand composite? Expression.maxExpansion = .ok expanded ∧
      field = ⟨(json.label composite? expanded).1, (json.label composite? expanded).2, expanded⟩ := by
  have alone {name : String} {args : List Expression} (called : json.calledComposite? composite? = composite? name) :
      Field.ofExpression composite? (.call name args) = .ok field ↔
        ∃ expanded, Expression.expand composite? Expression.maxExpansion (.call name args) = .ok expanded ∧
          field = ⟨(json.label composite? expanded).1, (json.label composite? expanded).2, expanded⟩ := by
    rw [ofExpression_call]
    refine exists_congr fun expanded => and_congr_right fun _ => ?_
    rw [label, called]
    cases composite? name <;> rfl
  cases json with
  | null | object members => cases read
  | boolean b | number n =>
    cases read
    exact bind_eq_ok.trans (exists_congr fun expanded => and_congr_right fun _ =>
      ⟨fun same => (Except.ok.inj same).symm, fun same => congrArg Except.ok same.symm⟩)
  | string name =>
    rw [Expression.ofJson] at read
    split at read
    next => cases read
    next named =>
      cases read
      exact alone (by rw [calledComposite?, calledAlone?, if_neg named, Option.bind_some])
  | array items =>
    cases items with
    | nil => cases read
    | cons head args =>
      cases head with
      | null | boolean _ | number _ | array _ | object _ => cases read
      | string name =>
        obtain ⟨es, each, rfl⟩ := map_eq_ok.mp read
        cases args with
        | nil =>
          cases each
          exact alone rfl
        | cons arg args =>
          cases found : composite? name with
          | none => exact alone found.symm
          | some composite =>
            -- a composite on arguments does not expand
            rw [ofExpression_call]
            refine exists_congr fun expanded => and_congr_right fun outcome => ?_
            have refused := expandedWith_refused (Expression.unfolding composite? Expression.maxExpansion) found arg args
            rw [expandedWith, read] at refused
            rw [Expression.expand_eq] at outcome
            cases (congrArg Except.toOption outcome).symm.trans refused

end Json

namespace Specification

variable {catalog : Catalog σ φ} {limit : Nat}

def typedExpression (catalog : Catalog σ φ) (limit : Nat) (expanded : Expression) : Except Problem (Typed σ) := do
  let bound ← Bound.ofExpression catalog .flowFeature expanded
  Typed.ofBound limit bound.withImplicitInputs.lower

/-- The tree of a field comes from the expanded feature alone, and its name from the label. -/
theorem prepareField_label {json : Json} {field : Field (Typed σ)} : prepareField catalog limit json = .ok field ↔
    ∃ expanded, (Expression.ofJson json >>= Expression.expand catalog.composite? Expression.maxExpansion) = .ok expanded ∧
      typedExpression catalog limit expanded = .ok field.tree ∧
      field.name = (json.label catalog.composite? expanded).1 ∧ field.declared = (json.label catalog.composite? expanded).2 := by
  constructor
  · intro prepared
    obtain ⟨bound, ⟨unfolded, ⟨e, read, unfolds⟩, binds⟩, types⟩ := prepareField_eq_ok.mp prepared
    obtain ⟨expanded, expands, rfl⟩ := (Json.ofExpression_label read unfolded).mp unfolds
    obtain ⟨tree, bound, rfl⟩ := map_eq_ok.mp binds
    obtain ⟨typed, resolved, rfl⟩ := map_eq_ok.mp types
    exact ⟨expanded, bind_eq_ok.mpr ⟨e, read, expands⟩, bind_eq_ok.mpr ⟨tree, bound, resolved⟩, rfl, rfl⟩
  · rintro ⟨expanded, expands, typed, name, declared⟩
    obtain ⟨e, read, expands⟩ := bind_eq_ok.mp expands
    obtain ⟨tree, binds, types⟩ := bind_eq_ok.mp typed
    refine prepareField_eq_ok.mpr ⟨_, ⟨_, ⟨e, read, (Json.ofExpression_label read _).mpr ⟨expanded, expands, rfl⟩⟩,
      map_eq_ok.mpr ⟨tree, binds, rfl⟩⟩, map_eq_ok.mpr ⟨field.tree, types, ?_⟩⟩
    rw [← name, ← declared]

/-- Whether a feature gets a field: what it comes down to is more than the bare raw input. -/
def hasField (catalog : Catalog σ φ) (limit : Nat) (json : Json) : Bool :=
  match prepareField catalog limit json with
  | .ok field => !field.tree.isRaw
  | .error _ => false

/-- The name of a feature's field, where the field is called `name` once composites are spelled out. -/
def outerName (catalog : Catalog σ φ) (json : Json) (name : String) : String :=
  match json.calledComposite? catalog.composite? with
  | some composite => composite.name
  | none => name

/-- A field and the one that it becomes once composites are spelled out. -/
structure SpelledField (catalog : Catalog σ φ) (json : Json) (field field' : Field (Typed σ)) : Prop where
  tree : field.tree = field'.tree
  name : field.name = outerName catalog json field'.name

private theorem outerName_label (json : Json) (expanded : Expression) :
    (json.label catalog.composite? expanded).1 = outerName catalog json expanded.text := by
  rw [Json.label, outerName]
  cases json.calledComposite? catalog.composite? <;> rfl

section

variable {json spelled : Json} (same : json.spelledOut? catalog.composite? Expression.maxExpansion = some spelled)
include same

private theorem expand_iff_spelledOut (expanded : Expression) :
    (Expression.ofJson json >>= Expression.expand catalog.composite? Expression.maxExpansion) = .ok expanded ↔
      (Expression.ofJson spelled >>= Expression.expand catalog.composite? Expression.maxExpansion) = .ok expanded := by
  have alike := Json.expand_spelledOut (Expression.unfolding catalog.composite? Expression.maxExpansion) same
  rw [Json.expandedWith, ← Expression.expand_eq] at alike
  rw [← toOption_eq_some, alike, toOption_eq_some]

private theorem label_spelledOut (expanded : Expression) : spelled.label catalog.composite? expanded = (expanded.text, none) := by
  rw [Json.label, Json.calledComposite_spelledOut same]

private theorem prepareField_spelledOut {field : Field (Typed σ)} (prepared : prepareField catalog limit json = .ok field) :
    ∃ field', prepareField catalog limit spelled = .ok field' ∧ SpelledField catalog json field field' := by
  obtain ⟨expanded, expands, typed, name, -⟩ := prepareField_label.mp prepared
  refine ⟨⟨expanded.text, none, field.tree⟩, prepareField_label.mpr ⟨expanded, ?_, typed, ?_, ?_⟩, rfl, ?_⟩
  · exact (expand_iff_spelledOut same expanded).mp expands
  · rw [label_spelledOut same]
  · rw [label_spelledOut same]
  · rw [name, outerName_label]

private theorem prepareField_of_spelledOut {field' : Field (Typed σ)} (prepared : prepareField catalog limit spelled = .ok field') :
    ∃ field, prepareField catalog limit json = .ok field ∧ SpelledField catalog json field field' := by
  obtain ⟨expanded, expands, typed, name, -⟩ := prepareField_label.mp prepared
  let label := json.label catalog.composite? expanded
  refine ⟨⟨label.1, label.2, field'.tree⟩, prepareField_label.mpr ⟨expanded, ?_, typed, rfl, rfl⟩, rfl, ?_⟩
  · exact (expand_iff_spelledOut same expanded).mpr expands
  · rw [name, label_spelledOut same, ← outerName_label]

end

/-- The specification with the composites in its features spelled out, unless they are nested too deep to be expanded. -/
def spelledOut? (composite? : String → Option Composite) (s : Specification) : Option Specification :=
  (s.features.mapM (Json.spelledOut? composite? Expression.maxExpansion)).map fun features => { s with features := features }

def exportedNames (fields : List (Field (Typed σ))) : List String :=
  (fields.filter (!·.tree.isRaw)).map (·.name)

/-- The fields of some features and those that they become once composites are spelled out. -/
structure SpelledFields (catalog : Catalog σ φ) (limit : Nat) (jsons : List Json) (fields fields' : List (Field (Typed σ))) :
    Prop where
  trees : fields.map Field.unnamed = fields'.map Field.unnamed
  count : (exportedNames fields').length = (jsons.filter (hasField catalog limit)).length
  names : exportedNames fields = List.zipWith (outerName catalog) (jsons.filter (hasField catalog limit)) (exportedNames fields')

private theorem SpelledFields.nil : SpelledFields catalog limit [] ([] : List (Field (Typed σ))) [] :=
  ⟨rfl, rfl, rfl⟩

private theorem SpelledFields.cons {json : Json} {jsons : List Json} {field field' : Field (Typed σ)}
    {fields fields' : List (Field (Typed σ))} (prepared : prepareField catalog limit json = .ok field)
    (first : SpelledField catalog json field field') (rest : SpelledFields catalog limit jsons fields fields') :
    SpelledFields catalog limit (json :: jsons) (field :: fields) (field' :: fields') := by
  have kept : hasField catalog limit json = !field'.tree.isRaw := by
    rw [hasField, prepared]
    exact congrArg (!·.isRaw) first.tree
  refine ⟨?_, ?_, ?_⟩
  · rw [List.map_cons, List.map_cons, rest.trees, Field.unnamed, Field.unnamed, first.tree]
  · have count := rest.count
    cases raw : field'.tree.isRaw <;> simp_all [exportedNames]
  · have names := rest.names
    cases raw : field'.tree.isRaw <;> simp_all [exportedNames, first.tree, first.name]

private theorem fields_spelledOut {jsons spelleds : List Json} {fields : List (Field (Typed σ))}
    (each : List.Forall₂ (fun json spelled => json.spelledOut? catalog.composite? Expression.maxExpansion = some spelled)
      jsons spelleds)
    (prepared : List.Forall₂ (fun json field => prepareField catalog limit json = .ok field) jsons fields) :
    ∃ fields', List.Forall₂ (fun json field => prepareField catalog limit json = .ok field) spelleds fields' ∧
      SpelledFields catalog limit jsons fields fields' := by
  induction each generalizing fields with
  | nil =>
    cases prepared
    exact ⟨[], .nil, .nil⟩
  | cons same _ ih =>
    cases prepared with
    | cons first rest =>
      obtain ⟨field', first', spelled⟩ := prepareField_spelledOut same first
      obtain ⟨fields', rest', spelled'⟩ := ih rest
      exact ⟨field' :: fields', .cons first' rest', spelled'.cons first spelled⟩

private theorem fields_of_spelledOut {jsons spelleds : List Json} {fields' : List (Field (Typed σ))}
    (each : List.Forall₂ (fun json spelled => json.spelledOut? catalog.composite? Expression.maxExpansion = some spelled)
      jsons spelleds)
    (prepared : List.Forall₂ (fun json field => prepareField catalog limit json = .ok field) spelleds fields') :
    ∃ fields, List.Forall₂ (fun json field => prepareField catalog limit json = .ok field) jsons fields ∧
      SpelledFields catalog limit jsons fields fields' := by
  induction each generalizing fields' with
  | nil =>
    cases prepared
    exact ⟨[], .nil, .nil⟩
  | cons same _ ih =>
    cases prepared with
    | cons first rest =>
      obtain ⟨field, first', spelled⟩ := prepareField_of_spelledOut same first
      obtain ⟨fields, rest', spelled'⟩ := ih rest
      exact ⟨field :: fields, .cons first' rest', spelled'.cons first' spelled⟩

end Specification

namespace Allocation

private theorem addTree_raw_iff (position : Nat) (tree : Typed σ) (a : Allocation σ) :
    (addTree position tree a).2 = .raw ↔ tree.isRaw = true := by
  cases tree with
  | raw mark => exact ⟨fun _ => rfl, fun _ => rfl⟩
  | constant value => exact ⟨nofun, nofun⟩
  | call typing args => exact ⟨nofun, nofun⟩

private theorem addField_names {a b : Allocation σ} {position : Nat} {field : Field (Typed σ)} (ordered : a.Ordered)
    (added : a.addField position field = .ok b) :
    b.exports.map (·.name) = a.exports.map (·.name) ++ Specification.exportedNames [field] := by
  have grown := addTree_grown position field.tree a
  have raw_iff := addTree_raw_iff position field.tree a
  obtain ⟨-, inside⟩ := addTree_sound position field.tree a ordered
  rw [addField_eq] at added
  cases reference : (addTree position field.tree a).2 with
  | raw =>
    rw [reference] at added
    obtain rfl := Except.ok.inj added
    simp [Specification.exportedNames, raw_iff.mp reference, grown.exports]
  | register r =>
    rw [reference] at added inside
    obtain ⟨-, -, exports, -⟩ := addExport_extends (e := ⟨r, field.name, field.declared, position⟩) inside added
    have plain : field.tree.isRaw = false := by simpa [reference] using raw_iff
    simp [Specification.exportedNames, plain, exports, grown.exports]

private theorem addFields_names {fields : List (Field (Typed σ) × Nat)} {a b : Allocation σ} (ordered : a.Ordered)
    (added : fields.foldlM (fun a field => a.addField (field.2 + 1) field.1) a = .ok b) :
    b.exports.map (·.name) = a.exports.map (·.name) ++ Specification.exportedNames (fields.map (·.1)) := by
  induction fields generalizing a with
  | nil =>
    cases added
    exact (List.append_nil _).symm
  | cons field fields ih =>
    rw [List.foldlM_cons] at added
    obtain ⟨middle, first, rest⟩ := bind_eq_ok.mp added
    rw [ih (addField_ordered ordered first) rest, addField_names ordered first, List.append_assoc]
    simp only [Specification.exportedNames, ← List.map_append, ← List.filter_append]
    rfl

private theorem ofFields_names {fields : List (Field (Typed σ))} {controls : List (Registered σ)} {a : Allocation σ}
    (allocated : ofFields fields controls = .ok a) : a.exports.map (·.name) = Specification.exportedNames fields := by
  obtain ⟨middle, added, rest⟩ := bind_eq_ok.mp allocated
  obtain rfl := Except.ok.inj rest
  have ordered : (empty : Allocation σ).Ordered := by rintro _ _ ⟨⟩
  rw [(addControls_controlled controls.zipIdx middle).exports, addFields_names ordered added, List.zipIdx_map_fst]
  rfl

end Allocation

namespace Specification

variable {catalog : Catalog σ φ} {limit : Nat} {s s' : Specification} {p : Program σ φ}

private theorem compile_renamed (compiled : s.compile catalog limit = .ok p) {fields fields' : List (Field (Typed σ))}
    (prepared : List.Forall₂ (fun json field => prepareField catalog limit json = .ok field) s.features fields)
    (control : s'.control = s.control) (filter : s'.filter = s.filter)
    (prepared' : List.Forall₂ (fun json field => prepareField catalog limit json = .ok field) s'.features fields')
    (trees : fields.map Field.unnamed = fields'.map Field.unnamed) :
    ∃ p', s'.compile catalog limit = .ok p' ∧ p.Renamed p' ∧ p.fields = exportedNames fields ∧
      p'.fields = exportedNames fields' := by
  obtain ⟨found, controls, filters, a, each, controlled, filtered, allocated, finished⟩ := compile_eq_ok_iff.mp compiled
  obtain rfl : found = fields :=
    List.right_unique_forall₂' (fun _ _ _ one other => Except.ok.inj (one.symm.trans other)) each prepared
  obtain ⟨a', allocated', same⟩ : ∃ a', Allocation.ofFields fields' controls = .ok a' ∧ a.unnamed = a'.unnamed := by
    have alike := Allocation.ofFields_unnamed found controls
    rw [trees, Allocation.ofFields_unnamed, allocated] at alike
    obtain ⟨a', held, same⟩ := Option.map_eq_some_iff.mp alike
    exact ⟨a', toOption_eq_some.mp held, same.symm⟩
  obtain ⟨p', finished'⟩ : ∃ p', a'.program limit filters = .ok p' := by
    rw [← Allocation.program_unnamed, ← same, Allocation.program_unnamed]
    exact ⟨p, finished⟩
  refine ⟨p', compile_eq_ok_iff.mpr ⟨fields', controls, filters, a', prepared', control ▸ controlled, filter ▸ filtered,
    allocated', finished'⟩, Program.renamed_of_nodes ?_ ?_ ?_, ?_, ?_⟩
  · rw [Allocation.program_nodes finished, Allocation.program_nodes finished']
    exact congrArg Allocation.nodes same
  · have controls := congrArg Allocation.controls same
    rwa [Allocation.program_controls finished, Allocation.program_controls finished']
  · rw [Allocation.program_exports finished, Allocation.program_exports finished']
    simpa [Allocation.unnamed, Export.unnamed, Function.comp_def] using
      congrArg (fun a => a.exports.map (·.register)) same
  · rw [Allocation.program_fields finished, Allocation.ofFields_names allocated]
  · rw [Allocation.program_fields finished', Allocation.ofFields_names allocated']

/-- A specification and the one with its composites spelled out compile alike, into programs that differ in the names of
fields only: the field of a composite is called after it. -/
theorem compile_spelledOut (spelled : s.spelledOut? catalog.composite? = some s') :
    ((∃ p, s.compile catalog limit = .ok p) ↔ ∃ p', s'.compile catalog limit = .ok p') ∧
      ∀ p p', s.compile catalog limit = .ok p → s'.compile catalog limit = .ok p' → p.Renamed p' ∧
        p'.fields.length = (s.features.filter (hasField catalog limit)).length ∧
        p.fields = List.zipWith (outerName catalog) (s.features.filter (hasField catalog limit)) p'.fields := by
  obtain ⟨partners, control, filter⟩ : List.Forall₂ (fun json spelled =>
      json.spelledOut? catalog.composite? Expression.maxExpansion = some spelled) s.features s'.features ∧
        s'.control = s.control ∧ s'.filter = s.filter := by
    obtain ⟨features, each, rfl⟩ := Option.map_eq_some_iff.mp spelled
    exact ⟨forall₂_of_mapM each, rfl, rfl⟩
  refine ⟨⟨?_, ?_⟩, ?_⟩
  · rintro ⟨p, compiled⟩
    obtain ⟨fields, -, -, -, prepared, -⟩ := compile_eq_ok_iff.mp compiled
    obtain ⟨fields', prepared', same⟩ := fields_spelledOut partners prepared
    obtain ⟨p', compiled', -⟩ := compile_renamed compiled prepared control filter prepared' same.trees
    exact ⟨p', compiled'⟩
  · rintro ⟨p', compiled'⟩
    obtain ⟨fields', -, -, -, prepared', -⟩ := compile_eq_ok_iff.mp compiled'
    obtain ⟨fields, prepared, same⟩ := fields_of_spelledOut partners prepared'
    obtain ⟨p, compiled, -⟩ := compile_renamed compiled' prepared' control.symm filter.symm prepared same.trees.symm
    exact ⟨p, compiled⟩
  · intro p p' compiled compiled'
    obtain ⟨fields, -, -, -, prepared, -⟩ := compile_eq_ok_iff.mp compiled
    obtain ⟨fields', prepared', same⟩ := fields_spelledOut partners prepared
    obtain ⟨found, compiled'', renamed, names, names'⟩ := compile_renamed compiled prepared control filter prepared' same.trees
    obtain rfl := Except.ok.inj (compiled''.symm.trans compiled')
    rw [names, names']
    exact ⟨renamed, same.count, same.names⟩

/-- A composite for a composite, a composite at the top, and composites in both notations as arguments. -/
def abbreviated : Specification := .ofFeatures
  [.string "shortest", .string "meanIpTotalLength",
    .array [.string "subtract", .string "forwardOctetCount", .array [.string "backwardOctetCount"]]]

def unabbreviated : Specification := .ofFeatures
  [Library.callOf ["min", "ipTotalLength"], Library.callOf ["mean", "ipTotalLength"],
    .array [.string "subtract", Library.callOf ["apply", "octetTotalCount", "forward"],
      Library.callOf ["apply", "octetTotalCount", "backward"]]]

def shortestCatalog : Catalog Library.Instance Library.PacketFilter :=
  { Library.catalog with composites := Library.composites ++ [⟨"shortest", .string "minimumIpTotalLength", none⟩] }

theorem compile_spelledOut_abbreviated : abbreviated.spelledOut? shortestCatalog.composite? = some unabbreviated ∧
    ∃ p p', abbreviated.compile shortestCatalog 4096 = .ok p ∧ unabbreviated.compile shortestCatalog 4096 = .ok p' ∧
      p.fields = ["shortest", "meanIpTotalLength", "subtract(apply(octetTotalCount,forward),apply(octetTotalCount,backward))"] ∧
      p.Renamed p' ∧ p'.fields.length = (abbreviated.features.filter (hasField shortestCatalog 4096)).length ∧
      p.fields = List.zipWith (outerName shortestCatalog) (abbreviated.features.filter (hasField shortestCatalog 4096)) p'.fields := by
  have spelled : abbreviated.spelledOut? shortestCatalog.composite? = some unabbreviated := rfl
  have facts : (abbreviated.compile shortestCatalog 4096).toOption.any (fun p => p.fields ==
      ["shortest", "meanIpTotalLength", "subtract(apply(octetTotalCount,forward),apply(octetTotalCount,backward))"]) = true := by
    decide +kernel
  obtain ⟨possible, same⟩ := @compile_spelledOut _ _ shortestCatalog 4096 _ _ spelled
  cases compiled : abbreviated.compile shortestCatalog 4096 with
  | error _ =>
    rw [compiled] at facts
    cases facts
  | ok p =>
    rw [compiled] at facts
    obtain ⟨p', compiled'⟩ := possible.mp ⟨p, compiled⟩
    exact ⟨spelled, p, p', rfl, compiled', eq_of_beq facts, same p p' compiled compiled'⟩

end Specification

end FlowMetering
