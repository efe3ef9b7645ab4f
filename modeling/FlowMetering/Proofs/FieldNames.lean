import FlowMetering.Proofs.CompiledFeatures
import FlowMetering.Proofs.ExportLookup
import FlowMetering.Proofs.ReadableTexts
import FlowMetering.Proofs.SelectedTemplates

/-! Names of exported fields. A field is called after its feature, so two exports have one name exactly if their features are
spelled alike, and differ in nothing but the types of constants. -/

namespace FlowMetering

def Specification.unfolded? (s : Specification) (i : Nat) : Option Expression :=
  s.features[i]?.bind fun json => (Expression.ofJson json).toOption.map Library.unfolded

namespace Library

private theorem entries_sound : ∀ entry ∈ entries, IsName entry.name ∧ entry.argumentKinds 0 = none := by
  decide +kernel

private theorem composites_sound : ∀ composite ∈ composites, IsName composite.name ∧
    composite.name ∉ entries.map (·.name) := by
  decide +kernel

variable {limit : Nat} {s : Specification} {p : Program Instance PacketFilter} {e f : Expression}

private theorem legible_of_takes (written : e.Written) {kind : Kind} {bound : Bound Instance} (takes : Takes kind e bound) :
    e.Legible := by
  induction e using Tree.induct generalizing kind bound with
  | raw mark => cases written
  | constant value => exact .constant written.scalar.value
  | call name args ih =>
    obtain ⟨candidate, found, bounds, each, -⟩ := Bound.ofExpression_call takes
    obtain ⟨entered, rfl, ⟨kinds, asked⟩, -⟩ := Catalog.mem_find found
    obtain ⟨named, some⟩ := entries_sound _ entered
    rcases written.args with rfl | written
    · exact .name named
    cases args with
    | nil => cases some.symm.trans asked
    | cons arg args =>
      refine .call named fun arg' member => ?_
      rw [asked] at each
      have count : (kinds.map (Bound.argumentKind kind)).length = (arg :: args).length :=
        (List.length_map _).trans (Bound.argumentKinds_length asked)
      obtain ⟨kind', paired⟩ := exists_zip_left count member
      obtain ⟨bound', -, takes'⟩ := forall₂_mem_left (Bound.ofExpressions_eq_ok each) paired
      exact ih arg' member (written arg' member) takes'

def called? : Expression → Option Composite
  | .call name _ => catalog.composite? name
  | _ => none

def title (e : Expression) : String :=
  match called? e with
  | some composite => composite.name
  | none => (unfolded e).text

/-- A feature, the expression that is compiled for it, and its field. -/
structure Fielded (limit : Nat) (json : Json) (e : Expression) (field : Field (Typed Instance)) : Prop where
  read : Expression.ofJson json = .ok e
  bound : ∃ bound, Takes .flowFeature (unfolded e) bound
  typed : Specification.typedExpression catalog limit (unfolded e) = .ok field.tree
  title : field.name = title e

private theorem name_of_unfolds {field : Field Expression} (unfolds : Field.ofExpression catalog.composite? e = .ok field) :
    field.name = title e := by
  have same := field_unfolded unfolds
  cases e with
  | raw mark | constant value =>
    cases unfolds
    rfl
  | call name args =>
    obtain ⟨result, -, rfl⟩ := Json.ofExpression_call.mp unfolds
    rw [title, called?]
    cases found : catalog.composite? name with
    | some composite => rfl
    | none =>
      rw [found] at same
      exact congrArg Expression.text same

private theorem fielded_of_prepared {json : Json} {field : Field (Typed Instance)}
    (prepared : Specification.prepareField catalog limit json = .ok field) : ∃ e, Fielded limit json e field := by
  obtain ⟨bound, ⟨expanded, ⟨e, read, unfolds⟩, binds⟩, types⟩ := Specification.prepareField_eq_ok.mp prepared
  obtain ⟨tree, takes, binds⟩ := bind_eq_ok.mp binds
  obtain ⟨typed, resolved, types⟩ := bind_eq_ok.mp types
  cases binds
  cases types
  rw [field_unfolded unfolds] at takes
  exact ⟨e, read, ⟨tree, takes⟩, bind_eq_ok.mpr ⟨tree, takes, resolved⟩, name_of_unfolds unfolds⟩

namespace Fielded

variable {json json' : Json} {field field' : Field (Typed Instance)}

private theorem legible (fielded : Fielded limit json e field) : (unfolded e).Legible := by
  obtain ⟨bound, takes⟩ := fielded.bound
  exact legible_of_takes (written_unfolded (Expression.written_ofJson json e fielded.read)) takes

private theorem not_raw (fielded : Fielded limit json e field) : field.tree.isRaw = false := by
  obtain ⟨bound, takes, resolved⟩ := bind_eq_ok.mp fielded.typed
  have written := written_unfolded (Expression.written_ofJson json e fielded.read)
  have suits := (settled_regular written (by decide) takes).2
  have erased : field.tree.erase = Bound.settled bound := Typed.erase_ofBound resolved
  rw [← erased] at suits
  generalize field.tree = tree at suits
  cases tree with
  | raw mark => exact suits.elim
  | constant value | call typing args => rfl

private theorem tree_eq (fielded : Fielded limit json e field) (fielded' : Fielded limit json' f field')
    (same : unfolded e = unfolded f) : field.tree = field'.tree := by
  have typed := fielded.typed
  rw [same, fielded'.typed] at typed
  exact (Except.ok.inj typed).symm

end Fielded

private theorem definition_of_names : ∀ composite ∈ composites, ∃ (head : String) (names : List String),
    Expression.ofJson composite.definition = .ok (.call head (names.map fun name => .call name [.raw ()])) := by
  simp only [composites, List.forall_mem_cons]
  exact ⟨⟨_, ["ipTotalLength"], rfl⟩, ⟨_, ["ipTotalLength"], rfl⟩, ⟨_, ["ipTotalLength"], rfl⟩,
    ⟨_, ["octetTotalCount", "forward"], rfl⟩, ⟨_, ["octetTotalCount", "backward"], rfl⟩, List.forall_mem_nil _⟩

private theorem unfolded_of_called {composite : Composite} (called : called? e = some composite) :
    composite ∈ composites ∧ definition? composite.name = some (unfolded e) ∧
      Tree.All (fun _ => False) (fun _ => True) (unfolded e) := by
  cases e with
  | raw | constant => cases called
  | call name args =>
    have searched : composites.find? (·.name == name) = some composite := called
    have member := List.mem_of_find?_eq_some searched
    have named := List.find?_some searched
    obtain rfl := beq_iff_eq.mp named
    obtain ⟨head, names, read⟩ := definition_of_names composite member
    have defined : definition? composite.name = some (.call head (names.map fun name => .call name [.raw ()])) := by
      rw [definition?, show catalog.composite? composite.name = some composite from searched, Option.bind_some, read]
      rfl
    rw [unfolded, defined]
    refine ⟨member, rfl, .call trivial (List.forall_mem_map.mpr fun name _ => ?_)⟩
    exact .call trivial (List.forall_mem_singleton.mpr (.raw ()))

private theorem name_ne_text {composite : Composite} (member : composite ∈ composites) {kind : Kind} {bound : Bound Instance}
    (takes : Takes kind e bound) (legible : e.Legible) : composite.name ≠ e.text := by
  obtain ⟨named, apart⟩ := composites_sound composite member
  intro same
  have alone : Expression.Legible (.call composite.name [.raw ()]) := .name named
  have spelled := (alone.text_eq_iff legible).mp same
  have constantless : Tree.All (fun _ => False) (fun _ => True) (.call composite.name [.raw ()] : Expression) :=
    .call trivial (List.forall_mem_singleton.mpr (.raw ()))
  obtain rfl := spelled.eq_of_constantless constantless
  obtain ⟨candidate, found, -⟩ := Bound.ofExpression_call takes
  obtain ⟨entered, called, -⟩ := Catalog.mem_find found
  exact apart (List.mem_map.mpr ⟨_, entered, called⟩)

namespace Fielded

variable {json json' : Json} {field field' : Field (Typed Instance)}

private theorem apart_of_called (fielded' : Fielded limit json' f field') (differ : unfolded e ≠ unfolded f) {composite : Composite}
    (called : called? e = some composite) :
    Library.title e ≠ Library.title f ∧ ¬ Expression.Homograph (unfolded e) (unfolded f) := by
  obtain ⟨member, defined, constantless⟩ := unfolded_of_called called
  refine ⟨?_, fun spelled => differ (spelled.eq_of_constantless constantless)⟩
  rw [Library.title, Library.title, called]
  cases called' : called? f with
  | some composite' =>
    obtain ⟨-, defined', -⟩ := unfolded_of_called called'
    intro same
    dsimp only at same
    rw [same, defined'] at defined
    exact differ (Option.some.inj defined).symm
  | none =>
    obtain ⟨bound, takes⟩ := fielded'.bound
    exact name_ne_text member takes fielded'.legible

private theorem title_eq_iff (fielded : Fielded limit json e field) (fielded' : Fielded limit json' f field')
    (differ : unfolded e ≠ unfolded f) :
    Library.title e = Library.title f ↔ Expression.Homograph (unfolded e) (unfolded f) := by
  cases called : called? e with
  | some composite => exact iff_of_false (fielded'.apart_of_called differ called).1 (fielded'.apart_of_called differ called).2
  | none =>
    cases called' : called? f with
    | some composite =>
      obtain ⟨names, spellings⟩ := fielded.apart_of_called differ.symm called'
      exact iff_of_false names.symm fun spelled => spellings spelled.symm
    | none =>
      rw [Library.title, Library.title, called, called']
      exact fielded.legible.text_eq_iff fielded'.legible

end Fielded

private theorem unrepeated_fields (stages : Specification.Stages catalog limit s p) {i : Nat} {field : Field (Typed Instance)}
    (held : stages.typed[i]? = some field) : ¬ Allocation.Repeats (stages.typed.take i) field := by
  rcases Allocation.ofFields_cases stages.wellTyped stages.controls with ⟨a, -, -, fresh⟩ | ⟨i, field, -, -, -, failed⟩
  · exact fresh i field held
  · cases failed.symm.trans stages.allocated

private theorem unfolded_apart (stages : Specification.Stages catalog limit s p) {i j : Nat} (other : i ≠ j) {json json' : Json}
    {field field' : Field (Typed Instance)} (held : stages.typed[i]? = some field) (held' : stages.typed[j]? = some field')
    (fielded : Fielded limit json e field) (fielded' : Fielded limit json' f field') : unfolded e ≠ unfolded f := by
  have apart {i j : Nat} {field field' : Field (Typed Instance)} (before : i < j) (held : stages.typed[i]? = some field)
      (held' : stages.typed[j]? = some field') (shown : field'.tree.isRaw = false) : field.tree ≠ field'.tree := by
    intro same
    refine unrepeated_fields stages held' ⟨shown, field, ?_, congrArg Typed.shape same⟩
    exact List.mem_of_getElem? (List.getElem?_take_of_lt before ▸ held)
  intro same
  rcases Nat.lt_or_gt_of_ne other with before | behind
  · exact apart before held held' fielded'.not_raw (fielded.tree_eq fielded' same)
  · exact apart behind held' held fielded.not_raw (fielded'.tree_eq fielded same.symm)

private theorem fields_titled (stages : Specification.Stages catalog limit s p) :
    p.fields = stages.typed.map (·.name) ∧ List.Forall₂ (fun json field => ∃ e, Fielded limit json e field) s.features stages.typed := by
  have each := stages.prepared.imp fun json field => fielded_of_prepared
  have all : stages.typed.filter (!·.tree.isRaw) = stages.typed := by
    refine List.filter_eq_self.mpr fun field member => ?_
    obtain ⟨json, -, e, fielded⟩ := forall₂_mem_right each member
    rw [fielded.not_raw]
    rfl
  exact ⟨all ▸ stages.fields_eq, each⟩

private theorem fielded_of_unfolded? (stages : Specification.Stages catalog limit s p) {i : Nat} (found : s.unfolded? i = some f) :
    ∃ json e field, stages.typed[i]? = some field ∧ Fielded limit json e field ∧ unfolded e = f ∧
      p.fields[i]? = some (title e) := by
  obtain ⟨fields, each⟩ := fields_titled stages
  obtain ⟨json, held, found⟩ := Option.bind_eq_some_iff.mp found
  obtain ⟨e, read, rfl⟩ := Option.map_eq_some_iff.mp found
  have inside := each.length_eq ▸ (List.getElem?_eq_some_iff.mp held).1
  obtain ⟨json', held', e', fielded⟩ := forall₂_getElem?_right each (List.getElem?_eq_getElem inside)
  cases held.symm.trans held'
  rw [fielded.read] at read
  obtain rfl := Option.some.inj read
  refine ⟨json, e', _, List.getElem?_eq_getElem inside, fielded, rfl, ?_⟩
  rw [fields, List.getElem?_map, List.getElem?_eq_getElem inside, ← fielded.title]
  rfl

private theorem exists_unfolded? (stages : Specification.Stages catalog limit s p) {i : Nat} {name : String}
    (called : p.fields[i]? = some name) : ∃ f, s.unfolded? i = some f := by
  obtain ⟨fields, each⟩ := fields_titled stages
  rw [fields, List.getElem?_map] at called
  obtain ⟨field, held, -⟩ := Option.map_eq_some_iff.mp called
  obtain ⟨json, found, e, fielded⟩ := forall₂_getElem?_right each held
  refine ⟨unfolded e, ?_⟩
  rw [Specification.unfolded?, found, Option.bind_some, fielded.read]
  rfl

/-- Names tell exports apart up to the types of constants. The features of a specification that compiles are all different once
composites are unfolded. Two exports have one name exactly if their features have one spelling, which is to say that they
differ in constants of different types with the same text. A name leads back to its export exactly if no earlier feature
has the spelling. -/
theorem names_tell_exports (compiled : s.compile catalog limit = .ok p) :
    p.fields.length = s.features.length ∧ p.exports.length = s.features.length ∧
    ∀ (i : Nat) name r, p.fields[i]? = some name → p.exports[i]? = some r → ∃ e, s.unfolded? i = some e ∧
      (∀ j f, j ≠ i → s.unfolded? j = some f → e ≠ f ∧ (p.fields[j]? = some name ↔ e.Homograph f)) ∧
      (p.exportRegister? name = some r ↔ ∀ j f, j < i → s.unfolded? j = some f → ¬ e.Homograph f) := by
  obtain ⟨stages⟩ := Specification.compile_stages compiled
  obtain ⟨fields, each⟩ := fields_titled stages
  have length : p.fields.length = s.features.length := by rw [fields, List.length_map, each.length_eq]
  refine ⟨length, stages.length_exports.trans length, fun i name r called exported => ?_⟩
  obtain ⟨f, found⟩ := exists_unfolded? stages called
  obtain ⟨json, e, field, held, fielded, rfl, own⟩ := fielded_of_unfolded? stages found
  obtain rfl := Option.some.inj (own.symm.trans called)
  have told : ∀ j f, j ≠ i → s.unfolded? j = some f →
      unfolded e ≠ f ∧ (p.fields[j]? = some (title e) ↔ (unfolded e).Homograph f) := by
    intro j f other found'
    obtain ⟨json', e', field', held', fielded', rfl, own'⟩ := fielded_of_unfolded? stages found'
    have differ := unfolded_apart stages other.symm held held' fielded fielded'
    refine ⟨differ, ?_⟩
    rw [own', Option.some.injEq, ← fielded.title_eq_iff fielded' differ]
    exact eq_comm
  refine ⟨_, found, told, ?_⟩
  rw [stages.exportRegister?_own_iff exported called]
  constructor
  · exact fun before j f earlier found' spelled =>
      before j earlier ((told j f (Nat.ne_of_lt earlier) found').2.mpr spelled)
  · intro before j earlier called'
    obtain ⟨f, found'⟩ := exists_unfolded? stages called'
    exact before j f earlier found' ((told j f (Nat.ne_of_lt earlier) found').2.mp called')

/-- One product with a whole number and with a double, and a composite. -/
def products : Specification := .ofFeatures
  [.array [.string "multiply", .string "packetTotalCount", .number (.natural 1)],
    .array [.string "multiply", .string "packetTotalCount", .number (.double 1.0)], .string "forwardOctetCount"]

theorem names_tell_exports_composite : ∃ p r, products.compile catalog 4096 = .ok p ∧
    p.fields[2]? = some "forwardOctetCount" ∧ p.exports[2]? = some r ∧ p.exportRegister? "forwardOctetCount" = some r := by
  have facts : ∃ p, products.compile catalog 4096 = .ok p ∧
      p.fields = ["multiply(packetTotalCount,1)", "multiply(packetTotalCount,1)", "forwardOctetCount"] ∧
      p.exports[2]?.isSome = true := ok_of_any (by decide +kernel)
  obtain ⟨p, compiled, fields, third⟩ := facts
  obtain ⟨r, exported⟩ := Option.isSome_iff_exists.mp third
  have called : p.fields[2]? = some "forwardOctetCount" := by rw [fields]; rfl
  obtain ⟨e, -, told, found⟩ := (names_tell_exports compiled).2.2 2 _ r called exported
  refine ⟨p, r, compiled, called, exported, found.mpr fun j f earlier unfolds spelled => ?_⟩
  have again := (told j f (Nat.ne_of_lt earlier) unfolds).2.mpr spelled
  rw [fields] at again
  match j, earlier with
  | 0, _ | 1, _ => exact absurd again (by decide)

/-- Two exports have one name, which leads to the first of them alone. -/
theorem products_share_name : ∃ p, products.compile catalog 4096 = .ok p ∧
    p.fields[0]? = some "multiply(packetTotalCount,1)" ∧ p.fields[1]? = some "multiply(packetTotalCount,1)" ∧
    p.exports[0]? ≠ p.exports[1]? ∧ p.exportRegister? "multiply(packetTotalCount,1)" = p.exports[0]? :=
  ok_of_any (by decide +kernel)

end Library

end FlowMetering
