import FlowMetering.Forest
import FlowMetering.Proofs.ArenaBinding

/-! The stages of compilation in one arena. Features and controls stand at roots of their own and share no node, so a stage
that goes through them one after another finds each as it was, and does to it what it does to the tree by itself. -/

namespace FlowMetering

open Arena

variable {α β γ τ κ ρ ι σ φ : Type}

/-- An item of a stage, the root of its tree, and the numbers of the nodes of that tree. -/
structure Place (τ : Type) where
  item : τ
  root : Nat
  ids : List Nat

abbrev View (τ ρ ι : Type) := τ → Option (String × Option Element) × Tree ρ ι

def Place.plot (view : View τ ρ ι) (place : Place τ) : Plot ρ ι :=
  ⟨(view place.item).1, place.root, (view place.item).2, place.ids⟩

/-- Items stand in an arena, with no node in common. -/
structure Stand (reading : Reading ρ ι) (view : View τ ρ ι) (a : Arena) (roots : List Nat) (places : List (Place τ)) :
    Prop where
  roots : places.map (·.root) = roots
  each : ∀ place ∈ places, Holds reading a (place.plot view)
  distinct : (places.flatMap (·.ids)).Nodup

namespace Stand

variable {reading : Reading ρ ι} {view : View τ ρ ι} {a b : Arena} {roots ids ids' : List Nat} {places : List (Place τ)}

theorem inside (stand : Stand reading view a roots places) : ∀ id ∈ places.flatMap (·.ids), id < a.size := by
  intro id member
  obtain ⟨place, held, inside⟩ := List.mem_flatMap.mp member
  exact (stand.each place held).lt id inside

private theorem keeps (stand : Stand reading view a roots places) (changes : Changes a b ids ids')
    (disjoint : (places.flatMap (·.ids)).Disjoint ids) : Stand reading view b roots places := by
  refine ⟨stand.roots, fun place held => ?_, stand.distinct⟩
  have apart : place.ids.Disjoint ids := apart_of_mem held disjoint
  exact changes.keeps (stand.each place held) apart

theorem single (stand : Stand reading view a roots places) {place : Place τ} (held : place ∈ places) : place.ids.Nodup :=
  stand.distinct.sublist (sublist_flatMap held)

end Stand

/-- What a stage has left in an arena for its results. -/
structure Grown (reading : Reading ρ ι) (view : View τ ρ ι) (a : Arena) (ids : List Nat) (result : Arena × List Nat)
    (places : List (Place τ)) : Prop where
  stand : Stand reading view result.1 result.2 places
  changes : Changes a result.1 ids (places.flatMap (·.ids))

section Stage

variable {reading : Reading ρ ι} {view : View τ ρ ι} {step : Nat → Arena → α → Except Problem (Arena × Nat)}
  {f : β → Except Problem τ}

private theorem Arena.Simulates.located {related : γ → τ → Prop} {attempt : Except Problem γ} {attempt' : Except Problem τ}
    (simulates : Simulates related attempt attempt') (position : Nat) :
    Simulates related (Specification.located position attempt) (Specification.located position attempt') := by
  cases simulates with
  | ok results => exact .ok results
  | error problem => exact .error _

/-- A stage does for each item what it does to the tree by itself, provided that an item stays ready while other nodes
change. -/
private theorem eachFrom_simulates {item : γ → α} {source : γ → β} {ids : γ → List Nat} {ready : Arena → γ → Prop} {items : List γ}
    (inside : ∀ c ∈ items, ∀ a, ready a c → ∀ id ∈ ids c, id < a.size)
    (stable : ∀ c ∈ items, ∀ a b others others', ready a c → Changes a b others others' → (ids c).Disjoint others → ready b c)
    (steps : ∀ c ∈ items, ∀ a position, ready a c →
      Simulates (fun result t => ∃ ids', Becomes reading a result.1 (ids c) ⟨(view t).1, result.2, (view t).2, ids'⟩)
        (step position a (item c)) (f (source c)))
    {a : Arena} (each : ∀ c ∈ items, ready a c) (distinct : (items.flatMap ids).Nodup) (position : Nat) :
    Simulates (fun result ts => ∃ places, places.map (·.item) = ts ∧ Grown reading view a (items.flatMap ids) result places)
      (Forest.eachFrom step (position + 1) a (items.map item))
      (((items.map source).zipIdx position).mapM fun (b, i) => Specification.located (i + 1) (f b)) := by
  induction items generalizing a position with
  | nil => exact .ok ⟨[], rfl, ⟨rfl, List.forall_mem_nil _, .nil⟩, .refl (List.forall_mem_nil _) .nil⟩
  | cons c items ih =>
    rw [List.forall_mem_cons] at inside stable steps each
    rw [List.flatMap_cons, List.nodup_append'] at distinct
    obtain ⟨-, others, disjoint⟩ := distinct
    simp only [List.map_cons, List.zipIdx_cons, List.mapM_cons, Forest.eachFrom]
    refine ((steps.1 a (position + 1) each.1).located (position + 1)).bind ?_
    rintro ⟨b, root⟩ t ⟨ids', holds, changes⟩
    have apart : ∀ other ∈ items, (ids other).Disjoint (ids c) := fun other held =>
      apart_of_mem held (List.disjoint_symm disjoint)
    have ready' : ∀ other ∈ items, ready b other := fun other held =>
      stable.2 other held a b _ _ (each.2 other held) changes (apart other held)
    refine (ih inside.2 stable.2 steps.2 ready' others (position + 1)).bind ?_
    rintro ⟨d, roots⟩ ts ⟨places, rfl, stand, changed⟩
    have outside : ∀ id ∈ items.flatMap ids, id < a.size := fun id member => by
      obtain ⟨other, held, below⟩ := List.mem_flatMap.mp member
      exact inside.2 other held a (each.2 other held) id below
    have added := changes.append changed outside (List.disjoint_symm disjoint)
    refine .ok ⟨⟨t, root, ids'⟩ :: places, rfl, ⟨?_, List.forall_mem_cons.mpr ⟨?_, stand.each⟩, added.distinct⟩, added⟩
    · rw [List.map_cons, stand.roots]
    · exact changed.keeps holds (List.disjoint_symm (changes.apart outside (List.disjoint_symm disjoint)))

private theorem Stand.eachFrom {ρ' ι' τ' : Type} {reading' : Reading ρ' ι'} {view' : View τ' ρ' ι'} {f : τ → Except Problem τ'}
    {step : Nat → Arena → Nat → Except Problem (Arena × Nat)}
    {a : Arena} {roots : List Nat} {places : List (Place τ)} (stand : Stand reading view a roots places)
    (steps : ∀ place ∈ places, ∀ a position, Holds reading a (place.plot view) →
      Simulates (fun result t => ∃ ids', Becomes reading' a result.1 place.ids ⟨(view' t).1, result.2, (view' t).2, ids'⟩)
        (step position a place.root) (f place.item)) :
    Simulates (fun result ts => ∃ places', places'.map (·.item) = ts ∧
        Grown reading' view' a (places.flatMap (·.ids)) result places')
      (Forest.eachFrom step 1 a roots) (Specification.stage f (places.map (·.item))) := by
  obtain ⟨rfl, each, distinct⟩ := stand
  refine eachFrom_simulates ?_ ?_ steps each distinct 0
  · exact fun place _ a holds => holds.lt
  · exact fun place _ a b others others' holds changes disjoint => changes.keeps holds disjoint

private theorem add_eachFrom (view : View τ Unit String) (items : List τ) (plain : ∀ item, (view item).1 = none) (a : Arena) :
    ∃ result places, Forest.eachFrom (fun position a item => .ok (a.add position (view item).2)) 1 a items = .ok result ∧
      places.map (·.item) = items ∧ Grown plainReading view a [] result places := by
  have vacant : (items.flatMap fun _ => ([] : List Nat)) = [] := List.flatMap_eq_nil_iff.mpr fun _ _ => rfl
  have added : Simulates (fun result ts => ∃ places, places.map (·.item) = ts ∧
        Grown plainReading view a (items.flatMap fun _ => []) result places)
      (Forest.eachFrom (fun position a item => .ok (a.add position (view item).2)) 1 a (items.map id))
      (Specification.stage (fun item => .ok item) (items.map id)) := by
    let ready : Arena → τ → Prop := fun _ _ => True
    have each : ∀ item ∈ items, ready a item := fun _ _ => trivial
    refine eachFrom_simulates ?_ ?_ ?_ each (by rw [vacant]; exact .nil) 0
    · exact fun _ _ _ _ _ member => absurd member List.not_mem_nil
    · exact fun _ _ _ _ _ _ ready _ _ => ready
    · intro item _ a position _
      refine .ok ?_
      rw [id, plain item]
      exact add_becomes position (view item).2 a
  rw [List.map_id, Specification.stage_eq_ok.mpr (List.forall₂_same.mpr fun _ _ => rfl)] at added
  generalize Forest.eachFrom _ 1 a items = attempt at added
  cases added with
  | @ok result _ results =>
    obtain ⟨places, same, grown⟩ := results
    exact ⟨result, places, rfl, same, vacant ▸ grown⟩

end Stage

/-- What stands in a forest. Features and controls have no node in common either. -/
structure Forest.Stands {ρ' ι' : Type} (reading : Reading ρ ι) (view : View τ ρ ι) (reading' : Reading ρ' ι')
    (view' : View κ ρ' ι') (forest : Forest) (features : List (Place τ)) (controls : List (Place κ)) : Prop where
  rooted : Stand reading view forest.arena forest.roots features
  controlled : Stand reading' view' forest.arena forest.controls controls
  apart : (features.flatMap (·.ids)).Disjoint (controls.flatMap (·.ids))

namespace Forest.Stands

variable {ρ' ι' ρ₂ ι₂ τ₂ : Type} {reading : Reading ρ ι} {view : View τ ρ ι} {reading' : Reading ρ' ι'} {view' : View κ ρ' ι'}
  {reading₂ : Reading ρ₂ ι₂} {view₂ : View τ₂ ρ₂ ι₂} {forest : Forest} {features : List (Place τ)} {controls : List (Place κ)}
  {result : Arena × List Nat} {places : List (Place τ₂)}

/-- What is done to the features leaves the controls where they are. -/
theorem grow (stands : Stands reading view reading' view' forest features controls)
    (grown : Grown reading₂ view₂ forest.arena (features.flatMap (·.ids)) result places) :
    Stands reading₂ view₂ reading' view' ⟨result.1, result.2, forest.controls⟩ places controls where
  rooted := grown.stand
  controlled := stands.controlled.keeps grown.changes (List.disjoint_symm stands.apart)
  apart := List.disjoint_symm (grown.changes.apart stands.controlled.inside (List.disjoint_symm stands.apart))

private theorem growControls (stands : Stands reading view reading' view' forest features controls)
    (grown : Grown reading₂ view₂ forest.arena (controls.flatMap (·.ids)) result places) :
    Stands reading view reading₂ view₂ ⟨result.1, forest.roots, result.2⟩ features places where
  rooted := stands.rooted.keeps grown.changes stands.apart
  controlled := grown.stand
  apart := grown.changes.apart stands.rooted.inside stands.apart

end Forest.Stands

def expressionView : View Expression Unit String := fun e => (none, e)

def nameView : View String Unit String := fun name => (none, .call name [.raw ()])

def fieldView : View (Field (Tree ρ ι)) ρ ι := fun field => (some (field.name, field.declared), field.tree)

def controlView : View (Registered σ) Kind (Binding σ) := fun control => (none, controlTree control)

abbrev Forest.BoundStands (catalog : Catalog σ φ) :
    Forest → List (Place (Field (Bound σ))) → List (Place (Registered σ)) → Prop :=
  Stands (boundReading catalog) fieldView (boundReading catalog) controlView

namespace Specification

def boundField (catalog : Catalog σ φ) (field : Field Expression) : Except Problem (Field (Bound σ)) :=
  (Bound.ofExpression catalog .flowFeature field.tree).map fun bound => ⟨field.name, field.declared, bound⟩

/-- The fields and controls of a specification as they come from binding. -/
def bound (catalog : Catalog σ φ) (s : Specification) : Except CompileError (List (Field (Bound σ)) × List (Registered σ)) := do
  let expressions ← stage Expression.ofJson s.features
  let names ← stage controlName s.control
  let expanded ← stage (Field.ofExpression catalog.composite?) expressions
  let fields ← stage (boundField catalog) expanded
  let controls ← stage (boundControl catalog) names
  return (fields, controls)

end Specification

namespace Forest

variable {catalog : Catalog σ φ}

theorem plant_stands (expressions : List Expression) (names : List String) :
    ∃ forest features controls, plant expressions names = .ok forest ∧ features.map (·.item) = expressions ∧
      controls.map (·.item) = names ∧ forest.Stands plainReading expressionView plainReading nameView features controls := by
  obtain ⟨⟨a, roots⟩, features, added, items, stand, changes⟩ := add_eachFrom expressionView expressions (fun _ => rfl) .empty
  obtain ⟨⟨b, controlRoots⟩, controls, added', names, stand', changes'⟩ := add_eachFrom nameView names (fun _ => rfl) a
  refine ⟨⟨b, roots, controlRoots⟩, features, controls, ?_, items, names, ?_⟩
  · exact bind_eq_ok.mpr ⟨_, added, bind_eq_ok.mpr ⟨_, added', rfl⟩⟩
  · exact ⟨stand.keeps changes' (List.disjoint_nil_right _), stand', changes'.apart stand.inside (List.disjoint_nil_right _)⟩

theorem expand_simulates {composite? : String → Option Composite} {forest : Forest} {features : List (Place Expression)}
    {controls : List (Place String)}
    (stands : forest.Stands plainReading expressionView plainReading nameView features controls) :
    Simulates (fun forest' fields => ∃ features', features'.map (·.item) = fields ∧
        forest'.Stands plainReading fieldView plainReading nameView features' controls)
      (forest.expand composite?) (Specification.stage (Field.ofExpression composite?) (features.map (·.item))) := by
  have looped : Simulates (fun result fields => ∃ places, places.map (·.item) = fields ∧
        Grown plainReading fieldView forest.arena (features.flatMap (·.ids)) result places)
      (eachFrom (fun _ => Arena.expandRoot composite?) 1 forest.arena forest.roots)
      (Specification.stage (Field.ofExpression composite?) (features.map (·.item))) :=
    stands.rooted.eachFrom fun place held a position holds => expandRoot_simulates holds (stands.rooted.single held) rfl
  rw [expand, ← bind_pure (Specification.stage _ _)]
  refine looped.bind ?_
  rintro result fields ⟨places, same, grown⟩
  exact .ok ⟨places, same, stands.grow grown⟩

theorem bind_simulates {forest : Forest} {features : List (Place (Field Expression))} {controls : List (Place String)}
    (stands : forest.Stands plainReading fieldView plainReading nameView features controls) :
    Simulates (fun forest' bound => ∃ features' controls', features'.map (·.item) = bound.1 ∧ controls'.map (·.item) = bound.2 ∧
        BoundStands catalog forest' features' controls')
      (forest.bind catalog) (do
        let fields ← Specification.stage (Specification.boundField catalog) (features.map (·.item))
        let controls ← Specification.stage (Specification.boundControl catalog) (controls.map (·.item))
        return (fields, controls)) := by
  have looped : Simulates (fun result fields => ∃ places, places.map (·.item) = fields ∧
        Grown (boundReading catalog) fieldView forest.arena (features.flatMap (·.ids)) result places)
      (eachFrom (fun _ => Arena.bindRoot catalog) 1 forest.arena forest.roots)
      (Specification.stage (Specification.boundField catalog) (features.map (·.item))) := by
    refine stands.rooted.eachFrom fun place held a position holds => ?_
    rw [← bind_pure (Arena.bindRoot _ _ _)]
    refine (bindRoot_simulates holds (stands.rooted.single held)).map ?_
    exact fun result tree becomes => .ok ⟨place.ids, becomes⟩
  refine looped.bind ?_
  rintro result fields ⟨places, rfl, grown⟩
  have stands' := stands.grow grown
  have looped' : Simulates (fun result' controls' => ∃ places, places.map (·.item) = controls' ∧
        Grown (boundReading catalog) controlView result.1 (controls.flatMap (·.ids)) result' places)
      (eachFrom (fun _ => Arena.bindControl catalog) 1 result.1 forest.controls)
      (Specification.stage (Specification.boundControl catalog) (controls.map (·.item))) := by
    refine stands'.controlled.eachFrom fun place held a position holds => ?_
    refine (bindControl_simulates holds (stands'.controlled.single held) rfl).imp ?_
    exact fun result control becomes => ⟨place.ids, becomes⟩
  refine looped'.bind ?_
  rintro result' controls' ⟨places', rfl, grown'⟩
  exact .ok ⟨places, places', rfl, rfl, stands'.growControls grown'⟩

/-- A specification that is accepted in one arena is accepted feature by feature, and stands in the arena as it is bound; one
that is refused is refused for the same reason. -/
theorem ofSpecification_simulates (catalog : Catalog σ φ) (s : Specification) :
    Simulates (fun forest bound => ∃ features controls, features.map (·.item) = bound.1 ∧ controls.map (·.item) = bound.2 ∧
        BoundStands catalog forest features controls)
      (ofSpecification catalog s) (s.bound catalog) := by
  rw [ofSpecification, Specification.bound]
  cases Specification.stage Expression.ofJson s.features with
  | error problem => exact .error problem
  | ok expressions =>
    cases Specification.stage Specification.controlName s.control with
    | error problem => exact .error problem
    | ok names =>
      obtain ⟨forest, features, controls, planted, items, items', stands⟩ := plant_stands expressions names
      show Simulates _ (plant expressions names >>= _) _
      rw [planted]
      subst items items'
      refine (expand_simulates stands).bind ?_
      rintro expanded fields ⟨places, rfl, stands'⟩
      exact bind_simulates stands'

end Forest

end FlowMetering
