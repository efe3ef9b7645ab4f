import FlowMetering.Library.Catalog
import FlowMetering.Proofs.ForestStages

/-! The rewriting of a specification in one arena. After binding, the implicit inputs are added and the features lowered one
by one; each time the forest shows the trees that the rewriting of trees gives for the feature at hand, and the other features
and the controls as they were. -/

namespace FlowMetering

open Arena

variable {τ τ' σ φ : Type}

def Field.map (f : τ → τ') (field : Field τ) : Field τ' :=
  ⟨field.name, field.declared, f field.tree⟩

namespace Stand

variable {ρ ι : Type} {reading : Reading ρ ι} {view : View τ ρ ι} {a : Arena} {roots : List Nat} {places : List (Place τ)}

theorem postOrder (stand : Stand reading view a roots places) {place : Place τ} (held : place ∈ places) :
    a.postOrder place.root = place.ids :=
  postOrderTo_eq (stand.each place held) ((stand.each place held).length_le (stand.single held))

theorem flatMap_postOrder (stand : Stand reading view a roots places) : roots.flatMap a.postOrder = places.flatMap (·.ids) := by
  rw [← stand.roots, List.flatMap_map]
  exact List.flatMap_congr fun place held => stand.postOrder held

private theorem map_exported (stand : Stand reading view a roots places) :
    roots.map a.exported? = places.map fun place => (view place.item).1 := by
  rw [← stand.roots, List.map_map]
  exact List.map_congr_left fun place held => (stand.each place held).exported_root

private theorem unexported (stand : Stand reading view a roots places) {root id : Nat} (held : root ∈ roots)
    (member : id ∈ a.postOrder root) : id = root ∨ a.exported? id = none := by
  rw [← stand.roots] at held
  obtain ⟨place, inside, rfl⟩ := List.mem_map.mp held
  rw [stand.postOrder inside] at member
  obtain ⟨n, found, -, hidden⟩ := (stand.each place inside).node id member
  rw [exported?, found, Option.bind_some]
  exact hidden

private theorem map_tree {catalog : Catalog σ φ} {view : View τ Kind (Binding σ)}
    (stand : Stand (boundReading catalog) view a roots places) :
    roots.map (a.tree? catalog) = places.map fun place => some (view place.item).2 := by
  rw [← stand.roots, List.map_map]
  exact List.map_congr_left fun place held => tree?_eq (stand.each place held) (stand.single held)

end Stand

namespace Forest

variable {catalog : Catalog σ φ} {forest : Forest} {features before after : List (Place (Field (Bound σ)))}
  {controls : List (Place (Registered σ))} {place : Place (Field (Bound σ))}

private theorem BoundStands.replace (stands : BoundStands catalog forest (before ++ place :: after) controls) {a : Arena}
    {place' : Place (Field (Bound σ))}
    (becomes : Becomes (boundReading catalog) forest.arena a place.ids (place'.plot fieldView)) :
    BoundStands catalog ⟨a, (before ++ place' :: after).map (·.root), forest.controls⟩ (before ++ place' :: after)
      controls := by
  have distinct := stands.rooted.distinct
  have inside := stands.rooted.inside
  rw [List.flatMap_append, List.flatMap_cons] at distinct inside
  rw [List.forall_mem_append, List.forall_mem_append] at inside
  obtain ⟨first, rest, outer⟩ := List.nodup_append'.mp distinct
  obtain ⟨-, last, inner⟩ := List.nodup_append'.mp rest
  have beyond : Changes forest.arena a (place.ids ++ after.flatMap (·.ids)) (place'.ids ++ after.flatMap (·.ids)) :=
    becomes.changes.append (.refl (fun id member => Nat.lt_of_lt_of_le (inside.2.2 id member) becomes.changes.size) last)
      inside.2.2 (List.disjoint_symm inner)
  have changes := (Changes.refl inside.1 first).append beyond (List.forall_mem_append.mpr inside.2) (List.disjoint_symm outer)
  have kept {other : Place (Field (Bound σ))} (held : other ∈ before ++ after) :
      Holds (boundReading catalog) a (other.plot fieldView) := by
    have apart : ((before ++ after).flatMap (·.ids)).Disjoint place.ids := by
      rw [List.flatMap_append]
      exact List.disjoint_append_left.mpr ⟨(List.disjoint_append_right.mp outer).1, List.disjoint_symm inner⟩
    have own : other.ids.Disjoint place.ids := apart_of_mem held apart
    refine becomes.changes.keeps (stands.rooted.each other ?_) own
    exact List.mem_append.mpr ((List.mem_append.mp held).imp_right (List.mem_cons_of_mem _))
  have grown : Grown (boundReading catalog) fieldView forest.arena ((before ++ place :: after).flatMap (·.ids))
      (a, (before ++ place' :: after).map (·.root)) (before ++ place' :: after) := by
    refine ⟨⟨rfl, List.forall_mem_append.mpr ⟨fun other held => kept (List.mem_append_left _ held),
      List.forall_mem_cons.mpr ⟨becomes.holds, fun other held => kept (List.mem_append_right _ held)⟩⟩, ?_⟩, ?_⟩
    · simpa using changes.distinct
    · simpa using changes
  exact stands.grow grown

private theorem BoundStands.single (stands : BoundStands catalog forest (before ++ place :: after) controls) :
    Holds (boundReading catalog) forest.arena (place.plot fieldView) ∧ place.ids.Nodup := by
  have held : place ∈ before ++ place :: after := List.mem_append_right _ List.mem_cons_self
  exact ⟨stands.rooted.each place held, stands.rooted.single held⟩

/-- The inputs of the features in `before` have been added. -/
theorem foldl_addInputs (before : List (Place (Field (Bound σ)))) {a : Arena} {controlRoots : List Nat}
    (stands : BoundStands catalog ⟨a, (before ++ after).map (·.root), controlRoots⟩ (before ++ after) controls) :
    ∃ after', after'.map (·.root) = after.map (·.root) ∧
      after'.map (·.item) = after.map (fun place => place.item.map Bound.withImplicitInputs) ∧
      BoundStands catalog
        ⟨(after.map (·.root)).foldl (Arena.addInputs catalog) a, (before ++ after').map (·.root), controlRoots⟩ (before ++ after') controls := by
  induction after generalizing a before with
  | nil => exact ⟨[], rfl, rfl, stands⟩
  | cons place after ih =>
    obtain ⟨holds, distinct⟩ := stands.single
    obtain ⟨ids, becomes⟩ := addInputs_becomes holds distinct
    have replaced : BoundStands catalog ⟨a.addInputs catalog place.root, _, controlRoots⟩
        (before ++ ⟨place.item.map Bound.withImplicitInputs, place.root, ids⟩ :: after) controls := stands.replace becomes
    rw [List.append_cons] at replaced
    obtain ⟨after', roots, items, stands'⟩ := ih _ replaced
    refine ⟨⟨place.item.map Bound.withImplicitInputs, place.root, ids⟩ :: after', ?_, ?_, ?_⟩
    · rw [List.map_cons, List.map_cons, roots]
    · rw [List.map_cons, List.map_cons, items]
    · rw [List.append_cons]
      exact stands'

theorem addInputs_stands (stands : BoundStands catalog forest features controls) :
    ∃ features', features'.map (·.item) = features.map (fun place => place.item.map Bound.withImplicitInputs) ∧
      BoundStands catalog (forest.addInputs catalog) features' controls := by
  obtain ⟨a, roots, controlRoots⟩ := forest
  obtain rfl : features.map (·.root) = roots := stands.rooted.roots
  obtain ⟨features', same, items, stands'⟩ := foldl_addInputs [] stands
  refine ⟨features', items, ?_⟩
  rw [addInputs, ← same]
  rw [← same] at stands'
  exact stands'

theorem lowerRoot_stands (stands : BoundStands catalog forest (before ++ place :: after) controls) :
    ∃ place', place'.item = place.item.map Bound.lower ∧
      BoundStands catalog (forest.lowerRoot catalog before.length) (before ++ place' :: after) controls := by
  obtain ⟨holds, distinct⟩ := stands.single
  obtain ⟨ids, becomes⟩ := lower_becomes holds distinct
  refine ⟨⟨place.item.map Bound.lower, (forest.arena.lower catalog place.root).2, ids⟩, rfl, ?_⟩
  have found : forest.roots[before.length]? = some place.root := by
    rw [← stands.rooted.roots]
    simp
  have set : forest.roots.set before.length (forest.arena.lower catalog place.root).2 = (before ++
      (⟨place.item.map Bound.lower, (forest.arena.lower catalog place.root).2, ids⟩ : Place (Field (Bound σ))) :: after).map
        (·.root) := by
    rw [← stands.rooted.roots]
    simp
  rw [lowerRoot, found]
  dsimp only
  rw [set]
  exact stands.replace becomes

/-- Lowering the first features leaves the others and the controls as they were. -/
theorem lowerFirst_stands (stands : BoundStands catalog forest features controls) {count : Nat}
    (within : count ≤ features.length) :
    ∃ lowered, lowered.map (·.item) = (features.take count).map (fun place => place.item.map Bound.lower) ∧
      BoundStands catalog (forest.lowerFirst catalog count) (lowered ++ features.drop count) controls := by
  induction count with
  | zero => exact ⟨[], rfl, stands⟩
  | succ count ih =>
    obtain ⟨lowered, items, stands'⟩ := ih (Nat.le_of_succ_le within)
    have length : lowered.length = count := by
      have same := congrArg List.length items
      simpa [Nat.min_eq_left (Nat.le_of_succ_le within)] using same
    rw [List.drop_eq_getElem_cons within] at stands'
    obtain ⟨place', item, stands''⟩ := lowerRoot_stands stands'
    refine ⟨lowered ++ [place'], ?_, ?_⟩
    · rw [List.map_append, items, List.take_succ_eq_append_getElem within, List.map_append, List.map_singleton, item,
        List.map_singleton]
    · rw [lowerFirst, List.range_succ, List.foldl_append, List.foldl_cons, List.foldl_nil, ← lowerFirst, ← List.append_cons]
      exact length ▸ stands''

/-- What can be read off a forest: the trees at its roots, the names and elements under which the features are exported, and
that no other node of any tree is exported or used twice. -/
structure Shows (catalog : Catalog σ φ) (forest : Forest) (fields : List (Field (Bound σ))) (controls : List (Registered σ)) :
    Prop where
  trees : forest.roots.map (forest.arena.tree? catalog) = fields.map fun field => some field.tree
  controlTrees : forest.controls.map (forest.arena.tree? catalog) = controls.map fun control => some (controlTree control)
  exported : forest.roots.map forest.arena.exported? = fields.map fun field => some (field.name, field.declared)
  unexported : ∀ root ∈ forest.roots ++ forest.controls, ∀ id ∈ forest.arena.postOrder root, id ∉ forest.roots →
    forest.arena.exported? id = none
  distinct : ((forest.roots ++ forest.controls).flatMap forest.arena.postOrder).Nodup

private theorem BoundStands.shows (stands : BoundStands catalog forest features controls) :
    forest.Shows catalog (features.map (·.item)) (controls.map (·.item)) := by
  obtain ⟨rooted, controlled, apart⟩ := stands
  refine ⟨?_, ?_, ?_, ?_, ?_⟩
  · rw [rooted.map_tree, List.map_map]
    rfl
  · rw [controlled.map_tree, List.map_map]
    rfl
  · rw [rooted.map_exported, List.map_map]
    rfl
  · intro root held id member outside
    rcases List.mem_append.mp held with held | held
    · refine (rooted.unexported held member).resolve_left ?_
      rintro rfl
      exact outside held
    · rcases controlled.unexported held member with rfl | hidden
      · have exports := List.mem_map_of_mem (f := forest.arena.exported?) held
        rw [controlled.map_exported] at exports
        obtain ⟨place, -, same⟩ := List.mem_map.mp exports
        exact same.symm
      · exact hidden
  · rw [List.flatMap_append, rooted.flatMap_postOrder, controlled.flatMap_postOrder]
    exact List.nodup_append'.mpr ⟨rooted.distinct, controlled.distinct, apart⟩

end Forest

namespace Specification

variable {catalog : Catalog σ φ} {s : Specification}

private theorem bindField_eq_map (field : Field Expression) :
    bindField catalog field = (boundField catalog field).map (·.map fun tree => tree.withImplicitInputs.lower) := by
  rw [bindField, boundField]
  cases Bound.ofExpression catalog .flowFeature field.tree <;> rfl

private theorem lowered_of_bound {fields : List (Field (Bound σ))} {controls : List (Registered σ)}
    (accepted : s.bound catalog = .ok (fields, controls)) :
    s.lowered catalog = .ok (fields.map (·.map fun tree => tree.withImplicitInputs.lower)) := by
  obtain ⟨expressions, read, accepted⟩ := bind_eq_ok.mp accepted
  obtain ⟨names, -, accepted⟩ := bind_eq_ok.mp accepted
  obtain ⟨expanded, unfolded, accepted⟩ := bind_eq_ok.mp accepted
  obtain ⟨fields', bound, accepted⟩ := bind_eq_ok.mp accepted
  obtain ⟨controls', -, accepted⟩ := bind_eq_ok.mp accepted
  cases accepted
  refine bind_eq_ok.mpr ⟨expressions, read, bind_eq_ok.mpr ⟨expanded, unfolded, stage_eq_ok.mpr ?_⟩⟩
  rw [List.forall₂_map_right_iff]
  refine (stage_results bound).imp fun field result done => ?_
  rw [bindField_eq_map, done]
  rfl

end Specification

namespace Forest

variable {catalog : Catalog σ φ} {s : Specification} {forest : Forest}

theorem bound_of_accepted (accepted : ofSpecification catalog s = .ok forest) : ∃ bound, s.bound catalog = .ok bound ∧
    ∃ features controls, features.map (·.item) = bound.1 ∧ controls.map (·.item) = bound.2 ∧
      BoundStands catalog forest features controls := by
  have simulated := ofSpecification_simulates catalog s
  rw [accepted] at simulated
  generalize s.bound catalog = bound at simulated
  cases simulated with
  | ok results => exact ⟨_, rfl, results⟩

theorem lowerFirst_shows {features inputs : List (Place (Field (Bound σ)))} {controls : List (Place (Registered σ))}
    (stands : BoundStands catalog forest inputs controls)
    (items : inputs.map (·.item) = features.map fun place => place.item.map Bound.withImplicitInputs) {count : Nat}
    (within : count ≤ features.length) :
    (forest.lowerFirst catalog count).Shows catalog
      ((features.take count).map (fun place => place.item.map fun tree => tree.withImplicitInputs.lower) ++
        (features.drop count).map (fun place => place.item.map Bound.withImplicitInputs)) (controls.map (·.item)) := by
  have length : inputs.length = features.length := by simpa using congrArg List.length items
  obtain ⟨lowered, items', stands'⟩ := lowerFirst_stands stands (within.trans (Nat.le_of_eq length.symm))
  have shows := stands'.shows
  have first : (inputs.take count).map (fun place => place.item.map Bound.lower) =
      (features.take count).map fun place => place.item.map fun tree => tree.withImplicitInputs.lower := by
    have same := congrArg (fun fields => (fields.take count).map (·.map Bound.lower)) items
    simpa [← List.map_take, Function.comp_def, Field.map] using same
  have rest : (inputs.drop count).map (·.item) =
      (features.drop count).map fun place => place.item.map Bound.withImplicitInputs := by
    rw [List.map_drop, items, List.map_drop]
  rwa [List.map_append, items', first, rest] at shows

/-- A specification whose features and controls can be bound is rewritten in one arena as it is tree by tree. -/
theorem ofSpecification_rewrites (accepted : ofSpecification catalog s = .ok forest) : ∃ fields controls,
    s.bound catalog = .ok (fields, controls) ∧ forest.Shows catalog fields controls ∧
    (forest.addInputs catalog).Shows catalog (fields.map (·.map Bound.withImplicitInputs)) controls ∧
    (∀ count ≤ fields.length, ((forest.addInputs catalog).lowerFirst catalog count).Shows catalog
      ((fields.take count).map (·.map fun tree => tree.withImplicitInputs.lower) ++
        (fields.drop count).map (·.map Bound.withImplicitInputs)) controls) ∧
    ((forest.addInputs catalog).lower catalog).Shows catalog
      (fields.map (·.map fun tree => tree.withImplicitInputs.lower)) controls ∧
    s.lowered catalog = .ok (fields.map (·.map fun tree => tree.withImplicitInputs.lower)) := by
  obtain ⟨⟨fields, controls⟩, bound, features, places, rfl, rfl, stands⟩ := bound_of_accepted accepted
  obtain ⟨inputs, items, stands'⟩ := addInputs_stands stands
  have shown {count : Nat} (within : count ≤ features.length) := lowerFirst_shows stands' items within
  refine ⟨_, _, bound, stands.shows, ?_, ?_, ?_, Specification.lowered_of_bound bound⟩
  · have shows := stands'.shows
    rw [items] at shows
    simpa [Function.comp_def] using shows
  · intro count within
    rw [List.length_map] at within
    simpa [List.map_take, List.map_drop, Function.comp_def] using shown within
  · have roots : (forest.addInputs catalog).roots.length = features.length := by
      rw [← stands'.rooted.roots, List.length_map, ← List.length_map (·.item), items, List.length_map]
    rw [lower, roots]
    simpa [Function.comp_def] using shown (Nat.le_refl _)

def texts (forest : Forest) : List String :=
  forest.roots.map forest.arena.render

/-- A selection inside a selection, a composite that stands for a substitution, and a control. -/
def narrowed : Specification where
  features := [
    .array [.string "apply", .array [.string "apply", .string "octetTotalCount", .string "forward"],
      .array [.string "select_slice", .number (.natural 0), .number (.natural 10)]],
    .string "forwardOctetCount"]
  control := [.string "_tcpEnd"]
  filter := []

theorem ofSpecification_rewrites_narrowed : ∃ forest, ∃ fields : List (Field (Bound Library.Instance)), ∃ controls,
    ofSpecification Library.catalog narrowed = .ok forest ∧
    ((forest.addInputs Library.catalog).lower Library.catalog).Shows Library.catalog
      (fields.map (·.map fun tree => tree.withImplicitInputs.lower)) controls ∧
    ((forest.addInputs Library.catalog).lower Library.catalog).texts =
      ["octetTotalCount(forward(select_slice(0,10)))", "octetTotalCount(forward)"] := by
  have rendered : ((ofSpecification Library.catalog narrowed).toOption.map fun forest =>
      ((forest.addInputs Library.catalog).lower Library.catalog).texts) =
        some ["octetTotalCount(forward(select_slice(0,10)))", "octetTotalCount(forward)"] := by decide +kernel
  cases accepted : ofSpecification Library.catalog narrowed with
  | error problem =>
    rw [accepted] at rendered
    cases rendered
  | ok forest =>
    rw [accepted] at rendered
    obtain ⟨fields, controls, -, -, -, -, shows, -⟩ := ofSpecification_rewrites accepted
    exact ⟨forest, fields, controls, rfl, shows, Option.some.inj rendered⟩

end Forest

end FlowMetering
