import FlowMetering.Proofs.CompiledRegisters
import FlowMetering.Proofs.LocalErrors
import FlowMetering.Proofs.RepeatedExports

/-! Limits of templates. The templates of a specification branch on every source of its exported features, so there is one
choice for each combination of their alternatives. The first feature with which there are more choices than allowed is
reported. -/

namespace FlowMetering

open TypeTree (Consistent choices combinations)

variable {σ φ : Type} {catalog : Catalog σ φ} {limit : Nat}

def fieldPoints (fields : List (Field (Typed σ))) : List (String × Nat) :=
  fields.flatMap fun field => (Typed.type field.tree).branchings

private theorem Typed.WellTyped.branchings {t : Typed σ} (typed : WellTyped catalog limit t) :
    (Typed.type t).branchings ⊆ t.erase.variantSources := by
  rintro ⟨source, count⟩ branching
  obtain ⟨typing, args, elements, part, rfl, several, rfl⟩ := typed.source branching
  refine Bound.mem_variantSources.mpr ⟨_, Tree.mem_subtrees_map id Typing.binding part, ?_⟩
  have signed := (typed.subtree part).signature_eq
  change (typing.signature, elements.length) ∈ Bound.ownSource (Typed.erase (.call typing args))
  rw [Typed.erase_call] at signed ⊢
  rw [Bound.ownSource, several]
  exact List.mem_singleton.mpr (congrArg (·, elements.length) signed)

section Points

variable {fields : List (Field (Typed σ))} (typed : ∀ field ∈ fields, Typed.WellTyped catalog limit field.tree)
include typed

private theorem fieldPoints_subset : fieldPoints fields ⊆ (fields.map (·.tree.erase)).flatMap Bound.variantSources := by
  intro point member
  obtain ⟨field, held, inside⟩ := List.mem_flatMap.mp member
  exact List.mem_flatMap.mpr ⟨_, List.mem_map_of_mem held, (typed field held).branchings inside⟩

private theorem drawn_fields : ∀ tree ∈ fields.map (·.tree.erase), Bound.Over catalog tree :=
  List.forall_mem_map.mpr fun field member => (typed field member).drawn

private theorem combinations_fields
    (nonempty : ∀ entry ∈ catalog.entries, ∀ elements, entry.output = .variants elements → elements ≠ []) :
    combinations (TypeTree.sources (fields.map fun field => Typed.type field.tree)) =
      min (choices (fieldPoints fields)) Word.maxUnsigned := by
  have consistent : Consistent (fieldPoints fields) :=
    (Bound.consistent_variantSources (drawn_fields typed)).mono (fieldPoints_subset typed)
  have positive : ∀ point ∈ fieldPoints fields, 0 < point.2 := fun point member =>
    Bound.positive_variantSources (drawn_fields typed) nonempty point (fieldPoints_subset typed member)
  rw [fieldPoints, ← List.flatMap_map] at consistent positive ⊢
  exact TypeTree.combinations_sources consistent positive

end Points

def exportedItems (fields : List (Field (Typed σ))) : List (Field (Typed σ) × Nat) :=
  fields.zipIdx.filter (!·.1.tree.isRaw)

private def counted (fields : List (Field (Typed σ))) : Nat :=
  combinations (TypeTree.sources (fields.map fun field => Typed.type field.tree))

/-- Adds the sources of a field to those that are known, unless there are too many choices then. -/
def addSources (limit : Nat) (found : List (String × Nat)) (item : Field (Typed σ) × Nat) :
    Except CompileError (List (String × Nat)) :=
  let sources := TypeTree.collect found (Typed.type item.1.tree)
  let count := combinations sources
  if limit < count then .error ⟨item.2 + 1, item.1.name, .tooManyVariants count limit⟩ else .ok sources

private theorem exportedItems_append (fields : List (Field (Typed σ))) (field : Field (Typed σ)) :
    exportedItems (fields ++ [field]) =
      exportedItems fields ++ if field.tree.isRaw then [] else [(field, fields.length)] := by
  cases raw : field.tree.isRaw <;> simp [exportedItems, List.zipIdx_append, raw]

theorem exportedItems_fst (fields : List (Field (Typed σ))) :
    (exportedItems fields).map (·.1) = fields.filter (!·.tree.isRaw) := by
  induction fields using List.reverseRecOn with
  | nil => rfl
  | append_singleton fields field ih =>
    rw [exportedItems_append, List.map_append, ih]
    cases raw : field.tree.isRaw <;> simp [raw]

private theorem mem_of_exportedItems {fields : List (Field (Typed σ))} {item : Field (Typed σ) × Nat}
    (member : item ∈ exportedItems fields) : item.1 ∈ fields :=
  List.mem_of_getElem? (List.mem_zipIdx_iff_getElem?.mp (List.mem_of_mem_filter member))

private theorem sources_append (fields : List (Field (Typed σ))) (field : Field (Typed σ)) :
    TypeTree.sources ((fields ++ [field]).map fun field => Typed.type field.tree) =
      TypeTree.collect (TypeTree.sources (fields.map fun field => Typed.type field.tree)) (Typed.type field.tree) := by
  simp [TypeTree.sources]

private theorem addSources_cases (limit : Nat) (fields : List (Field (Typed σ))) :
    ((exportedItems fields).foldlM (addSources limit) [] = .ok (TypeTree.sources (fields.map fun field => Typed.type field.tree)) ∧
        ∀ (i : Nat) (field : Field (Typed σ)), fields[i]? = some field → field.tree.isRaw = false → counted (fields.take (i + 1)) ≤ limit) ∨
      ∃ (i : Nat) (field : Field (Typed σ)), fields[i]? = some field ∧ field.tree.isRaw = false ∧ limit < counted (fields.take (i + 1)) ∧
        (∀ (j : Nat) (other : Field (Typed σ)), j < i → fields[j]? = some other → other.tree.isRaw = false →
          counted (fields.take (j + 1)) ≤ limit) ∧
        (exportedItems fields).foldlM (addSources limit) [] =
          .error ⟨i + 1, field.name, .tooManyVariants (counted (fields.take (i + 1))) limit⟩ := by
  induction fields using List.reverseRecOn with
  | nil => exact .inl ⟨rfl, nofun⟩
  | append_singleton fields field ih =>
    have before {i : Nat} {other : Field (Typed σ)} (found : fields[i]? = some other) :
        (fields ++ [field])[i]? = some other ∧ (fields ++ [field]).take (i + 1) = fields.take (i + 1) := by
      have inside := (List.getElem?_eq_some_iff.mp found).1
      exact ⟨(List.getElem?_append_left inside).trans found, List.take_append_of_le_length inside⟩
    have all : (fields ++ [field]).take (fields.length + 1) = fields ++ [field] := List.take_of_length_le (by simp)
    have cases_of {i : Nat} {other : Field (Typed σ)} (found : (fields ++ [field])[i]? = some other) :
        fields[i]? = some other ∨ i = fields.length ∧ other = field := by
      by_cases inside : i < fields.length
      · exact .inl ((List.getElem?_append_left inside).symm.trans found)
      · have last := (List.getElem?_eq_some_iff.mp found).1
        rw [List.length_append, List.length_singleton] at last
        obtain rfl : i = fields.length := by omega
        rw [List.getElem?_concat_length] at found
        exact .inr ⟨rfl, (Option.some.inj found).symm⟩
    rw [exportedItems_append, List.foldlM_append]
    rcases ih with ⟨done, few⟩ | ⟨i, first, found, plain, many, few, failed⟩
    · rw [done, sources_append]
      have few' {i : Nat} {other : Field (Typed σ)} (found : fields[i]? = some other) (plain : other.tree.isRaw = false) :
          counted ((fields ++ [field]).take (i + 1)) ≤ limit := by
        rw [(before found).2]
        exact few i other found plain
      cases raw : field.tree.isRaw with
      | true =>
        have untyped : Typed.type field.tree = .untyped := by
          generalize field.tree = tree at raw
          cases tree with
          | raw mark => rfl
          | constant value => cases raw
          | call typing args => cases raw
        rw [untyped]
        refine .inl ⟨rfl, fun i other found plain => ?_⟩
        rcases cases_of found with found | ⟨-, rfl⟩
        · exact few' found plain
        · cases raw.symm.trans plain
      | false =>
        have number : combinations (TypeTree.collect (TypeTree.sources (fields.map fun field => Typed.type field.tree))
            (Typed.type field.tree)) = counted (fields ++ [field]) := by rw [counted, sources_append]
        have step (known : List (String × Nat)) : (Except.ok known >>= fun found =>
            [(field, fields.length)].foldlM (addSources limit) found) = addSources limit known (field, fields.length) :=
          (bind_pure (addSources limit known (field, fields.length)) :)
        simp only [Bool.false_eq_true, if_false, step, addSources, number]
        by_cases many : limit < counted (fields ++ [field])
        · rw [if_pos many]
          refine .inr ⟨fields.length, field, List.getElem?_concat_length, raw, by rwa [all], fun j other earlier found plain => ?_, by rw [all]⟩
          rcases cases_of found with found | ⟨rfl, -⟩
          · exact few' found plain
          · omega
        · rw [if_neg many]
          refine .inl ⟨rfl, fun i other found plain => ?_⟩
          rcases cases_of found with found | ⟨rfl, -⟩
          · exact few' found plain
          · rw [all]
            omega
    · obtain ⟨found', same⟩ := before found
      refine .inr ⟨i, first, found', plain, by rwa [same], fun j other earlier found' plain => ?_, by rw [failed, same]; rfl⟩
      have inside := (List.getElem?_eq_some_iff.mp found).1
      rcases cases_of found' with known | ⟨rfl, -⟩
      · rw [(before known).2]
        exact few j other earlier known plain
      · omega

namespace Allocation

private def Placed (e : Export) (item : Field (Typed σ) × Nat) : Prop :=
  e.name = item.1.name ∧ e.position = item.2 + 1

private theorem addField_placed {a b : Allocation σ} {fields : List (Field (Typed σ))} (marked : Marked catalog limit a fields)
    {before : List (Field (Typed σ) × Nat)} (placed : List.Forall₂ Placed a.exports before) (item : Field (Typed σ) × Nat)
    (typed : Typed.WellTyped catalog limit item.1.tree) (added : a.addField (item.2 + 1) item.1 = .ok b) :
    List.Forall₂ Placed b.exports (before ++ if item.1.tree.isRaw then [] else [item]) := by
  have visited := addTree_visited (item.2 + 1) item.1.tree a marked.keyed typed
  have denotes := visited.denotes _ (mem_visits_self (item.2 + 1) item.1.tree a)
  have grown := (addTree_grown (item.2 + 1) item.1.tree a).exports
  rw [addField_eq] at added
  generalize (addTree (item.2 + 1) item.1.tree a).2 = reference at denotes added
  cases reference with
  | raw =>
    have raw : item.1.tree.isRaw = true := by
      generalize item.1.tree = tree at denotes
      cases denotes
      rfl
    cases added
    rw [raw, if_pos rfl, List.append_nil, grown]
    exact placed
  | register r =>
    cases denotes with
    | register plain noted =>
      have found := List.getElem?_eq_getElem (visited.keyed.lt noted)
      simp only [addExport, found] at added
      split at added
      · cases added
      · cases added
        rw [plain, grown]
        exact List.rel_append placed (.cons ⟨rfl, rfl⟩ .nil)

private theorem addFields_placed {rest before : List (Field (Typed σ))} {a b : Allocation σ} (marked : Marked catalog limit a before)
    (typed : ∀ field ∈ rest, Typed.WellTyped catalog limit field.tree) (items : List (Field (Typed σ) × Nat))
    (placed : List.Forall₂ Placed a.exports items)
    (done : (rest.zipIdx before.length).foldlM (fun a (field, i) => a.addField (i + 1) field) a = .ok b) :
    List.Forall₂ Placed b.exports (items ++ (rest.zipIdx before.length).filter (!·.1.tree.isRaw)) := by
  induction rest generalizing before a items with
  | nil =>
    cases done
    rw [List.zipIdx_nil, List.filter_nil, List.append_nil]
    exact placed
  | cons field rest ih =>
    rw [List.forall_mem_cons] at typed
    rw [List.zipIdx_cons, List.foldlM_cons] at done
    obtain ⟨c, added, done⟩ := bind_eq_ok.mp done
    dsimp only at added
    rcases addField_cases marked typed.1 (before.length + 1) with ⟨-, c', added', next, -⟩ | ⟨-, failed⟩
    · cases added.symm.trans added'
      have first := addField_placed marked placed (field, before.length) typed.1 added
      have length : before.length + 1 = (before ++ [field]).length := by simp
      rw [length] at done
      have others := ih next typed.2 _ first done
      rw [← length] at others
      rw [List.zipIdx_cons]
      cases raw : field.tree.isRaw with
      | true => simpa [raw] using others
      | false => simpa [raw] using others
    · cases added.symm.trans failed

/-- Templates see the exports of an allocation as the fields that are exported. -/
theorem ofFields_slots {fields : List (Field (Typed σ))} {controls : List (Registered σ)} {a : Allocation σ}
    (typed : ∀ field ∈ fields, Typed.WellTyped catalog limit field.tree) (done : ofFields fields controls = .ok a) :
    List.Forall₂ (fun slot item => slot.name = item.1.name ∧ slot.type = Typed.type item.1.tree ∧ slot.position = item.2 + 1)
      (a.exports.map a.slot) (exportedItems fields) := by
  obtain ⟨made, allocated, whole⟩ := bind_eq_ok.mp done
  rcases addFields_cases .empty typed with ⟨made', allocated', marked, -⟩ | ⟨i, field, -, -, -, -, failed⟩
  · cases allocated.symm.trans allocated'
    have controlled := addControls_controlled controls.zipIdx made
    rw [List.zipIdx_map_fst, Except.ok.inj whole] at controlled
    obtain ⟨more, added, -⟩ := controlled.nodes
    have placed := addFields_placed .empty typed [] .nil allocated
    have exposed := marked.exports
    rw [List.nil_append, ← exportedItems_fst, List.forall₂_map_right_iff] at exposed
    have known := (List.forall₂_and_left _ _).mpr ⟨fun item member => typed item.1 (mem_of_exportedItems member), exposed.flip⟩
    rw [controlled.exports, List.forall₂_map_left_iff]
    refine List.Forall₂.mp (fun e item placed exposes => ?_) placed known.flip
    obtain ⟨typed, exposes⟩ := exposes
    obtain ⟨node, found, made⟩ := marked.keyed.made_of_denotes typed exposes.denotes
    have kept : a.nodes[e.register]? = some node := by
      rw [added]
      exact (List.getElem?_append_left (List.getElem?_eq_some_iff.mp found).1).trans found
    rw [slot, kept]
    exact ⟨placed.1, made.type_eq, placed.2⟩
  · cases allocated.symm.trans failed

end Allocation

theorem TemplateTree.sources_eq_addSources (limit : Nat) {slots : List Slot} {items : List (Field (Typed σ) × Nat)}
    (shown : List.Forall₂ (fun slot item =>
      slot.name = item.1.name ∧ slot.type = Typed.type item.1.tree ∧ slot.position = item.2 + 1) slots items) :
    sources limit slots = items.foldlM (addSources limit) [] := by
  rw [sources]
  generalize ([] : List (String × Nat)) = known
  induction shown generalizing known with
  | nil => rfl
  | cons shows rest ih =>
    obtain ⟨name, type, position⟩ := shows
    rw [List.foldlM_cons, List.foldlM_cons, addSources, name, type, position]
    exact congrArg _ (funext ih)

namespace Specification

variable {s : Specification} {fields : List (Field (Typed σ))} {controls : List (Registered σ)}
  {filters : List (String × φ)} {a : Allocation σ} {e : CompileError}

/-- Once registers have been allocated, a compilation fails exactly if there are too many choices for the templates. The first
feature with which there are too many is reported. -/
theorem compile_error_templates
    (nonempty : ∀ entry ∈ catalog.entries, ∀ elements, entry.output = .variants elements → elements ≠ [])
    (small : limit < Word.maxUnsigned) (prepared : s.prepared catalog limit = .ok (fields, controls, filters))
    (allocated : Allocation.ofFields fields controls = .ok a) :
    s.compile catalog limit = .error e ↔ ∃ (i : Nat) (field : Field (Typed σ)), fields[i]? = some field ∧
      field.tree.isRaw = false ∧ limit < choices (fieldPoints (fields.take (i + 1))) ∧
      (∀ (j : Nat) (other : Field (Typed σ)), j < i → fields[j]? = some other → other.tree.isRaw = false →
        choices (fieldPoints (fields.take (j + 1))) ≤ limit) ∧
      e = ⟨i + 1, field.name,
        .tooManyVariants (min (choices (fieldPoints (fields.take (i + 1)))) Word.maxUnsigned) limit⟩ := by
  have typed := prepared_wellTyped prepared
  have number (i : Nat) : counted (fields.take i) = min (choices (fieldPoints (fields.take i))) Word.maxUnsigned :=
    combinations_fields (fun field member => typed field (List.mem_of_mem_take member)) nonempty
  have many (i : Nat) : limit < counted (fields.take i) ↔ limit < choices (fieldPoints (fields.take i)) := by
    rw [number]
    omega
  have few (i : Nat) : counted (fields.take i) ≤ limit ↔ choices (fieldPoints (fields.take i)) ≤ limit := by
    rw [number]
    omega
  have counts := TemplateTree.sources_eq_addSources limit (Allocation.ofFields_slots typed allocated)
  have compiled : s.compile catalog limit = a.program limit filters := by
    rw [compile_eq_prepared, prepared]
    exact congrArg (· >>= fun a => a.program limit filters) allocated
  rw [compiled, Allocation.program, TemplateTree.ofSlots, counts]
  rcases addSources_cases limit fields with ⟨done, none⟩ | ⟨i, field, found, plain, exceeds, none, failed⟩
  · rw [done]
    refine ⟨nofun, ?_⟩
    rintro ⟨i, field, found, plain, exceeds, -⟩
    have := (few _).mp (none i field found plain)
    omega
  · rw [failed, number]
    constructor
    · intro same
      cases same
      exact ⟨i, field, found, plain, (many _).mp exceeds, fun j other earlier found plain =>
        (few _).mp (none j other earlier found plain), rfl⟩
    · rintro ⟨i', field', found', plain', exceeds', none', rfl⟩
      rcases Nat.lt_trichotomy i i' with before | rfl | behind
      · have := none' i field before found plain
        have := (many _).mp exceeds
        omega
      · cases found.symm.trans found'
        rfl
      · have := (few _).mp (none i' field' behind found' plain')
        omega

end Specification

end FlowMetering
