import FlowMetering.Library.Catalog
import Mathlib.Data.List.Induction
import Mathlib.Data.List.Nodup

/-! Catalogs that come of registrations. Their entries have no defects, so that an entry without a build declares two arguments;
and lists of entries, composites and filters without defects and repetitions can always be registered. -/

namespace FlowMetering

variable {σ φ : Type}

/-- The catalogs that successful registrations make. -/
inductive Catalog.Assembled : Catalog σ φ → Prop
  | empty : Assembled empty
  | entry {c c' : Catalog σ φ} {e : Entry σ} {id : Nat} (assembled : Assembled c) (done : c.register e = .ok (c', id)) :
    Assembled c'
  | composite {c c' : Catalog σ φ} {composite : Composite} (assembled : Assembled c)
    (done : c.registerComposite composite = .ok c') : Assembled c'
  | filter {c c' : Catalog σ φ} {name : String} {filter : φ} (assembled : Assembled c)
    (done : c.registerFilter name filter = .ok c') : Assembled c'

namespace Entry

def Repeats (e other : Entry σ) : Prop :=
  other.name = e.name ∧ other.result = e.result ∧ other.arguments = e.arguments

instance (e other : Entry σ) : Decidable (e.Repeats other) :=
  inferInstanceAs (Decidable (_ ∧ _ ∧ _))

theorem arguments_of_defect? {e : Entry σ} (sound : e.defect? = none) (missing : e.build = none) : e.arguments.length = 2 := by
  have other : ¬(e.build.isNone && e.arguments.length != 2) = true := by
    intro wrong
    rw [defect?] at sound
    split_ifs at sound
  simpa [missing] using other

end Entry

namespace Catalog

theorem register_eq_ok {c c' : Catalog σ φ} {e : Entry σ} {id : Nat} : c.register e = .ok (c', id) ↔
    e.defect? = none ∧ (∀ other ∈ c.entries, ¬e.Repeats other) ∧ c' = { c with entries := c.entries ++ [e] } ∧
      id = c.entries.length := by
  rw [register]
  cases defect : e.defect? with
  | some reason => simp
  | none =>
    have known : (c.entries.any fun other => other.name == e.name && other.result == e.result &&
        other.arguments == e.arguments) = true ↔ ∃ other ∈ c.entries, e.Repeats other := by
      simp [Entry.Repeats, and_assoc]
    dsimp only
    split
    next repeated =>
      obtain ⟨other, held, same⟩ := known.mp repeated
      simp only [reduceCtorEq, false_iff, not_and]
      exact fun _ fresh => absurd same (fresh other held)
    next fresh =>
      have unlike : ∀ other ∈ c.entries, ¬e.Repeats other := fun other held same => fresh (known.mpr ⟨other, held, same⟩)
      simp only [Except.ok.injEq, Prod.mk.injEq, true_and]
      exact ⟨fun ⟨same, count⟩ => ⟨unlike, same.symm, count.symm⟩, fun ⟨_, same, count⟩ => ⟨same.symm, count.symm⟩⟩

theorem registerComposite_entries {c c' : Catalog σ φ} {composite : Composite}
    (done : c.registerComposite composite = .ok c') : c'.entries = c.entries := by
  rw [registerComposite] at done
  split at done
  · cases done
  · split at done
    · cases done
    · cases done
      rfl

theorem registerFilter_entries {c c' : Catalog σ φ} {name : String} {filter : φ}
    (done : c.registerFilter name filter = .ok c') : c'.entries = c.entries := by
  rw [registerFilter] at done
  split at done
  · cases done
  · cases done
    rfl

theorem Assembled.sound {c : Catalog σ φ} (assembled : c.Assembled) : ∀ e ∈ c.entries, e.defect? = none := by
  induction assembled with
  | empty => exact List.forall_mem_nil _
  | entry assembled done ih =>
    obtain ⟨sound, -, rfl, -⟩ := register_eq_ok.mp done
    exact List.forall_mem_append.mpr ⟨ih, List.forall_mem_singleton.mpr sound⟩
  | composite assembled done ih =>
    rw [registerComposite_entries done]
    exact ih
  | filter assembled done ih =>
    rw [registerFilter_entries done]
    exact ih

theorem assembled_entries {entries : List (Entry σ)} (sound : ∀ e ∈ entries, e.defect? = none)
    (distinct : entries.Pairwise fun other e => ¬e.Repeats other) : Assembled (⟨entries, [], []⟩ : Catalog σ φ) := by
  induction entries using List.reverseRecOn with
  | nil => exact .empty
  | append_singleton entries e ih =>
    rw [List.forall_mem_append, List.forall_mem_singleton] at sound
    rw [List.pairwise_append] at distinct
    have done : register (⟨entries, [], []⟩ : Catalog σ φ) e = .ok (⟨entries ++ [e], [], []⟩, entries.length) :=
      register_eq_ok.mpr ⟨sound.2, fun other held => distinct.2.2 other held e List.mem_cons_self, rfl, rfl⟩
    exact .entry (ih sound.1 distinct.1) done

/-- What has a name of its own is not found among others. -/
theorem find?_name_eq_none {α : Type} {name : α → String} {items : List α} {item : α}
    (distinct : ((items ++ [item]).map name).Nodup) : items.find? (name · == name item) = none := by
  apply List.find?_eq_none.mpr
  intro other held same
  rw [List.map_append, List.nodup_append'] at distinct
  exact distinct.2.2 (List.mem_map_of_mem held) (List.mem_singleton.mpr (eq_of_beq same))

theorem assembled_composites {c : Catalog σ φ} {composites : List Composite}
    (assembled : Assembled { c with composites := [] }) (defined : ∀ composite ∈ composites, composite.definition ≠ .null)
    (distinct : (composites.map (·.name)).Nodup) : Assembled { c with composites := composites } := by
  induction composites using List.reverseRecOn with
  | nil => exact assembled
  | append_singleton composites composite ih =>
    have unknown := find?_name_eq_none distinct
    rw [List.forall_mem_append, List.forall_mem_singleton] at defined
    rw [List.map_append, List.nodup_append'] at distinct
    have done : registerComposite { c with composites := composites } composite =
        .ok { c with composites := composites ++ [composite] } := by
      rw [registerComposite, composite?, unknown]
      split
      · contradiction
      · split
        next missing => exact absurd missing defined.2
        next => rfl
    exact .composite (ih defined.1 distinct.1) done

theorem assembled_filters {c : Catalog σ φ} {filters : List (String × φ)}
    (assembled : Assembled { c with filters := ([] : List (String × φ)) }) (distinct : (filters.map (·.1)).Nodup) :
    Assembled { c with filters := filters } := by
  induction filters using List.reverseRecOn with
  | nil => exact assembled
  | append_singleton filters named ih =>
    have unknown := find?_name_eq_none distinct
    rw [List.map_append, List.nodup_append'] at distinct
    have done : registerFilter { c with filters := filters } named.1 named.2 = .ok { c with filters := filters ++ [named] } := by
      rw [registerFilter, filter?, unknown]
      rfl
    exact .filter (ih distinct.1) done

end Catalog

/-- The built-in catalog can be registered. -/
theorem Library.assembled : Library.catalog.Assembled := by
  have entered : Catalog.Assembled (⟨Library.entries, [], []⟩ : Catalog Library.Instance Library.PacketFilter) := by
    refine Catalog.assembled_entries ?_ (by decide +kernel)
    intro e member
    have sound : Library.entries.all (·.defect?.isNone) = true := by decide +kernel
    exact Option.isNone_iff_eq_none.mp (List.all_eq_true.mp sound e member)
  refine Catalog.assembled_filters (c := Library.catalog) ?_ (by decide)
  apply Catalog.assembled_composites (c := ⟨Library.entries, Library.composites, []⟩) entered
  · intro composite member
    simp only [Library.catalog, Library.composites, List.mem_cons, List.not_mem_nil, or_false] at member
    rcases member with rfl | rfl | rfl | rfl | rfl <;> exact nofun
  · decide

end FlowMetering
