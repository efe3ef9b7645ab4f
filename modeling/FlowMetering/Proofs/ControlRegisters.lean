import FlowMetering.Proofs.CompiledRegisters

/-! The registers of controls. They are allocated after those of the features, in the order of the controls, and no other
register reads them. -/

namespace FlowMetering

variable {σ φ : Type}

namespace Allocation

private theorem note_controls (a : Allocation σ) (signature : String) (r : Nat) : (a.note signature r).controls = a.controls := by
  rw [note]
  split <;> rfl

private theorem place_controls (a : Allocation σ) (node : Node σ) : (a.place node).1.controls = a.controls := by
  rw [place]
  split <;> rfl

mutual
private theorem addTree_controls (position : Nat) (tree : Typed σ) (a : Allocation σ) :
    (addTree position tree a).1.controls = a.controls := by
  cases tree with
  | raw mark => rfl
  | constant value => exact (note_controls _ _ _).trans (place_controls a _)
  | call typing args =>
    exact (note_controls _ _ _).trans ((place_controls _ _).trans (addTrees_controls position args a))
termination_by structural tree

private theorem addTrees_controls (position : Nat) (trees : List (Typed σ)) (a : Allocation σ) :
    (addTrees position trees a).1.controls = a.controls := by
  cases trees with
  | nil => rfl
  | cons tree trees => exact (addTrees_controls position trees _).trans (addTree_controls position tree a)
termination_by structural trees
end

private theorem addField_controls {a b : Allocation σ} {position : Nat} {field : Field (Typed σ)}
    (added : a.addField position field = .ok b) : b.controls = a.controls := by
  have kept := addTree_controls position field.tree a
  rw [addField_eq] at added
  split at added
  · rw [addExport] at added
    split at added
    · split at added
      · cases added
      · cases added
        exact kept
    · cases added
      exact kept
  · cases added
    exact kept

private theorem addFields_controls {fields : List (Field (Typed σ) × Nat)} {a b : Allocation σ}
    (added : fields.foldlM (fun a (field, i) => a.addField (i + 1) field) a = .ok b) : b.controls = a.controls :=
  @foldlM_keeps _ _ _ _ (fun made => made.controls = a.controls)
    (fun _ _ _ same added => (addField_controls added).trans same) _ _ _ rfl added

end Allocation

variable {catalog : Catalog σ φ} {limit : Nat} {s : Specification} {p : Program σ φ}

theorem Specification.compile_unread (compiled : s.compile catalog limit = .ok p) {c : Nat} (control : c ∈ p.controls) :
    p.dependents c = [] := by
  have ordered := compile_ordered compiled
  obtain ⟨stages⟩ := compile_stages compiled
  obtain ⟨made, done, rest⟩ := bind_eq_ok.mp stages.allocated
  have controlled := Allocation.addControls_controlled stages.controls.zipIdx made
  rw [Except.ok.inj rest] at controlled
  have above : made.nodes.length ≤ c := by
    rw [Allocation.program_controls stages.finished, controlled.controls, Allocation.addFields_controls done] at control
    exact (List.mem_range'_1.mp control).1
  apply List.eq_nil_iff_forall_not_mem.mpr
  intro d reads
  obtain ⟨node, found, member⟩ := Program.mem_arguments.mp (Program.mem_dependents.mp reads).2.2
  have later : c < d := ordered d node found _ member
  -- What comes after a control is a control, and reads the packets only.
  obtain ⟨more, added, kinds⟩ := controlled.nodes
  rw [Allocation.program_nodes stages.finished, added, List.getElem?_append_right (by omega)] at found
  obtain ⟨position, control, -, rfl⟩ := kinds node (List.mem_of_getElem? found)
  cases List.mem_singleton.mp member

end FlowMetering
