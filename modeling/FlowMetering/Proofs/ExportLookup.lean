import FlowMetering.Proofs.ExactSharing

/-! Looking exports up by their names. Each export has a register of its own that bears the name of its field, so that a name
leads to the first export that is called so. -/

namespace FlowMetering

variable {σ φ : Type} {catalog : Catalog σ φ} {limit : Nat} {s : Specification} {p : Program σ φ}

namespace Allocation

/-- Each export has a register of its own, which bears its name. -/
structure Labelled (a : Allocation σ) : Prop where
  borne : ∀ e ∈ a.exports, ∃ node, a.nodes[e.register]? = some node ∧ node.exported = some e.name
  apart : (a.exports.map (·.register)).Nodup

namespace Labelled

variable {a b : Allocation σ}

private theorem empty : Labelled (empty : Allocation σ) :=
  ⟨fun _ member => absurd member List.not_mem_nil, List.nodup_nil⟩

private theorem append (labelled : Labelled a) (nodes : ∃ more, b.nodes = a.nodes ++ more) (exports : b.exports = a.exports) :
    Labelled b := by
  obtain ⟨more, added⟩ := nodes
  refine ⟨fun e member => ?_, exports ▸ labelled.apart⟩
  obtain ⟨node, found, label⟩ := labelled.borne e (exports ▸ member)
  exact ⟨node, by rw [added, List.getElem?_append_left (List.getElem?_eq_some_iff.mp found).1, found], label⟩

private theorem addExport (labelled : Labelled a) {e : Export} (added : a.addExport e = .ok b) : Labelled b := by
  rw [Allocation.addExport] at added
  split at added
  next node found =>
    split at added
    next => cases added
    next free =>
      cases added
      have other : ∀ e' ∈ a.exports, e'.register ≠ e.register := by
        intro e' member same
        obtain ⟨node', found', label⟩ := labelled.borne e' member
        rw [same, found] at found'
        cases found'
        rw [label] at free
        exact free rfl
      refine ⟨List.forall_mem_append.mpr ⟨fun e' member => ?_, List.forall_mem_singleton.mpr ?_⟩, ?_⟩
      · obtain ⟨node', found', label⟩ := labelled.borne e' member
        exact ⟨node', (List.getElem?_set_ne (other e' member).symm).trans found', label⟩
      · exact ⟨_, List.getElem?_set_self (List.getElem?_eq_some_iff.mp found).1, rfl⟩
      · rw [List.map_append, List.map_singleton, List.nodup_append_comm, List.singleton_append, List.nodup_cons]
        refine ⟨fun member => ?_, labelled.apart⟩
        obtain ⟨e', inside, same⟩ := List.mem_map.mp member
        exact other e' inside same
  next =>
    cases added
    exact labelled

private theorem addField (labelled : Labelled a) {position : Nat} {field : Field (Typed σ)}
    (added : a.addField position field = .ok b) : Labelled b := by
  have grown := addTree_grown position field.tree a
  obtain ⟨more, nodes, -⟩ := grown.nodes
  have tree := labelled.append ⟨more, nodes⟩ grown.exports
  rw [addField_eq] at added
  split at added
  next => exact tree.addExport added
  next =>
    cases added
    exact tree

private theorem ofFields {fields : List (Field (Typed σ))} {controls : List (Registered σ)}
    (allocated : ofFields fields controls = .ok a) : Labelled a := by
  obtain ⟨made, added, whole⟩ := bind_eq_ok.mp allocated
  have controlled := addControls_controlled controls.zipIdx made
  rw [Except.ok.inj whole] at controlled
  obtain ⟨more, nodes, -⟩ := controlled.nodes
  have labelled : Labelled made := foldlM_keeps (fun _ _ _ labelled => labelled.addField) .empty added
  exact labelled.append ⟨more, nodes⟩ controlled.exports

end Labelled

end Allocation

namespace Program

def bearsName (p : Program σ φ) (name : String) (r : Nat) : Bool :=
  match p.node? r with
  | some node => node.exported == some name
  | none => false

theorem exportRegister?_eq_find? (name : String) : p.exportRegister? name = p.exports.find? (p.bearsName name) :=
  rfl

end Program

namespace Specification.Stages

private theorem exports_nodup (stages : Stages catalog limit s p) : p.exports.Nodup := by
  rw [Allocation.program_exports stages.finished]
  exact (Allocation.Labelled.ofFields stages.allocated).apart

theorem length_exports (stages : Stages catalog limit s p) : p.exports.length = p.fields.length := by
  rw [Allocation.program_exports stages.finished, Allocation.program_fields stages.finished, List.length_map, List.length_map]

/-- An exported register bears the name of its field. -/
theorem bears (stages : Stages catalog limit s p) {i r : Nat} (exported : p.exports[i]? = some r) :
    ∃ node name, p.nodes[r]? = some node ∧ p.fields[i]? = some name ∧ node.exported = some name := by
  rw [Allocation.program_exports stages.finished, List.getElem?_map] at exported
  obtain ⟨e, held, rfl⟩ := Option.map_eq_some_iff.mp exported
  obtain ⟨node, found, label⟩ :=
    (Allocation.Labelled.ofFields stages.allocated).borne e (List.mem_of_getElem? held)
  refine ⟨node, e.name, by rw [Allocation.program_nodes stages.finished, found], ?_, label⟩
  rw [Allocation.program_fields stages.finished, List.getElem?_map, held]
  rfl

private theorem exportRegister?_eq_some_iff (stages : Stages catalog limit s p) {name : String} {r : Nat} :
    p.exportRegister? name = some r ↔ ∃ i : Nat, p.exports[i]? = some r ∧ p.fields[i]? = some name ∧
      ∀ j, j < i → p.fields[j]? ≠ some name := by
  have bears {i r : Nat} (exported : p.exports[i]? = some r) :
      p.bearsName name r = true ↔ p.fields[i]? = some name := by
    obtain ⟨node, own, found, called, label⟩ := stages.bears exported
    rw [Program.bearsName, Program.node?, found, called]
    dsimp only
    rw [label, beq_iff_eq]
  rw [Program.exportRegister?_eq_find?, List.find?_eq_some_iff_getElem]
  constructor
  · rintro ⟨label, i, inside, rfl, before⟩
    have exported := List.getElem?_eq_getElem inside
    refine ⟨i, exported, (bears exported).mp label, fun j earlier called => ?_⟩
    have unlike := before j earlier
    rw [(bears (List.getElem?_eq_getElem _)).mpr called] at unlike
    cases unlike
  · rintro ⟨i, exported, called, before⟩
    obtain ⟨inside, rfl⟩ := List.getElem?_eq_some_iff.mp exported
    refine ⟨(bears exported).mpr called, i, inside, rfl, fun j earlier => ?_⟩
    rw [Bool.not_eq_true', Bool.eq_false_iff]
    exact fun label => before j earlier ((bears (List.getElem?_eq_getElem _)).mp label)

/-- The name of an export leads back to it exactly if no earlier export has the name. -/
theorem exportRegister?_own_iff (stages : Stages catalog limit s p) {i r : Nat} {name : String}
    (exported : p.exports[i]? = some r) (called : p.fields[i]? = some name) :
    p.exportRegister? name = some r ↔ ∀ j, j < i → p.fields[j]? ≠ some name := by
  rw [stages.exportRegister?_eq_some_iff]
  refine ⟨?_, fun before => ⟨i, exported, called, before⟩⟩
  rintro ⟨i', exported', -, before⟩
  have inside := (List.getElem?_eq_some_iff.mp exported).1
  obtain rfl := (List.getElem?_inj inside stages.exports_nodup).mp (exported.trans exported'.symm)
  exact before

end Specification.Stages

end FlowMetering
