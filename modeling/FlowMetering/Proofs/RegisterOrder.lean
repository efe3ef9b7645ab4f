import FlowMetering.Proofs.Stages

/-! Values flow in one direction. The arguments of a call are allocated before the call, so in a compiled
program every register reads smaller registers only, and its dependents are greater. -/

namespace FlowMetering

/-- An argument that refers to one of the first `bound` registers, or to none. -/
def Argument.Below (bound : Nat) : Argument → Prop
  | .raw => True
  | .register r => r < bound

theorem Argument.Below.mono {small large : Nat} (le : small ≤ large) {arg : Argument} (below : arg.Below small) :
    arg.Below large := by
  cases arg with
  | raw => trivial
  | register r => exact Nat.lt_of_lt_of_le below le

def Program.Ordered {σ φ : Type} (p : Program σ φ) : Prop :=
  ∀ (r : Nat) (node : Node σ), p.nodes[r]? = some node → ∀ arg ∈ node.args, arg.Below r

namespace Allocation

variable {σ φ : Type}

def Ordered (a : Allocation σ) : Prop :=
  ∀ (r : Nat) (node : Node σ), a.nodes[r]? = some node → ∀ arg ∈ node.args, arg.Below r

/-- The registers of an allocation are in order, and there are at least `bound` of them. -/
structure Sound (a : Allocation σ) (bound : Nat) : Prop where
  ordered : a.Ordered
  size : bound ≤ a.nodes.length

theorem addTree_constant (position : Nat) (value : Value) (a : Allocation σ) :
    addTree position (.constant value) a =
      ((a.place (constantNode position value)).1.note (Typed.constantKey value) (a.place (constantNode position value)).2,
       .register (a.place (constantNode position value)).2) := rfl

theorem addTree_call (position : Nat) (typing : Typing σ) (args : List (Typed σ)) (a : Allocation σ) :
    addTree position (.call typing args) a =
      (((addTrees position args a).1.place (callNode position typing (Typed.text (.call typing args))
          (addTrees position args a).2)).1.note typing.signature
        ((addTrees position args a).1.place (callNode position typing (Typed.text (.call typing args))
          (addTrees position args a).2)).2,
       .register ((addTrees position args a).1.place (callNode position typing (Typed.text (.call typing args))
          (addTrees position args a).2)).2) := rfl

@[simp] theorem note_nodes (a : Allocation σ) (signature : String) (r : Nat) :
    (a.note signature r).nodes = a.nodes := by
  unfold note
  split <;> rfl

private theorem append_ordered {nodes : List (Node σ)} {node : Node σ}
    (ordered : ∀ (r : Nat) (node : Node σ), nodes[r]? = some node → ∀ arg ∈ node.args, arg.Below r)
    (fits : ∀ arg ∈ node.args, arg.Below nodes.length) :
    ∀ (r : Nat) (found : Node σ), (nodes ++ [node])[r]? = some found → ∀ arg ∈ found.args, arg.Below r := by
  intro r found held arg member
  rcases Nat.lt_trichotomy r nodes.length with inside | rfl | beyond
  · rw [List.getElem?_append_left inside] at held
    exact ordered r found held arg member
  · rw [List.getElem?_concat_length] at held
    cases held
    exact fits arg member
  · rw [List.getElem?_eq_none (by simp; omega)] at held
    cases held

theorem place_sound {a : Allocation σ} (node : Node σ) (sound : a.Sound a.nodes.length)
    (fits : ∀ arg ∈ node.args, arg.Below a.nodes.length) :
    (a.place node).1.Sound a.nodes.length ∧ (a.place node).2 < (a.place node).1.nodes.length := by
  unfold place
  split
  next r found => exact ⟨sound, (List.findIdx?_eq_some_iff_getElem.mp found).1⟩
  next => exact ⟨⟨append_ordered sound.ordered fits, by simp⟩, by simp⟩

mutual
theorem addTree_sound (position : Nat) : ∀ (tree : Typed σ) (a : Allocation σ), a.Ordered →
    (addTree position tree a).1.Sound a.nodes.length ∧
      (addTree position tree a).2.Below (addTree position tree a).1.nodes.length
  | .raw _, a, ordered => ⟨⟨ordered, Nat.le_refl _⟩, trivial⟩
  | .constant value, a, ordered => by
    have placed := place_sound (a := a) (constantNode position value) ⟨ordered, Nat.le_refl _⟩
      (fun _ member => nomatch member)
    refine ⟨⟨?_, ?_⟩, ?_⟩
    · simpa only [Ordered, addTree, note_nodes] using placed.1.ordered
    · simpa only [addTree, note_nodes] using placed.1.size
    · simpa only [addTree, note_nodes, Argument.Below] using placed.2
  | .call typing args, a, ordered => by
    obtain ⟨before, references⟩ := addTrees_sound position args a ordered
    have placed := place_sound (callNode position typing (Typed.text (.call typing args))
      (addTrees position args a).2) ⟨before.ordered, Nat.le_refl _⟩ references
    rw [addTree_call]
    refine ⟨⟨?_, ?_⟩, ?_⟩
    · simpa only [Ordered, note_nodes] using placed.1.ordered
    · simpa only [note_nodes] using Nat.le_trans before.size placed.1.size
    · simpa only [note_nodes, Argument.Below] using placed.2
termination_by structural tree => tree

theorem addTrees_sound (position : Nat) : ∀ (trees : List (Typed σ)) (a : Allocation σ), a.Ordered →
    (addTrees position trees a).1.Sound a.nodes.length ∧
      ∀ arg ∈ (addTrees position trees a).2, arg.Below (addTrees position trees a).1.nodes.length
  | [], a, ordered => ⟨⟨ordered, Nat.le_refl _⟩, fun _ member => nomatch member⟩
  | tree :: trees, a, ordered => by
    obtain ⟨first, reference⟩ := addTree_sound position tree a ordered
    obtain ⟨rest, references⟩ := addTrees_sound position trees (addTree position tree a).1 first.ordered
    refine ⟨⟨rest.ordered, Nat.le_trans first.size rest.size⟩, ?_⟩
    intro arg member
    rcases List.mem_cons.mp member with rfl | member
    · exact reference.mono rest.size
    · exact references arg member
termination_by structural trees => trees
end

private theorem addExport_ordered {a b : Allocation σ} {e : Export} (ordered : a.Ordered)
    (exported : a.addExport e = .ok b) : b.Ordered := by
  unfold addExport at exported
  split at exported
  next node held =>
    split at exported
    · cases exported
    · cases exported
      intro r found stored
      rw [List.getElem?_set] at stored
      split at stored
      next same =>
        subst same
        split at stored
        · cases stored
          exact ordered _ node held
        · cases stored
      next => exact ordered r found stored
  next =>
    cases exported
    exact ordered

theorem addField_eq (a : Allocation σ) (position : Nat) (field : Field (Typed σ)) :
    a.addField position field =
      match (addTree position field.tree a).2 with
      | .register r => (addTree position field.tree a).1.addExport ⟨r, field.name, field.declared, position⟩
      | .raw => .ok (addTree position field.tree a).1 := rfl

theorem addField_ordered {a b : Allocation σ} {position : Nat} {field : Field (Typed σ)} (ordered : a.Ordered)
    (added : a.addField position field = .ok b) : b.Ordered := by
  have sound := addTree_sound position field.tree a ordered
  rw [addField_eq] at added
  split at added
  · exact addExport_ordered sound.1.ordered added
  · cases added
    exact sound.1.ordered

private theorem addControl_ordered {a : Allocation σ} (position : Nat) (control : Registered σ) (ordered : a.Ordered) :
    (a.addControl position control).Ordered := by
  unfold addControl
  dsimp only
  split
  · exact ordered
  · apply append_ordered ordered
    intro arg member
    rw [List.mem_singleton.mp member]
    trivial

private theorem addFields_ordered {fields : List (Field (Typed σ) × Nat)} {a b : Allocation σ} (ordered : a.Ordered)
    (added : fields.foldlM (fun a field => a.addField (field.2 + 1) field.1) a = .ok b) : b.Ordered :=
  foldlM_keeps (fun _ _ _ ordered => addField_ordered ordered) ordered added

private theorem addControls_ordered (controls : List (Registered σ × Nat)) {a : Allocation σ} (ordered : a.Ordered) :
    (controls.foldl (fun a control => a.addControl (control.2 + 1) control.1) a).Ordered := by
  induction controls generalizing a with
  | nil => exact ordered
  | cons control controls ih => exact ih (addControl_ordered _ _ ordered)

private theorem ofFields_ordered {fields : List (Field (Typed σ))} {controls : List (Registered σ)} {a : Allocation σ}
    (allocated : ofFields fields controls = .ok a) : a.Ordered := by
  obtain ⟨middle, added, rest⟩ := bind_eq_ok.mp allocated
  cases rest
  exact addControls_ordered _ (addFields_ordered (fun _ _ held => by simp [empty] at held) added)

theorem program_nodes {a : Allocation σ} {limit : Nat} {filters : List (String × φ)} {p : Program σ φ}
    (finished : a.program limit filters = .ok p) : p.nodes = a.nodes := by
  obtain ⟨template, _, rest⟩ := bind_eq_ok.mp finished
  cases rest
  rfl

theorem program_controls {a : Allocation σ} {limit : Nat} {filters : List (String × φ)} {p : Program σ φ}
    (finished : a.program limit filters = .ok p) : p.controls = a.controls := by
  obtain ⟨template, _, rest⟩ := bind_eq_ok.mp finished
  cases rest
  rfl

theorem program_exports {a : Allocation σ} {limit : Nat} {filters : List (String × φ)} {p : Program σ φ}
    (finished : a.program limit filters = .ok p) : p.exports = a.exports.map (·.register) := by
  obtain ⟨template, _, rest⟩ := bind_eq_ok.mp finished
  cases rest
  rfl

theorem program_fields {a : Allocation σ} {limit : Nat} {filters : List (String × φ)} {p : Program σ φ}
    (finished : a.program limit filters = .ok p) : p.fields = a.exports.map (·.name) := by
  obtain ⟨template, _, rest⟩ := bind_eq_ok.mp finished
  cases rest
  rfl

end Allocation

theorem Specification.compile_ordered {σ φ : Type} {catalog : Catalog σ φ} {limit : Nat} {s : Specification}
    {p : Program σ φ} (compiled : s.compile catalog limit = .ok p) : p.Ordered := by
  obtain ⟨stages⟩ := compile_stages compiled
  intro r node held
  rw [Allocation.program_nodes stages.finished] at held
  exact Allocation.ofFields_ordered stages.allocated r node held

namespace Program

variable {σ φ : Type} {p : Program σ φ}

theorem mem_arguments {r q : Nat} :
    q ∈ p.arguments r ↔ ∃ node, p.nodes[r]? = some node ∧ .register q ∈ node.args := by
  unfold arguments node?
  cases p.nodes[r]? with
  | none => simp
  | some node =>
    simp only [Node.arguments, List.mem_filterMap, Option.some.injEq, exists_eq_left']
    constructor
    · rintro ⟨arg, member, same⟩
      cases arg with
      | raw => cases same
      | register q => cases same; exact member
    · exact fun member => ⟨_, member, rfl⟩

theorem mem_dependents {r d : Nat} :
    d ∈ p.dependents r ↔ p.isConstant r = false ∧ d < p.size ∧ r ∈ p.arguments d := by
  unfold dependents
  split
  next constant => simp [constant]
  next changing => simp [changing]

theorem dependents_ascending (p : Program σ φ) (r : Nat) : (p.dependents r).Pairwise (· < ·) := by
  unfold dependents
  split
  · exact .nil
  · exact List.pairwise_lt_range.filter _

theorem lt_of_mem_events {r : Nat} (member : r ∈ p.events) : r < p.size :=
  List.mem_range.mp (List.mem_of_mem_filter member)

theorem mem_events {r : Nat} {node : Node σ} (found : p.nodes[r]? = some node) :
    r ∈ p.events ↔ node.isControl = false ∧ (.raw ∈ node.args ∨ p.isClocked node = true) := by
  have inside : r < p.size := (List.getElem?_eq_some_iff.mp found).1
  simp [events, node?, found, inside, Node.consumesRaw]

theorem Ordered.lt_of_dependent (ordered : p.Ordered) {r d : Nat} (dependent : d ∈ p.dependents r) : r < d := by
  obtain ⟨_, _, reads⟩ := mem_dependents.mp dependent
  obtain ⟨node, held, member⟩ := mem_arguments.mp reads
  exact ordered d node held _ member

end Program

end FlowMetering
