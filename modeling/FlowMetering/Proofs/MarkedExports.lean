import FlowMetering.Proofs.SharedRegisters

/-! Marks of exports. The registers that are marked are those of the fields allocated so far, so that a field finds its
register marked exactly if it repeats the shape of an earlier one. -/

namespace FlowMetering

namespace Allocation

open Typed

variable {σ φ : Type} {catalog : Catalog σ φ} {limit : Nat}

private theorem exists_mem_snoc {α : Type} {holds : α → Prop} {items : List α} {item : α} (refused : ¬holds item) :
    (∃ i ∈ items ++ [item], holds i) ↔ ∃ i ∈ items, holds i := by
  simp only [List.mem_append, List.mem_singleton, or_and_right, exists_or, exists_eq_left, or_iff_left refused]

/-- What allocating an expression adds to the registers: some that nobody exports. -/
structure Grown (a b : Allocation σ) : Prop where
  nodes : ∃ more, b.nodes = a.nodes ++ more ∧ ∀ node ∈ more, node.exported = none
  exports : b.exports = a.exports

private theorem Grown.refl (a : Allocation σ) : Grown a a :=
  ⟨⟨[], (List.append_nil _).symm, fun _ member => absurd member List.not_mem_nil⟩, rfl⟩

private theorem Grown.trans {a b c : Allocation σ} (first : Grown a b) (second : Grown b c) : Grown a c := by
  obtain ⟨more, added, unmarked⟩ := first.nodes
  obtain ⟨more', added', unmarked'⟩ := second.nodes
  exact ⟨⟨more ++ more', by rw [added', added, List.append_assoc], List.forall_mem_append.mpr ⟨unmarked, unmarked'⟩⟩,
    second.exports.trans first.exports⟩

private theorem place_grown (a : Allocation σ) {node : Node σ} (unmarked : node.exported = none) (signature : String) :
    Grown a ((a.place node).1.note signature (a.place node).2) := by
  have placed : Grown a (a.place node).1 := by
    rcases place_cases a node with ⟨r, found, same, -, -⟩ | ⟨same, -⟩ <;> rw [same]
    · exact .refl a
    · exact ⟨⟨[node], rfl, fun other member => by rw [List.mem_singleton.mp member, unmarked]⟩, rfl⟩
  refine ⟨by rw [note_nodes]; exact placed.nodes, ?_⟩
  rw [note]
  split <;> exact placed.exports

mutual
theorem addTree_grown (position : Nat) (tree : Typed σ) (a : Allocation σ) : Grown a (addTree position tree a).1 := by
  cases tree with
  | raw mark => exact .refl a
  | constant value => exact place_grown a rfl _
  | call typing args => exact (addTrees_grown position args a).trans (place_grown _ rfl _)
termination_by structural tree

private theorem addTrees_grown (position : Nat) (trees : List (Typed σ)) (a : Allocation σ) :
    Grown a (addTrees position trees a).1 := by
  cases trees with
  | nil => exact .refl a
  | cons tree trees => exact (addTree_grown position tree a).trans (addTrees_grown position trees _)
termination_by structural trees
end

structure Exposes (registers : List (String × Nat)) (e : Export) (field : Field (Typed σ)) : Prop where
  name : e.name = field.name
  declared : e.declared = field.declared
  denotes : Denotes registers (.register e.register) field.tree

/-- The registers marked as exported are those of some fields, and so are the exports. -/
structure Marked (catalog : Catalog σ φ) (limit : Nat) (a : Allocation σ) (fields : List (Field (Typed σ))) : Prop where
  keyed : Keyed catalog limit a
  typed : ∀ field ∈ fields, WellTyped catalog limit field.tree
  known : ∀ field ∈ fields, ∃ arg, Denotes a.registers arg field.tree
  marked : ∀ (r : Nat) (node : Node σ), a.nodes[r]? = some node →
    (node.exported.isSome = true ↔ ∃ field ∈ fields, Denotes a.registers (.register r) field.tree)
  exports : List.Forall₂ (Exposes a.registers) a.exports (fields.filter (!·.tree.isRaw))

/-- A field repeats an earlier one of its shape, if it is no bare raw input. -/
def Repeats (earlier : List (Field (Typed σ))) (field : Field (Typed σ)) : Prop :=
  field.tree.isRaw = false ∧ ∃ other ∈ earlier, other.tree.shape = field.tree.shape

theorem Marked.empty : Marked catalog limit (empty : Allocation σ) [] where
  keyed := .empty
  typed _ member := absurd member List.not_mem_nil
  known _ member := absurd member List.not_mem_nil
  marked _ _ found := nomatch found
  exports := .nil

private theorem Marked.grow {a : Allocation σ} {fields : List (Field (Typed σ))} (marked : Marked catalog limit a fields)
    (position : Nat) {tree : Typed σ} (typed : WellTyped catalog limit tree) :
    Marked catalog limit (addTree position tree a).1 fields := by
  have visited := addTree_visited position tree a marked.keyed typed
  refine ⟨visited.keyed, marked.typed, fun field member => ?_, fun r node found => ?_, ?_⟩
  · obtain ⟨arg, denotes⟩ := marked.known field member
    exact ⟨arg, denotes.mono visited.registers⟩
  · -- a field denotes one register before and after, and new registers are neither marked nor denoted
    have before {field : Field (Typed σ)} (member : field ∈ fields)
        (denotes : Denotes (addTree position tree a).1.registers (.register r) field.tree) :
        Denotes a.registers (.register r) field.tree := by
      obtain ⟨arg, known⟩ := marked.known field member
      have same := (visited.keyed.argument_eq_iff (known.mono visited.registers) denotes (marked.typed field member)
        (marked.typed field member)).mpr rfl
      exact same ▸ known
    obtain ⟨more, added, unmarked⟩ := (addTree_grown position tree a).nodes
    rw [added] at found
    by_cases inside : r < a.nodes.length
    · rw [List.getElem?_append_left inside] at found
      rw [marked.marked r node found]
      constructor
      · rintro ⟨field, member, denotes⟩
        exact ⟨field, member, denotes.mono visited.registers⟩
      · rintro ⟨field, member, denotes⟩
        exact ⟨field, member, before member denotes⟩
    · rw [List.getElem?_append_right (Nat.le_of_not_lt inside)] at found
      rw [unmarked node (List.mem_of_getElem? found)]
      refine ⟨nofun, ?_⟩
      rintro ⟨field, member, denotes⟩
      cases before member denotes with
      | register plain noted => exact absurd (marked.keyed.lt noted) inside
  · rw [(addTree_grown position tree a).exports]
    exact marked.exports.imp fun e field exposes =>
      ⟨exposes.name, exposes.declared, exposes.denotes.mono visited.registers⟩

private theorem Keyed.denotes_iff {a : Allocation σ} (keyed : Keyed catalog limit a) {arg : Argument} {tree other : Typed σ}
    (denotes : Denotes a.registers arg tree) (typed : WellTyped catalog limit tree)
    (typed' : WellTyped catalog limit other) : Denotes a.registers arg other ↔ other.shape = tree.shape := by
  rw [← typed'.signature_eq_iff typed]
  constructor
  · intro denotes'
    exact (keyed.argument_eq_iff denotes' denotes typed' typed).mp rfl
  · intro same
    exact denotes.of_signature_eq typed typed' same.symm

private theorem Marked.export {a : Allocation σ} {fields : List (Field (Typed σ))} (marked : Marked catalog limit a fields)
    {field : Field (Typed σ)} (typed : WellTyped catalog limit field.tree) {e : Export}
    (exposes : Exposes a.registers e field) {node : Node σ}
    (found : a.nodes[e.register]? = some node) :
    Marked catalog limit { a with
      nodes := a.nodes.set e.register { node with exported := some e.name }
      exports := a.exports ++ [e] } (fields ++ [field]) := by
  have inside := (List.getElem?_eq_some_iff.mp found).1
  have denotes := exposes.denotes
  have larger : Extends a.nodes (a.nodes.set e.register { node with exported := some e.name }) := by
    intro r other held
    by_cases here : e.register = r
    · subst here
      cases found.symm.trans held
      exact ⟨some e.name, List.getElem?_set_self inside⟩
    · exact ⟨other.exported, (List.getElem?_set_ne here).trans held⟩
  refine ⟨marked.keyed.mark larger List.length_set rfl, ?_, ?_, fun r other held => ?_, ?_⟩
  · exact List.forall_mem_append.mpr ⟨marked.typed, fun _ member => List.mem_singleton.mp member ▸ typed⟩
  · exact List.forall_mem_append.mpr ⟨marked.known, fun _ member => List.mem_singleton.mp member ▸ ⟨_, denotes⟩⟩
  · by_cases here : e.register = r
    · subst here
      rw [List.getElem?_set_self inside] at held
      cases held
      exact ⟨fun _ => ⟨field, List.mem_append_right _ (List.mem_singleton_self _), denotes⟩, fun _ => rfl⟩
    · rw [List.getElem?_set_ne here] at held
      rw [marked.marked r other held, exists_mem_snoc]
      intro denotes'
      have same := (marked.keyed.argument_eq_iff denotes denotes' typed typed).mpr rfl
      exact here (Argument.register.inj same)
  · have plain : field.tree.isRaw = false := by
      cases denotes with
      | register plain noted => exact plain
    rw [List.filter_append, List.filter_cons_of_pos (by rw [plain]; rfl), List.filter_nil]
    exact List.rel_append marked.exports (.cons exposes .nil)

/-- A field that repeats an earlier one is rejected, and any other is allocated and marked. -/
theorem addField_cases {a : Allocation σ} {fields : List (Field (Typed σ))} (marked : Marked catalog limit a fields)
    {field : Field (Typed σ)} (typed : WellTyped catalog limit field.tree) (position : Nat) :
    (¬Repeats fields field ∧ ∃ b, a.addField position field = .ok b ∧ Marked catalog limit b (fields ++ [field]) ∧
        Visited catalog limit a b (visits position field.tree a)) ∨
      (Repeats fields field ∧ a.addField position field = .error ⟨position, field.name, .duplicateExport⟩) := by
  have visited := addTree_visited position field.tree a marked.keyed typed
  have grown := marked.grow position typed
  have denotes := visited.denotes _ (mem_visits_self position field.tree a)
  rw [addField_eq]
  generalize reference : (addTree position field.tree a).2 = arg at denotes
  cases arg with
  | raw =>
    have raw : field.tree.isRaw = true := by
      generalize field.tree = tree at denotes
      cases denotes
      rfl
    refine .inl ⟨fun repeats => absurd (raw.symm.trans repeats.1) nofun, _, rfl, ?_, visited⟩
    refine ⟨visited.keyed, ?_, ?_, fun r node found => ?_, ?_⟩
    · exact List.forall_mem_append.mpr ⟨grown.typed, fun _ member => List.mem_singleton.mp member ▸ typed⟩
    · exact List.forall_mem_append.mpr ⟨grown.known, fun _ member => ⟨.raw, List.mem_singleton.mp member ▸ denotes⟩⟩
    · rw [grown.marked r node found, exists_mem_snoc]
      intro denotes'
      cases (visited.keyed.argument_eq_iff denotes denotes' typed typed).mpr rfl
    · rw [List.filter_append, List.filter_cons_of_neg (by rw [raw]; exact nofun), List.filter_nil, List.append_nil]
      exact grown.exports
  | register r =>
    obtain ⟨node, found, made⟩ := visited.keyed.made_of_denotes typed denotes
    have repeats : node.exported.isSome = true ↔ Repeats fields field := by
      rw [grown.marked r node found, Repeats]
      refine ⟨?_, ?_⟩
      · rintro ⟨other, member, denotes'⟩
        exact ⟨made.isRaw, other, member,
          (visited.keyed.denotes_iff denotes typed (grown.typed other member)).mp denotes'⟩
      · rintro ⟨-, other, member, same⟩
        exact ⟨other, member, (visited.keyed.denotes_iff denotes typed (grown.typed other member)).mpr same⟩
    dsimp only
    rw [addExport]
    dsimp only
    rw [found]
    dsimp only
    split
    next taken => exact .inr ⟨repeats.mp taken, rfl⟩
    next free =>
      have exported := grown.export (e := ⟨r, field.name, field.declared, position⟩) typed ⟨rfl, rfl, denotes⟩ found
      refine .inl ⟨fun again => free (repeats.mpr again), _, rfl, exported, ?_⟩
      exact ⟨exported.keyed, visited.registers, visited.typed, visited.denotes, visited.covered⟩

def fieldVisits (fields : List (Field (Typed σ) × Nat)) (a : Allocation σ) : List (Typed σ × Argument) :=
  match fields with
  | [] => []
  | (field, i) :: fields =>
    visits (i + 1) field.tree a ++
      match a.addField (i + 1) field with
      | .ok b => fieldVisits fields b
      | .error _ => []

/-- All fields are allocated, or the first one that repeats an earlier one is reported. -/
theorem addFields_cases {rest before : List (Field (Typed σ))} {a : Allocation σ}
    (marked : Marked catalog limit a before) (typed : ∀ field ∈ rest, WellTyped catalog limit field.tree) :
    (∃ b, (rest.zipIdx before.length).foldlM (fun a (field, i) => a.addField (i + 1) field) a = .ok b ∧
        Marked catalog limit b (before ++ rest) ∧
        Visited catalog limit a b (fieldVisits (rest.zipIdx before.length) a) ∧
        (fieldVisits (rest.zipIdx before.length) a).map (·.1) = rest.flatMap (·.tree.subtrees) ∧
        ∀ i field, before.length ≤ i → (before ++ rest)[i]? = some field → ¬Repeats ((before ++ rest).take i) field) ∨
      ∃ i field, before.length ≤ i ∧ (before ++ rest)[i]? = some field ∧ Repeats ((before ++ rest).take i) field ∧
        (∀ j other, before.length ≤ j → j < i → (before ++ rest)[j]? = some other →
          ¬Repeats ((before ++ rest).take j) other) ∧
        (rest.zipIdx before.length).foldlM (fun a (field, i) => a.addField (i + 1) field) a =
          .error ⟨i + 1, field.name, .duplicateExport⟩ := by
  induction rest generalizing before a with
  | nil =>
    refine .inl ⟨a, rfl, by rwa [List.append_nil], .refl marked.keyed, rfl, fun i field behind found => ?_⟩
    rw [List.append_nil] at found
    exact absurd (List.getElem?_eq_some_iff.mp found).1 (Nat.not_lt.mpr behind)
  | cons field rest ih =>
    rw [List.forall_mem_cons] at typed
    have here : (before ++ field :: rest)[before.length]? = some field := by simp
    have front : (before ++ field :: rest).take before.length = before := List.take_left
    have onward : before ++ field :: rest = before ++ [field] ++ rest := List.append_cons ..
    rw [List.zipIdx_cons, List.foldlM_cons]
    dsimp only
    rcases addField_cases marked typed.1 (before.length + 1) with ⟨fresh, b, added, next, visited⟩ | ⟨repeats, failed⟩
    · have passed {i : Nat} {other : Field (Typed σ)} (behind : before.length ≤ i)
          (found : (before ++ field :: rest)[i]? = some other) :
          (i = before.length ∧ other = field) ∨ (before ++ [field]).length ≤ i := by
        rcases Nat.lt_or_eq_of_le behind with later | rfl
        · rw [List.length_append, List.length_singleton]
          exact .inr later
        · exact .inl ⟨rfl, Option.some.inj (found.symm.trans here)⟩
      have steps := ih next typed.2
      rw [List.length_append, List.length_singleton, ← onward] at steps
      rw [added, fieldVisits, added]
      rcases steps with ⟨c, done, last, others, trees, none⟩ | ⟨i, other, behind, found, repeats, none, failed⟩
      · refine .inl ⟨c, done, last, visited.trans others, ?_, fun i other behind found => ?_⟩
        · rw [List.map_append, visits_trees, List.flatMap_cons, trees]
        · rcases passed behind found with ⟨rfl, rfl⟩ | later
          · rw [front]
            exact fresh
          · rw [List.length_append, List.length_singleton] at later
            exact none i other later found
      · refine .inr ⟨i, other, Nat.le_of_succ_le behind, found, repeats, fun j earlier behind' before' found' => ?_, failed⟩
        rcases passed behind' found' with ⟨rfl, rfl⟩ | later
        · rw [front]
          exact fresh
        · rw [List.length_append, List.length_singleton] at later
          exact none j earlier later before' found'
    · rw [failed]
      refine .inr ⟨before.length, field, Nat.le_refl _, here, by rwa [front], fun j _ behind before' _ => ?_, rfl⟩
      exact absurd before' (Nat.not_lt.mpr behind)

end Allocation

end FlowMetering
