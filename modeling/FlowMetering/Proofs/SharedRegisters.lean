import FlowMetering.Proofs.Shapes

/-! Sharing of registers. While expressions are allocated, signatures and registers go together one to one, and the key
of a register is equal to that of another exactly if their signatures are. So two expressions share a register if they
have one shape, and only then. -/

namespace FlowMetering.Allocation

open Typed

variable {σ φ : Type} {catalog : Catalog σ φ} {limit : Nat}

/-- An argument stands for an expression by the signature under which the expression has been noted. -/
inductive Denotes (registers : List (String × Nat)) : Argument → Typed σ → Prop
  | raw (mark : Kind) : Denotes registers .raw (.raw mark)
  | register {r : Nat} {tree : Typed σ} (plain : tree.isRaw = false) (noted : (tree.signature, r) ∈ registers) :
    Denotes registers (.register r) tree

inductive Made (registers : List (String × Nat)) (node : Node σ) : Typed σ → Prop
  | constant {value : Value} (plain : node.isControl = false) (type : node.type = Typed.type (.constant value : Typed σ))
    (known : node.constant = some value) (args : node.args = []) (entry : node.entry = none)
    (key : node.key = constantKey value) : Made registers node (.constant value)
  | call {typing : Typing σ} {args : List (Typed σ)} (plain : node.isControl = false) (type : node.type = typing.type)
    (varies : node.constant = none) (entry : node.entry = some typing.binding.chosen)
    (key : node.key = callKey typing.binding.chosen (node.args.map argumentKey))
    (each : List.Forall₂ (Denotes registers) node.args args) : Made registers node (.call typing args)

/-- Signatures are numbered like registers, each with the register that has been made for it. -/
structure Keyed (catalog : Catalog σ φ) (limit : Nat) (a : Allocation σ) : Prop where
  numbered : a.registers.map (·.2) = List.range a.nodes.length
  distinct : (a.registers.map (·.1)).Nodup
  made : ∀ signature r, (signature, r) ∈ a.registers → ∃ (tree : Typed σ) (node : Node σ),
    WellTyped catalog limit tree ∧ tree.signature = signature ∧ a.nodes[r]? = some node ∧ Made a.registers node tree

theorem Keyed.empty : Keyed catalog limit (empty : Allocation σ) where
  numbered := rfl
  distinct := List.nodup_nil
  made _ _ member := absurd member List.not_mem_nil

theorem Denotes.mono {registers more : List (String × Nat)} (larger : registers ⊆ more) {arg : Argument} {tree : Typed σ}
    (denotes : Denotes registers arg tree) : Denotes more arg tree := by
  cases denotes with
  | raw mark => exact .raw mark
  | register plain noted => exact .register plain (larger noted)

theorem Denotes.exists_register {registers : List (String × Nat)} {arg : Argument} {tree : Typed σ}
    (denotes : Denotes registers arg tree) (plain : tree.isRaw = false) : ∃ r, arg = .register r := by
  cases denotes with
  | raw mark => cases plain
  | register plain noted => exact ⟨_, rfl⟩

private theorem Made.mono {registers more : List (String × Nat)} (larger : registers ⊆ more) {node : Node σ} {tree : Typed σ}
    (made : Made registers node tree) (mark : Option String) : Made more { node with exported := mark } tree := by
  cases made with
  | constant plain type known args entry key => exact .constant plain type known args entry key
  | call plain type varies entry key each =>
    exact .call plain type varies entry key (each.imp fun _ _ denotes => denotes.mono larger)

theorem Made.isRaw {registers : List (String × Nat)} {node : Node σ} {tree : Typed σ} (made : Made registers node tree) :
    tree.isRaw = false := by
  cases made <;> rfl

theorem Made.isControl {registers : List (String × Nat)} {node : Node σ} {tree : Typed σ}
    (made : Made registers node tree) : node.isControl = false := by
  cases made with
  | constant plain type known args entry key => exact plain
  | call plain type varies entry key each => exact plain

private theorem signature_ne_raw {tree : Typed σ} (typed : WellTyped catalog limit tree) (plain : tree.isRaw = false) :
    tree.signature ≠ "raw" := by
  intro same
  have shapes : tree.shape = Typed.shape (.raw .rawPacket : Typed σ) :=
    (typed.signature_eq_iff (.raw .rawPacket)).mp same
  cases tree with
  | raw mark => cases plain
  | constant value => cases shapes
  | call typing args =>
    rw [Typed.shape, erase_call, Bound.shape_call] at shapes
    cases shapes

namespace Keyed

variable {a : Allocation σ} (keyed : Keyed catalog limit a)
include keyed

theorem lt {signature : String} {r : Nat} (noted : (signature, r) ∈ a.registers) : r < a.nodes.length := by
  apply List.mem_range.mp
  rw [← keyed.numbered]
  exact List.mem_map.mpr ⟨_, noted, rfl⟩

theorem exists_signature {r : Nat} (inside : r < a.nodes.length) : ∃ signature, (signature, r) ∈ a.registers := by
  have member : r ∈ a.registers.map (·.2) := by
    rw [keyed.numbered]
    exact List.mem_range.mpr inside
  obtain ⟨⟨signature, _⟩, noted, rfl⟩ := List.mem_map.mp member
  exact ⟨signature, noted⟩

private theorem register_inj {signature : String} {r r' : Nat} (noted : (signature, r) ∈ a.registers)
    (noted' : (signature, r') ∈ a.registers) : r = r' :=
  congrArg Prod.snd (List.inj_on_of_nodup_map keyed.distinct noted noted' rfl)

private theorem signature_inj {signature signature' : String} {r : Nat} (noted : (signature, r) ∈ a.registers)
    (noted' : (signature', r) ∈ a.registers) : signature = signature' := by
  have distinct : (a.registers.map (·.2)).Nodup := by
    rw [keyed.numbered]
    exact List.nodup_range
  exact congrArg Prod.fst (List.inj_on_of_nodup_map distinct noted noted' rfl)

/-- Expressions are referred to alike exactly if their signatures are equal. -/
theorem argument_eq_iff {arg arg' : Argument} {tree tree' : Typed σ} (denotes : Denotes a.registers arg tree)
    (denotes' : Denotes a.registers arg' tree') (typed : WellTyped catalog limit tree)
    (typed' : WellTyped catalog limit tree') : arg = arg' ↔ tree.signature = tree'.signature := by
  cases denotes with
  | raw mark =>
    cases denotes' with
    | raw mark' => exact ⟨fun _ => rfl, fun _ => rfl⟩
    | register plain noted => exact ⟨nofun, fun same => absurd same.symm (signature_ne_raw typed' plain)⟩
  | register plain noted =>
    cases denotes' with
    | raw mark' => exact ⟨nofun, fun same => absurd same (signature_ne_raw typed plain)⟩
    | register plain' noted' =>
      constructor
      · intro same
        cases same
        exact keyed.signature_inj noted noted'
      · intro same
        rw [same] at noted
        rw [keyed.register_inj noted noted']

private theorem arguments_eq_iff {args args' : List Argument} {trees trees' : List (Typed σ)}
    (each : List.Forall₂ (Denotes a.registers) args trees) (each' : List.Forall₂ (Denotes a.registers) args' trees')
    (typed : ∀ tree ∈ trees, WellTyped catalog limit tree) (typed' : ∀ tree ∈ trees', WellTyped catalog limit tree) :
    args = args' ↔ trees.map signature = trees'.map signature := by
  induction each generalizing args' trees' with
  | nil =>
    cases each' with
    | nil => exact ⟨fun _ => rfl, fun _ => rfl⟩
    | cons first rest => exact ⟨nofun, nofun⟩
  | cons first rest ih =>
    cases each' with
    | nil => exact ⟨nofun, nofun⟩
    | cons first' rest' =>
      rw [List.forall_mem_cons] at typed typed'
      rw [List.map_cons, List.map_cons, List.cons_eq_cons, List.cons_eq_cons,
        keyed.argument_eq_iff first first' typed.1 typed'.1, ih rest' typed.2 typed'.2]

private theorem key_eq_iff {node node' : Node σ} {tree tree' : Typed σ} (made : Made a.registers node tree)
    (made' : Made a.registers node' tree') (typed : WellTyped catalog limit tree)
    (typed' : WellTyped catalog limit tree') : node.key = node'.key ↔ tree.signature = tree'.signature := by
  have mixed {value : Value} (typed : WellTyped catalog limit (.constant value : Typed σ)) {typing : Typing σ}
      {args : List (Typed σ)} (typed' : WellTyped catalog limit (.call typing args)) :
      constantKey value ≠ typing.signature := by
    intro same
    have shapes := (typed.signature_eq_iff typed').mp same
    rw [Typed.shape, Typed.shape, erase_call, Bound.shape_call] at shapes
    cases shapes
  cases made with
  | constant plain type known args entry key =>
    cases made' with
    | constant plain' type' known' args' entry' key' =>
      rw [key, key']
      exact Iff.rfl
    | call plain' type' varies' entry' key' each' =>
      rw [key, key']
      refine ⟨fun same => ?_, fun same => absurd same (mixed typed typed')⟩
      cases typed with
      | constant scalar => exact absurd same (constantKey_ne_callKey scalar _ _)
  | call plain type varies entry key each =>
    cases made' with
    | constant plain' type' known' args' entry' key' =>
      rw [key, key']
      refine ⟨fun same => ?_, fun same => absurd same.symm (mixed typed' typed)⟩
      cases typed' with
      | constant scalar => exact absurd same.symm (constantKey_ne_callKey scalar _ _)
    | call plain' type' varies' entry' key' each' =>
      rw [key, key']
      have arguments := keyed.arguments_eq_iff each each' (fun _ => typed.arg) (fun _ => typed'.arg)
      refine Iff.trans ?_ (typed.call_signature_eq_iff typed').symm
      rw [← arguments]
      constructor
      · exact callKey_inj typed.drawn.head typed'.drawn.head
      · rintro ⟨chosen, same⟩
        rw [chosen, same]

/-- Every register has been made for the expression whose signature it is noted under. -/
theorem made_of_lt {r : Nat} (inside : r < a.nodes.length) : ∃ (tree : Typed σ) (node : Node σ),
    WellTyped catalog limit tree ∧ (tree.signature, r) ∈ a.registers ∧ a.nodes[r]? = some node ∧
      Made a.registers node tree := by
  obtain ⟨signature, noted⟩ := keyed.exists_signature inside
  obtain ⟨tree, node, typed, rfl, found, made⟩ := keyed.made signature r noted
  exact ⟨tree, node, typed, noted, found, made⟩

end Keyed

private theorem note_known {a : Allocation σ} {signature : String} {r : Nat} (noted : (signature, r) ∈ a.registers) (r' : Nat) :
    a.note signature r' = a := by
  rw [note, if_pos]
  exact List.any_eq_true.mpr ⟨_, noted, beq_self_eq_true signature⟩

private theorem note_new {a : Allocation σ} {signature : String} (new : ∀ r, (signature, r) ∉ a.registers) (r : Nat) :
    a.note signature r = { a with registers := a.registers ++ [(signature, r)] } := by
  rw [note, if_neg]
  intro known
  obtain ⟨⟨_, r'⟩, noted, same⟩ := List.any_eq_true.mp known
  obtain rfl := eq_of_beq same
  exact new r' noted

private theorem Keyed.append {a : Allocation σ} (keyed : Keyed catalog limit a) {node : Node σ} {tree : Typed σ}
    (typed : WellTyped catalog limit tree) (made : Made a.registers node tree)
    (new : ∀ r, (tree.signature, r) ∉ a.registers) :
    Keyed catalog limit
      { a with nodes := a.nodes ++ [node], registers := a.registers ++ [(tree.signature, a.nodes.length)] } := by
  have larger : a.registers ⊆ a.registers ++ [(tree.signature, a.nodes.length)] := List.subset_append_left _ _
  constructor
  · dsimp only
    rw [List.map_append, keyed.numbered, List.length_append, List.length_singleton, List.range_succ]
    rfl
  · dsimp only
    rw [List.map_append, List.map_singleton]
    refine keyed.distinct.append (List.nodup_singleton _) ?_
    intro signature known own
    obtain ⟨⟨_, r⟩, noted, rfl⟩ := List.mem_map.mp known
    rw [List.mem_singleton] at own
    dsimp only at own
    exact new r (own ▸ noted)
  · intro signature r noted
    rcases List.mem_append.mp noted with noted | noted
    · obtain ⟨tree', node', typed', same, found, made'⟩ := keyed.made signature r noted
      refine ⟨tree', node', typed', same, ?_, made'.mono larger node'.exported⟩
      exact (List.getElem?_append_left (keyed.lt noted)).trans found
    · cases List.mem_singleton.mp noted
      exact ⟨tree, node, typed, rfl, List.getElem?_concat_length, made.mono larger node.exported⟩

mutual
/-- All occurrences of expressions in an expression, arguments first, and how the users of each refer to it. -/
def visits (position : Nat) (tree : Typed σ) (a : Allocation σ) : List (Typed σ × Argument) :=
  match tree with
  | .raw mark => [(.raw mark, (addTree position (.raw mark) a).2)]
  | .constant value => [(.constant value, (addTree position (.constant value) a).2)]
  | .call typing args =>
    visitsAll position args a ++ [(.call typing args, (addTree position (.call typing args) a).2)]
termination_by structural tree

def visitsAll (position : Nat) (trees : List (Typed σ)) (a : Allocation σ) : List (Typed σ × Argument) :=
  match trees with
  | [] => []
  | tree :: trees => visits position tree a ++ visitsAll position trees (addTree position tree a).1
termination_by structural trees
end

mutual
theorem visits_trees (position : Nat) (tree : Typed σ) (a : Allocation σ) :
    (visits position tree a).map (·.1) = tree.subtrees := by
  cases tree with
  | raw mark => rfl
  | constant value => rfl
  | call typing args => rw [visits, List.map_append, visitsAll_trees position args a, Tree.subtrees, List.map_singleton]
termination_by structural tree

private theorem visitsAll_trees (position : Nat) (trees : List (Typed σ)) (a : Allocation σ) :
    (visitsAll position trees a).map (·.1) = Tree.allSubtrees trees := by
  cases trees with
  | nil => rfl
  | cons tree trees =>
    rw [visitsAll, List.map_append, visits_trees position tree a, visitsAll_trees position trees _, Tree.allSubtrees]
termination_by structural trees
end

theorem mem_visits_self (position : Nat) (tree : Typed σ) (a : Allocation σ) :
    (tree, (addTree position tree a).2) ∈ visits position tree a := by
  cases tree with
  | raw mark | constant value => exact List.mem_singleton_self _
  | call typing args => exact List.mem_append_right _ (List.mem_singleton_self _)

/-- What visiting some occurrences leads to: every one is denoted by its argument, and nothing else has been noted. -/
structure Visited (catalog : Catalog σ φ) (limit : Nat) (a b : Allocation σ) (visits : List (Typed σ × Argument)) :
    Prop where
  keyed : Keyed catalog limit b
  registers : a.registers ⊆ b.registers
  typed : ∀ visit ∈ visits, WellTyped catalog limit visit.1
  denotes : ∀ visit ∈ visits, Denotes b.registers visit.2 visit.1
  covered : ∀ signature r, (signature, r) ∈ b.registers →
    (signature, r) ∈ a.registers ∨ ∃ visit ∈ visits, visit.2 = .register r ∧ visit.1.signature = signature

theorem Visited.refl {a : Allocation σ} (keyed : Keyed catalog limit a) : Visited catalog limit a a [] :=
  ⟨keyed, List.Subset.refl _, fun _ member => absurd member List.not_mem_nil,
    fun _ member => absurd member List.not_mem_nil, fun _ _ noted => .inl noted⟩

theorem Visited.trans {a b c : Allocation σ} {front back : List (Typed σ × Argument)}
    (first : Visited catalog limit a b front) (second : Visited catalog limit b c back) :
    Visited catalog limit a c (front ++ back) where
  keyed := second.keyed
  registers := List.Subset.trans first.registers second.registers
  typed := List.forall_mem_append.mpr ⟨first.typed, second.typed⟩
  denotes := List.forall_mem_append.mpr
    ⟨fun visit member => (first.denotes visit member).mono second.registers, second.denotes⟩
  covered signature r noted := by
    rcases second.covered signature r noted with noted | ⟨visit, member, found⟩
    · rcases first.covered signature r noted with noted | ⟨visit, member, found⟩
      · exact .inl noted
      · exact .inr ⟨visit, List.mem_append_left _ member, found⟩
    · exact .inr ⟨visit, List.mem_append_right _ member, found⟩

/-- A node gets the register that has been noted under its signature, or else a new one that is then noted. -/
private theorem place_visited {a : Allocation σ} (node : Node σ) (keyed : Keyed catalog limit a) {tree : Typed σ}
    (typed : WellTyped catalog limit tree) (made : Made a.registers node tree) :
    Visited catalog limit a ((a.place node).1.note tree.signature (a.place node).2)
      [(tree, .register (a.place node).2)] := by
  have only {b : Allocation σ} {r : Nat} (noted : (tree.signature, r) ∈ b.registers) :
      ∀ visit ∈ [(tree, Argument.register r)], Denotes b.registers visit.2 visit.1 := by
    intro visit member
    rw [List.mem_singleton.mp member]
    exact .register made.isRaw noted
  have known {r : Nat} : ∀ visit ∈ [(tree, Argument.register r)], WellTyped catalog limit visit.1 := by
    intro visit member
    rw [List.mem_singleton.mp member]
    exact typed
  rcases place_cases a node with ⟨r, found, same, held, key⟩ | ⟨same, fresh⟩
  · rw [same]
    dsimp only
    obtain ⟨tree', node', typed', noted, held', made'⟩ :=
      keyed.made_of_lt (List.getElem?_eq_some_iff.mp held).1
    cases held.symm.trans held'
    rw [(keyed.key_eq_iff made' made typed' typed).mp key] at noted
    rw [note_known noted]
    exact ⟨keyed, List.Subset.refl _, known, only noted, fun _ _ noted => .inl noted⟩
  · rw [same]
    dsimp only
    have new : ∀ r, (tree.signature, r) ∉ a.registers := by
      intro r noted
      obtain ⟨tree', node', typed', signatures, held, made'⟩ := keyed.made _ r noted
      apply fresh
      rw [(keyed.key_eq_iff made made' typed typed').mpr signatures.symm]
      exact List.mem_map.mpr ⟨node', List.mem_of_getElem? held, rfl⟩
    rw [note_new (a := { a with nodes := a.nodes ++ [node] }) new]
    refine ⟨keyed.append typed made new, List.subset_append_left _ _, known,
      only (List.mem_append_right _ (List.mem_singleton_self _)), ?_⟩
    intro signature r noted
    rcases List.mem_append.mp noted with noted | own
    · exact .inl noted
    · cases List.mem_singleton.mp own
      exact .inr ⟨_, List.mem_singleton_self _, rfl, rfl⟩

mutual
theorem addTree_visited (position : Nat) (tree : Typed σ) (a : Allocation σ) (keyed : Keyed catalog limit a)
    (typed : WellTyped catalog limit tree) :
    Visited catalog limit a (addTree position tree a).1 (visits position tree a) := by
  cases tree with
  | raw mark =>
    refine ⟨keyed, List.Subset.refl _, ?_, ?_, fun _ _ noted => .inl noted⟩ <;> intro visit member <;>
      rw [List.mem_singleton.mp member]
    · exact typed
    · exact .raw mark
  | constant value => exact place_visited (constantNode position value) keyed typed (.constant rfl rfl rfl rfl rfl rfl)
  | call typing args =>
    obtain ⟨visited, each⟩ := addTrees_visited position args a keyed fun _ => typed.arg
    have placed := place_visited (callNode position typing (Typed.text (.call typing args))
      (addTrees position args a).2) visited.keyed typed (.call rfl rfl rfl rfl rfl each)
    exact visited.trans placed
termination_by structural tree

private theorem addTrees_visited (position : Nat) (trees : List (Typed σ)) (a : Allocation σ) (keyed : Keyed catalog limit a)
    (typed : ∀ tree ∈ trees, WellTyped catalog limit tree) :
    Visited catalog limit a (addTrees position trees a).1 (visitsAll position trees a) ∧
      List.Forall₂ (Denotes (addTrees position trees a).1.registers) (addTrees position trees a).2 trees := by
  cases trees with
  | nil => exact ⟨.refl keyed, .nil⟩
  | cons tree trees =>
    rw [List.forall_mem_cons] at typed
    have first := addTree_visited position tree a keyed typed.1
    obtain ⟨rest, each⟩ := addTrees_visited position trees (addTree position tree a).1 first.keyed typed.2
    have denotes := first.denotes _ (mem_visits_self position tree a)
    exact ⟨first.trans rest, .cons (denotes.mono rest.registers) each⟩
termination_by structural trees
end

/-- Marks of exports change nothing of what is noted. -/
theorem Keyed.mark {a b : Allocation σ} (keyed : Keyed catalog limit a) (larger : Extends a.nodes b.nodes)
    (size : b.nodes.length = a.nodes.length) (registers : b.registers = a.registers) : Keyed catalog limit b := by
  constructor
  · rw [registers, size, keyed.numbered]
  · rw [registers]
    exact keyed.distinct
  · intro signature r noted
    rw [registers] at noted ⊢
    obtain ⟨tree, node, typed, same, found, made⟩ := keyed.made signature r noted
    obtain ⟨mark, found'⟩ := larger r node found
    exact ⟨tree, _, typed, same, found', made.mono (List.Subset.refl _) mark⟩

/-- An argument denotes every expression of one signature. -/
theorem Denotes.of_signature_eq {registers : List (String × Nat)} {arg : Argument} {tree tree' : Typed σ}
    (denotes : Denotes registers arg tree) (typed : WellTyped catalog limit tree)
    (typed' : WellTyped catalog limit tree') (same : tree.signature = tree'.signature) : Denotes registers arg tree' := by
  cases denotes with
  | raw mark =>
    cases tree' with
    | raw mark' => exact .raw mark'
    | constant value => exact absurd same.symm (signature_ne_raw typed' rfl)
    | call typing args => exact absurd same.symm (signature_ne_raw typed' rfl)
  | register plain noted =>
    refine .register ?_ (same ▸ noted)
    cases tree' with
    | raw mark' => exact absurd same (signature_ne_raw typed plain)
    | constant value | call typing args => rfl

private theorem denotes_all {registers : List (String × Nat)} {args : List Argument} {trees trees' : List (Typed σ)}
    (each : List.Forall₂ (Denotes registers) args trees) (typed : ∀ tree ∈ trees, WellTyped catalog limit tree)
    (typed' : ∀ tree ∈ trees', WellTyped catalog limit tree) (same : trees.map signature = trees'.map signature) :
    List.Forall₂ (Denotes registers) args trees' := by
  induction each generalizing trees' with
  | nil =>
    cases trees' with
    | nil => exact .nil
    | cons tree' trees' => cases same
  | cons first rest ih =>
    cases trees' with
    | nil => cases same
    | cons tree' trees' =>
      rw [List.forall_mem_cons] at typed typed'
      obtain ⟨own, others⟩ := List.cons.inj same
      exact .cons (first.of_signature_eq typed.1 typed'.1 own) (ih typed.2 typed'.2 others)

/-- The register of an expression has been made as if for this expression. -/
theorem Keyed.made_of_denotes {a : Allocation σ} (keyed : Keyed catalog limit a) {tree : Typed σ} {r : Nat}
    (typed : WellTyped catalog limit tree) (denotes : Denotes a.registers (.register r) tree) :
    ∃ node, a.nodes[r]? = some node ∧ Made a.registers node tree := by
  cases denotes with
  | register plain noted =>
    obtain ⟨tree', node, typed', same, found, made⟩ := keyed.made _ _ noted
    refine ⟨node, found, ?_⟩
    have shapes := (typed'.signature_eq_iff typed).mp same
    have types := typed'.type_eq typed same
    cases tree with
    | raw mark => cases plain
    | constant value =>
      cases made with
      | constant plain type known args entry key =>
        cases typed with
        | constant scalar =>
          cases typed' with
          | constant scalar' =>
            rw [constantKey_inj scalar' scalar same] at type known key
            exact .constant plain type known args entry key
      | call plain type varies entry key each =>
        rw [Typed.shape, Typed.shape, erase_call, Bound.shape_call] at shapes
        cases shapes
    | call typing args =>
      cases made with
      | constant plain type known args entry key =>
        rw [Typed.shape, Typed.shape, erase_call, Bound.shape_call] at shapes
        cases shapes
      | call plain type varies entry key each =>
        obtain ⟨chosen, signatures⟩ := (typed'.call_signature_eq_iff typed).mp same
        rw [chosen] at entry key
        refine .call plain (type.trans types) varies entry key ?_
        exact denotes_all each (fun _ => typed'.arg) (fun _ => typed.arg) signatures

/-- What an argument denotes is what its register holds. -/
theorem Keyed.refers {a : Allocation σ} (keyed : Keyed catalog limit a) {tree : Typed σ} {arg : Argument}
    (typed : WellTyped catalog limit tree) (denotes : Denotes a.registers arg tree) : Refers a.nodes arg tree.erase := by
  induction tree using Tree.induct generalizing arg with
  | raw mark =>
    cases denotes with
    | raw mark => exact .raw mark
    | register plain noted => cases plain
  | constant value =>
    cases arg with
    | raw => cases denotes
    | register r =>
      obtain ⟨node, found, made⟩ := keyed.made_of_denotes typed denotes
      cases made with
      | constant plain type known args entry key => exact .constant found known args entry
  | call typing args ih =>
    cases arg with
    | raw => cases denotes
    | register r =>
      obtain ⟨node, found, made⟩ := keyed.made_of_denotes typed denotes
      cases made with
      | call plain type varies entry key each =>
        obtain ⟨count, paired⟩ := List.forall₂_iff_zip.mp each
        rw [erase_call]
        refine .call found varies entry plain (by rw [count, List.length_map]) ?_
        rw [List.zip_map_right]
        refine List.forall_mem_map.mpr ?_
        rintro ⟨arg, tree⟩ member
        have held := (List.of_mem_zip member).2
        exact ih tree held (typed.arg held) (paired member)

/-- The source of a branching is noted, and the register noted for it is the one that is looked up. -/
theorem Keyed.registerOf_eq {a : Allocation σ} (keyed : Keyed catalog limit a) {signature : String} {r : Nat}
    (noted : (signature, r) ∈ a.registers) : a.registerOf signature = r := by
  rw [registerOf]
  cases found : a.registers.find? (·.1 == signature) with
  | none => exact absurd (beq_self_eq_true signature) (List.find?_eq_none.mp found _ noted)
  | some entry =>
    have matched := List.find?_some found
    have same : entry.1 = signature := eq_of_beq matched
    exact keyed.register_inj (same ▸ List.mem_of_find?_eq_some found) noted

end FlowMetering.Allocation
