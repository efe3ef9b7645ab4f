import FlowMetering.Tree

/-! Expression trees as collections of their subtrees, and maps between the trees of different stages. -/

namespace FlowMetering.Tree

variable {ρ ι ρ' ι' : Type}

/-- A property of trees that calls take over from their arguments holds of all trees. -/
@[elab_as_elim]
theorem induct {motive : Tree ρ ι → Prop} (raw : ∀ mark, motive (.raw mark))
    (constant : ∀ value, motive (.constant value))
    (call : ∀ head args, (∀ arg ∈ args, motive arg) → motive (.call head args)) (tree : Tree ρ ι) : motive tree :=
  match tree with
  | .raw mark => raw mark
  | .constant value => constant value
  | .call head args => call head args (members args)
termination_by structural tree
where
  members (args : List (Tree ρ ι)) : ∀ arg ∈ args, motive arg :=
    match args with
    | [] => fun _ member => absurd member List.not_mem_nil
    | first :: rest => fun arg member =>
      (List.mem_cons.mp member).elim (fun same => same ▸ induct raw constant call first) (members rest arg)
  termination_by structural args

/-- The tree with an input in the place of every raw input, be it the tree itself. -/
def fedBy (input : Tree ρ ι) : Tree ρ ι → Tree ρ ι
  | .raw _ => input
  | tree => tree.withInput input

theorem withInputs_eq_map (args : List (Tree ρ ι)) (input : Tree ρ ι) : withInputs args input = args.map (fedBy input) := by
  induction args with
  | nil => rfl
  | cons arg args ih =>
    cases arg with
    | raw mark => exact List.cons_eq_cons.mpr ⟨rfl, ih⟩
    | constant value | call head args => exact List.cons_eq_cons.mpr ⟨rfl, ih⟩

theorem fedBy_of_isRaw (input : Tree ρ ι) {tree : Tree ρ ι} (raw : tree.isRaw = true) : fedBy input tree = input := by
  cases tree with
  | raw mark => rfl
  | constant value => cases raw
  | call head args => cases raw

@[simp] theorem fedBy_call (input : Tree ρ ι) (head : ι) (args : List (Tree ρ ι)) :
    fedBy input (.call head args) = .call head (args.map (fedBy input)) := by
  rw [fedBy, withInput, withInputs_eq_map]
  exact nofun

theorem withInput_eq_fedBy {tree : Tree ρ ι} (other : ∀ mark, tree ≠ .raw mark) (input : Tree ρ ι) :
    tree.withInput input = fedBy input tree := by
  cases tree with
  | raw mark => exact absurd rfl (other mark)
  | constant value | call head args => rfl

mutual
def subtrees : Tree ρ ι → List (Tree ρ ι)
  | .raw mark => [.raw mark]
  | .constant value => [.constant value]
  | .call head args => allSubtrees args ++ [.call head args]
termination_by structural tree => tree

def allSubtrees : List (Tree ρ ι) → List (Tree ρ ι)
  | [] => []
  | arg :: args => subtrees arg ++ allSubtrees args
termination_by structural args => args
end

mutual
def map (f : ρ → ρ') (g : ι → ι') : Tree ρ ι → Tree ρ' ι'
  | .raw mark => .raw (f mark)
  | .constant value => .constant value
  | .call head args => .call (g head) (mapAll f g args)
termination_by structural tree => tree

def mapAll (f : ρ → ρ') (g : ι → ι') : List (Tree ρ ι) → List (Tree ρ' ι')
  | [] => []
  | arg :: args => map f g arg :: mapAll f g args
termination_by structural args => args
end

theorem mapAll_eq_map (f : ρ → ρ') (g : ι → ι') (args : List (Tree ρ ι)) : mapAll f g args = args.map (map f g) := by
  induction args with
  | nil => rfl
  | cons arg args ih => rw [mapAll, ih, List.map_cons]

@[simp] theorem map_call (f : ρ → ρ') (g : ι → ι') (head : ι) (args : List (Tree ρ ι)) :
    map f g (.call head args) = .call (g head) (args.map (map f g)) := by
  rw [map, mapAll_eq_map]

/-- What shows of some arguments is the texts of those that are no raw inputs. -/
theorem renderVisible_eq (name : ι → String) (args : List (Tree ρ ι)) :
    renderVisible name args = (args.filter (!·.isRaw)).map (render name) := by
  induction args with
  | nil => rfl
  | cons arg args ih =>
    cases arg with
    | raw mark => exact ih
    | constant value | call head args' => exact List.cons_eq_cons.mpr ⟨rfl, ih⟩

/-- The text of a tree depends on the names of its calls alone. -/
theorem render_map (f : ρ → ρ') (g : ι → ι') (name : ι' → String) (tree : Tree ρ ι) :
    (tree.map f g).render name = tree.render fun head => name (g head) := by
  induction tree using induct with
  | raw mark => rfl
  | constant value => rfl
  | call head args ih =>
    have visible : ∀ args : List (Tree ρ ι),
        (∀ arg ∈ args, (arg.map f g).render name = arg.render fun head => name (g head)) →
        renderVisible name (mapAll f g args) = renderVisible (fun head => name (g head)) args := by
      intro args same
      induction args with
      | nil => rfl
      | cons arg args ih =>
        have rest := ih fun arg member => same arg (List.mem_cons_of_mem _ member)
        have first := same arg List.mem_cons_self
        cases arg with
        | raw mark => exact rest
        | constant value | call head args => exact List.cons_eq_cons.mpr ⟨first, rest⟩
    rw [map, render, render, visible args ih]

theorem mem_allSubtrees {tree : Tree ρ ι} {args : List (Tree ρ ι)} :
    tree ∈ allSubtrees args ↔ ∃ arg ∈ args, tree ∈ arg.subtrees := by
  induction args with
  | nil => simp [allSubtrees]
  | cons arg args ih => simp [allSubtrees, ih]

theorem mem_subtrees_self (tree : Tree ρ ι) : tree ∈ tree.subtrees := by
  cases tree <;> simp [subtrees]

theorem mem_subtrees_call {tree : Tree ρ ι} {head : ι} {args : List (Tree ρ ι)} :
    tree ∈ (call head args).subtrees ↔ (∃ arg ∈ args, tree ∈ arg.subtrees) ∨ tree = .call head args := by
  rw [subtrees, List.mem_append, mem_allSubtrees, List.mem_singleton]

theorem mem_subtrees_arg {head : ι} {args : List (Tree ρ ι)} {arg : Tree ρ ι} (member : arg ∈ args) :
    arg ∈ (call head args).subtrees :=
  mem_subtrees_call.mpr (.inl ⟨arg, member, mem_subtrees_self arg⟩)

theorem mem_subtrees_map (f : ρ → ρ') (g : ι → ι') {tree part : Tree ρ ι} (member : part ∈ tree.subtrees) :
    part.map f g ∈ (tree.map f g).subtrees := by
  induction tree using induct with
  | raw mark => exact List.mem_singleton.mp member ▸ mem_subtrees_self _
  | constant value => exact List.mem_singleton.mp member ▸ mem_subtrees_self _
  | call head args ih =>
    rcases mem_subtrees_call.mp member with ⟨arg, held, inside⟩ | rfl
    · rw [map_call]
      exact mem_subtrees_call.mpr (.inl ⟨_, List.mem_map_of_mem held, ih arg held inside⟩)
    · exact mem_subtrees_self _

theorem subtrees_trans {small middle large : Tree ρ ι} (inner : small ∈ middle.subtrees)
    (outer : middle ∈ large.subtrees) : small ∈ large.subtrees := by
  induction large using induct with
  | raw mark => rw [List.mem_singleton.mp outer] at inner; exact inner
  | constant value => rw [List.mem_singleton.mp outer] at inner; exact inner
  | call head args ih =>
    rcases mem_subtrees_call.mp outer with ⟨arg, member, outer⟩ | rfl
    · exact mem_subtrees_call.mpr (.inl ⟨arg, member, ih arg member outer⟩)
    · exact inner

/-- All constants of a tree have one property, and all heads of its calls another. -/
inductive All (onValue : Value → Prop) (onHead : ι → Prop) : Tree ρ ι → Prop
  | raw (mark : ρ) : All onValue onHead (.raw mark)
  | constant {value : Value} (held : onValue value) : All onValue onHead (.constant value)
  | call {head : ι} {args : List (Tree ρ ι)} (held : onHead head) (each : ∀ arg ∈ args, All onValue onHead arg) :
    All onValue onHead (.call head args)

namespace All

variable {onValue : Value → Prop} {onHead : ι → Prop}

theorem value {value : Value} (all : All onValue onHead (.constant value : Tree ρ ι)) : onValue value := by
  cases all with
  | constant held => exact held

theorem head {head : ι} {args : List (Tree ρ ι)} (all : All onValue onHead (.call head args)) : onHead head := by
  cases all with
  | call held each => exact held

theorem arg {head : ι} {args : List (Tree ρ ι)} {arg : Tree ρ ι} (all : All onValue onHead (.call head args))
    (member : arg ∈ args) : All onValue onHead arg := by
  cases all with
  | call held each => exact each arg member

theorem subtree {tree part : Tree ρ ι} (all : All onValue onHead tree) (member : part ∈ tree.subtrees) :
    All onValue onHead part := by
  induction tree using induct with
  | raw mark => rwa [List.mem_singleton.mp member]
  | constant value => rwa [List.mem_singleton.mp member]
  | call head args ih =>
    rcases mem_subtrees_call.mp member with ⟨arg, inside, member⟩ | rfl
    · exact ih arg inside (all.arg inside) member
    · exact all

end All

end FlowMetering.Tree
