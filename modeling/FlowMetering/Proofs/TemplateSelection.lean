import FlowMetering.Proofs.TypeCombination
import FlowMetering.Template

/-! The template that the variants of registers select. Neither dropping choices on which nothing depends nor numbering
changes what is selected: the elements of all fields under the types that the variants choose. -/

namespace FlowMetering.TemplateTree

/-- A property of template trees that holds of a choice when it holds of its alternatives holds of all trees. -/
@[elab_as_elim]
theorem induct {motive : TemplateTree → Prop} (leaf : ∀ template, motive (.leaf template))
    (choice : ∀ register alternatives, (∀ tree ∈ alternatives, motive tree) → motive (.choice register alternatives))
    (tree : TemplateTree) : motive tree :=
  match tree with
  | .leaf template => leaf template
  | .choice register alternatives => choice register alternatives (members alternatives)
termination_by structural tree
where
  members (alternatives : List TemplateTree) : ∀ tree ∈ alternatives, motive tree :=
    match alternatives with
    | [] => fun _ member => absurd member List.not_mem_nil
    | first :: rest => fun tree member =>
      (List.mem_cons.mp member).elim (fun same => same ▸ induct leaf choice first) (members rest tree)
  termination_by structural alternatives

theorem collapseAll_eq_map (trees : List TemplateTree) : collapseAll trees = trees.map collapse := by
  induction trees with
  | nil => rfl
  | cons tree trees ih => rw [collapseAll, ih, List.map_cons]

theorem selectAt_eq (variant : Nat → Nat) (i : Nat) (trees : List TemplateTree) :
    selectAt variant i trees = trees[i]?.bind (select variant) := by
  induction trees generalizing i with
  | nil => rfl
  | cons tree trees ih =>
    cases i with
    | zero => rfl
    | succ i => rw [selectAt, ih, List.getElem?_cons_succ]

/-- The variants take one of the alternatives at every branching point. -/
inductive InRange (variant : Nat → Nat) : TemplateTree → Prop
  | leaf (template : Option Template) : InRange variant (.leaf template)
  | choice {register : Nat} {alternatives : List TemplateTree} (inside : variant register < alternatives.length)
    (each : ∀ tree ∈ alternatives, InRange variant tree) : InRange variant (.choice register alternatives)

/-- A choice collapses to its first alternative if all are alike. It stays where two of them differ. -/
theorem collapse_choice (register : Nat) (alternatives : List TemplateTree) :
    alternatives = [] ∧ (choice register alternatives).collapse = .leaf none ∨
      (∃ tree, (∀ other ∈ alternatives, other.collapse = tree) ∧ (choice register alternatives).collapse = tree) ∨
      (∃ one ∈ alternatives, ∃ other ∈ alternatives, one.collapse ≠ other.collapse) ∧
        (choice register alternatives).collapse = .choice register (alternatives.map collapse) := by
  cases alternatives with
  | nil => exact .inl ⟨rfl, rfl⟩
  | cons first rest =>
    rw [collapse, collapseAll_eq_map, List.map_cons]
    dsimp only
    split
    next same => exact .inr (.inl ⟨first.collapse, (all_eq_first collapse first rest).mp same, rfl⟩)
    next differ =>
      refine .inr (.inr ⟨⟨first, List.mem_cons_self, ?_⟩, rfl⟩)
      by_contra! alike
      exact differ ((all_eq_first collapse first rest).mpr fun tree member => (alike tree member).symm)

theorem select_collapse {variant : Nat → Nat} {tree : TemplateTree} (inRange : InRange variant tree) :
    tree.collapse.select variant = tree.select variant := by
  induction tree using induct with
  | leaf template => rfl
  | choice register alternatives ih =>
    cases inRange with
    | choice inside each =>
      have found := List.getElem?_eq_getElem inside
      have member := List.getElem_mem inside
      have taken : (choice register alternatives).select variant = alternatives[variant register].select variant := by
        rw [select, selectAt_eq, found]
        rfl
      have same := ih _ member (each _ member)
      rcases collapse_choice register alternatives with ⟨rfl, -⟩ | ⟨tree, alike, collapsed⟩ | ⟨-, collapsed⟩
      · exact absurd inside (Nat.not_lt_zero _)
      · rw [collapsed, taken, ← same, alike _ member]
      · rw [collapsed, taken, select, selectAt_eq, List.getElem?_map, found]
        exact same

mutual
theorem select_number (variant : Nat → Nat) (tree : TemplateTree) (next : Nat) :
    ((tree.number next).1.select variant).map Template.elements = (tree.select variant).map Template.elements := by
  match tree with
  | .leaf none => rfl
  | .leaf (some template) => rfl
  | .choice register alternatives =>
    rw [number, select, select]
    exact selectAt_number variant alternatives next (variant register)
termination_by structural tree

theorem selectAt_number (variant : Nat → Nat) (trees : List TemplateTree) (next i : Nat) :
    (selectAt variant i (numberAll trees next).1).map Template.elements =
      (selectAt variant i trees).map Template.elements := by
  match trees with
  | [] => rfl
  | tree :: trees =>
    cases i with
    | zero => exact select_number variant tree next
    | succ i => exact selectAt_number variant trees (tree.number next).2 i
termination_by structural trees
end

section Enumeration

variable {slots : List Slot} {registerOf : String → Nat} {variant : Nat → Nat}

def chosen (registerOf : String → Nat) (variant : Nat → Nat) (sources : List (String × Nat)) : TypeTree.Choice :=
  sources.map fun point => (point.1, variant (registerOf point.1))

theorem inRange_enumerate {sources : List (String × Nat)}
    (inside : ∀ point ∈ sources, variant (registerOf point.1) < point.2) (taken : TypeTree.Choice) :
    InRange variant (enumerate slots registerOf sources taken) := by
  induction sources generalizing taken with
  | nil => exact .leaf _
  | cons point sources ih =>
    rw [List.forall_mem_cons] at inside
    refine .choice ?_ (List.forall_mem_map.mpr fun i _ => ih inside.2 _)
    rw [List.length_map, List.length_range]
    exact inside.1

theorem select_enumerate {sources : List (String × Nat)}
    (inside : ∀ point ∈ sources, variant (registerOf point.1) < point.2) (taken : TypeTree.Choice) :
    (enumerate slots registerOf sources taken).select variant =
      template? slots (taken ++ chosen registerOf variant sources) := by
  induction sources generalizing taken with
  | nil => rw [enumerate, select, chosen, List.map_nil, List.append_nil]
  | cons point sources ih =>
    rw [List.forall_mem_cons] at inside
    rw [enumerate, select, selectAt_eq, List.getElem?_map, List.getElem?_range inside.1, Option.map_some,
      Option.bind_some, ih inside.2, chosen, chosen, List.map_cons, List.append_assoc, List.singleton_append]

theorem chosen_branch? {sources : List (String × Nat)} {source : String} {count : Nat}
    (member : (source, count) ∈ sources) :
    (chosen registerOf variant sources).branch? source = some (variant (registerOf source)) :=
  TypeTree.branch?_map member fun source => variant (registerOf source)

theorem template?_congr {choice choice' : TypeTree.Choice}
    (alike : ∀ slot ∈ slots, slot.type.select choice = slot.type.select choice') :
    template? slots choice = template? slots choice' := by
  rw [template?, template?]
  congr 1
  induction slots with
  | nil => rfl
  | cons slot slots ih =>
    rw [List.forall_mem_cons] at alike
    rw [List.mapM_cons, List.mapM_cons, alike.1, ih alike.2]

end Enumeration

def points (slots : List Slot) : List (String × Nat) :=
  slots.flatMap (·.type.branchings)

theorem sources_eq {limit : Nat} {slots : List Slot} {found : List (String × Nat)}
    (counted : sources limit slots = .ok found) : found = TypeTree.sources (slots.map (·.type)) := by
  rw [sources] at counted
  rw [TypeTree.sources]
  generalize ([] : List (String × Nat)) = known at counted ⊢
  induction slots generalizing known with
  | nil => exact (Except.ok.inj counted).symm
  | cons slot slots ih =>
    rw [List.foldlM_cons] at counted
    obtain ⟨middle, first, rest⟩ := bind_eq_ok.mp counted
    dsimp only at first
    split at first
    · cases first
    · cases first
      exact ih _ rest

/-- The templates of some fields are those of all choices for their sources, where these matter. -/
theorem collapse_of_ofSlots {limit : Nat} {registerOf : String → Nat} {slots : List Slot} {tree : TemplateTree}
    (built : ofSlots limit registerOf slots = .ok tree) :
    tree = ((enumerate slots registerOf (TypeTree.sources (slots.map (·.type))) []).collapse.number 0).1 := by
  obtain ⟨found, counted, rest⟩ := bind_eq_ok.mp built
  rw [← sources_eq counted]
  exact (Except.ok.inj rest).symm

theorem collected_points (slots : List Slot) : TypeTree.Collected (points slots) (TypeTree.sources (slots.map (·.type))) := by
  have collected := TypeTree.collected_sources (slots.map (·.type))
  rwa [List.flatMap_map] at collected

/-- The selected template has the elements of all fields under the choice that the variants make. -/
theorem select_ofSlots {limit : Nat} {registerOf : String → Nat} {slots : List Slot} {tree : TemplateTree}
    (built : ofSlots limit registerOf slots = .ok tree) {variant : Nat → Nat}
    (inside : ∀ source count, (source, count) ∈ points slots → variant (registerOf source) < count) :
    (tree.select variant).map Template.elements =
      (template? slots (chosen registerOf variant (points slots))).map Template.elements := by
  obtain rfl := collapse_of_ofSlots built
  have collected := collected_points slots
  have within : ∀ point ∈ TypeTree.sources (slots.map (·.type)), variant (registerOf point.1) < point.2 :=
    fun point member => inside point.1 point.2 (collected.subset member)
  rw [select_number, select_collapse (inRange_enumerate within []), select_enumerate within, List.nil_append]
  refine congrArg (Option.map Template.elements) (template?_congr fun slot held => ?_)
  refine TypeTree.select_congr fun source count member => ?_
  have known : (source, count) ∈ points slots := List.mem_flatMap.mpr ⟨slot, held, member⟩
  obtain ⟨count', counted⟩ := collected.names source count known
  rw [chosen_branch? counted, chosen_branch? known]

theorem numberAll_length (trees : List TemplateTree) (next : Nat) : (numberAll trees next).1.length = trees.length := by
  induction trees generalizing next with
  | nil => rfl
  | cons tree trees ih => exact congrArg Nat.succ (ih _)

mutual
private theorem InRange.number {variant : Nat → Nat} {tree : TemplateTree} (inRange : InRange variant tree) (next : Nat) :
    InRange variant (tree.number next).1 := by
  match tree with
  | .leaf none => exact .leaf none
  | .leaf (some template) => exact .leaf _
  | .choice register alternatives =>
    cases inRange with
    | choice inside each =>
      exact .choice (by rw [numberAll_length]; exact inside) (InRange.numberAll each next)
termination_by structural tree

private theorem InRange.numberAll {variant : Nat → Nat} {trees : List TemplateTree}
    (each : ∀ tree ∈ trees, InRange variant tree) (next : Nat) :
    ∀ tree ∈ (numberAll trees next).1, InRange variant tree := by
  match trees with
  | [] => exact each
  | tree :: trees =>
    rw [List.forall_mem_cons] at each
    exact List.forall_mem_cons.mpr ⟨each.1.number next, InRange.numberAll each.2 _⟩
termination_by structural trees
end

private theorem InRange.collapse {variant : Nat → Nat} {tree : TemplateTree} (inRange : InRange variant tree) :
    InRange variant tree.collapse := by
  induction tree using induct with
  | leaf template => exact .leaf template
  | choice register alternatives ih =>
    cases inRange with
    | choice inside each =>
      rcases collapse_choice register alternatives with ⟨rfl, -⟩ | ⟨tree, alike, collapsed⟩ | ⟨-, collapsed⟩
      · exact absurd inside (Nat.not_lt_zero _)
      · rw [collapsed, ← alike _ (List.getElem_mem inside)]
        exact ih _ (List.getElem_mem inside) (each _ (List.getElem_mem inside))
      · rw [collapsed]
        exact .choice (by rw [List.length_map]; exact inside)
          (List.forall_mem_map.mpr fun tree member => ih tree member (each tree member))

mutual
def isFull : TemplateTree → Bool
  | .leaf template => template.isSome
  | .choice _ alternatives => allFull alternatives
termination_by structural tree => tree

def allFull : List TemplateTree → Bool
  | [] => true
  | tree :: trees => isFull tree && allFull trees
termination_by structural trees => trees
end

theorem allFull_eq_all (trees : List TemplateTree) : allFull trees = trees.all isFull := by
  induction trees with
  | nil => rfl
  | cons tree trees ih => rw [allFull, ih, List.all_cons]

theorem select_of_isFull {variant : Nat → Nat} {tree : TemplateTree} (inRange : InRange variant tree)
    (full : tree.isFull = true) : ∃ template, tree.select variant = some template := by
  induction tree using induct with
  | leaf template => exact Option.isSome_iff_exists.mp full
  | choice register alternatives ih =>
    cases inRange with
    | choice inside each =>
      have member := List.getElem_mem inside
      rw [isFull, allFull_eq_all, List.all_eq_true] at full
      rw [select, selectAt_eq, List.getElem?_eq_getElem inside]
      exact ih _ member (each _ member) (full _ member)

theorem inRange_ofSlots {limit : Nat} {registerOf : String → Nat} {slots : List Slot} {tree : TemplateTree}
    (built : ofSlots limit registerOf slots = .ok tree) {variant : Nat → Nat}
    (inside : ∀ source count, (source, count) ∈ points slots → variant (registerOf source) < count) :
    InRange variant tree := by
  rw [collapse_of_ofSlots built]
  have within : ∀ point ∈ TypeTree.sources (slots.map (·.type)), variant (registerOf point.1) < point.2 :=
    fun point member => inside point.1 point.2 ((collected_points slots).subset member)
  exact (inRange_enumerate within []).collapse.number 0

theorem allBranchings_eq_flatMap (trees : List TemplateTree) : allBranchings trees = trees.flatMap branchings := by
  induction trees with
  | nil => rfl
  | cons tree trees ih => rw [allBranchings, ih, List.flatMap_cons]

theorem mem_registers {tree : TemplateTree} {r : Nat} : r ∈ tree.registers ↔ r ∈ tree.branchings := by
  rw [registers]
  induction tree.branchings using List.reverseRecOn with
  | nil => exact Iff.rfl
  | append_singleton known q ih =>
    rw [List.foldl_append, List.foldl_cons, List.foldl_nil, List.mem_append, List.mem_singleton]
    split
    next met =>
      rw [ih]
      refine ⟨.inl, fun either => either.elim id ?_⟩
      rintro rfl
      exact ih.mp (List.contains_iff_mem.mp met)
    next => rw [List.mem_append, List.mem_singleton, ih]

/-- Only the registers of a tree matter for what is selected. -/
theorem select_congr {variant variant' : Nat → Nat} {tree : TemplateTree}
    (alike : ∀ r ∈ tree.branchings, variant r = variant' r) : tree.select variant = tree.select variant' := by
  induction tree using induct with
  | leaf template => rfl
  | choice register alternatives ih =>
    rw [branchings, List.forall_mem_cons, allBranchings_eq_flatMap] at alike
    rw [select, select, selectAt_eq, selectAt_eq, alike.1]
    cases found : alternatives[variant' register]? with
    | none => rfl
    | some tree =>
      have member := List.mem_of_getElem? found
      exact ih tree member fun r inside => alike.2 r (List.mem_flatMap.mpr ⟨tree, member, inside⟩)

theorem branchings_enumerate {slots : List Slot} {registerOf : String → Nat} (sources : List (String × Nat))
    (taken : TypeTree.Choice) : (enumerate slots registerOf sources taken).branchings ⊆ sources.map fun point => registerOf point.1 := by
  induction sources generalizing taken with
  | nil => exact List.Subset.refl []
  | cons point sources ih =>
    rw [enumerate, branchings, allBranchings_eq_flatMap]
    refine List.cons_subset_cons _ fun r inside => ?_
    obtain ⟨_, member, inside⟩ := List.mem_flatMap.mp inside
    obtain ⟨i, -, rfl⟩ := List.mem_map.mp member
    exact ih _ inside

theorem branchings_collapse (tree : TemplateTree) : tree.collapse.branchings ⊆ tree.branchings := by
  induction tree using induct with
  | leaf template => exact List.Subset.refl []
  | choice register alternatives ih =>
    have below : alternatives.flatMap (fun tree => tree.collapse.branchings) ⊆ (choice register alternatives).branchings := by
      rw [branchings, allBranchings_eq_flatMap]
      intro r inside
      obtain ⟨tree, member, inside⟩ := List.mem_flatMap.mp inside
      exact List.mem_cons_of_mem _ (List.mem_flatMap.mpr ⟨tree, member, ih tree member inside⟩)
    rcases collapse_choice register alternatives with ⟨-, collapsed⟩ | ⟨tree, alike, collapsed⟩ | ⟨-, collapsed⟩
    · rw [collapsed]
      exact List.nil_subset _
    · cases alternatives with
      | nil => exact List.nil_subset _
      | cons first rest =>
        rw [collapsed, ← alike first List.mem_cons_self]
        exact fun r inside => below (List.mem_flatMap.mpr ⟨first, List.mem_cons_self, inside⟩)
    · rw [collapsed, branchings, allBranchings_eq_flatMap, List.flatMap_map]
      refine List.cons_subset.mpr ⟨?_, below⟩
      rw [branchings]
      exact List.mem_cons_self

mutual
theorem branchings_number (tree : TemplateTree) (next : Nat) : (tree.number next).1.branchings = tree.branchings := by
  match tree with
  | .leaf none => rfl
  | .leaf (some template) => rfl
  | .choice register alternatives => exact congrArg (register :: ·) (branchings_numberAll alternatives next)
termination_by structural tree

theorem branchings_numberAll (trees : List TemplateTree) (next : Nat) :
    allBranchings (numberAll trees next).1 = allBranchings trees := by
  match trees with
  | [] => rfl
  | tree :: trees => exact congrArg₂ (· ++ ·) (branchings_number tree next) (branchings_numberAll trees _)
termination_by structural trees
end

/-- The registers of the templates of some fields make the choices for the types of the fields. -/
theorem registers_ofSlots {limit : Nat} {registerOf : String → Nat} {slots : List Slot} {tree : TemplateTree}
    (built : ofSlots limit registerOf slots = .ok tree) {r : Nat} (member : r ∈ tree.registers) :
    ∃ source count, (source, count) ∈ points slots ∧ registerOf source = r := by
  rw [collapse_of_ofSlots built, mem_registers, branchings_number] at member
  obtain ⟨⟨source, count⟩, inside, rfl⟩ :=
    List.mem_map.mp (branchings_enumerate _ _ (branchings_collapse _ member))
  exact ⟨source, count, (collected_points slots).subset inside, rfl⟩

end FlowMetering.TemplateTree
