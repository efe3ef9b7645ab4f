import FlowMetering.Proofs.Stages
import Mathlib.Algebra.BigOperators.Group.List.Basic
import Mathlib.Data.List.Dedup
import Mathlib.Data.List.Induction

/-! A type tree stands for a type under each choice. Combining the trees of arguments goes through the choices of
their sources once, and what it builds gives under every choice what the arguments give there. -/

namespace FlowMetering

theorem all_eq_first {α β : Type} [DecidableEq β] (f : α → β) (first : α) (rest : List α) :
    (rest.map f).all (· = f first) = true ↔ ∀ item ∈ first :: rest, f item = f first := by
  simp only [List.all_map, List.all_eq_true, Function.comp_apply, decide_eq_true_eq, List.forall_mem_cons, true_and]

namespace TypeTree

/-- A property of type trees that holds of a branching when it holds of its branches holds of all trees. -/
@[elab_as_elim]
theorem induct {motive : TypeTree → Prop} (untyped : motive .untyped) (dead : motive .dead)
    (fixed : ∀ element, motive (.fixed element))
    (variants : ∀ source branches, (∀ branch ∈ branches, motive branch) → motive (.variants source branches))
    (tree : TypeTree) : motive tree :=
  match tree with
  | .untyped => untyped
  | .dead => dead
  | .fixed element => fixed element
  | .variants source branches => variants source branches (members branches)
termination_by structural tree
where
  members (branches : List TypeTree) : ∀ branch ∈ branches, motive branch :=
    match branches with
    | [] => fun _ member => absurd member List.not_mem_nil
    | first :: rest => fun branch member =>
      (List.mem_cons.mp member).elim (fun same => same ▸ induct untyped dead fixed variants first)
        (members rest branch)
  termination_by structural branches

theorem allBranchings_eq_flatMap (trees : List TypeTree) : allBranchings trees = trees.flatMap branchings := by
  induction trees with
  | nil => rfl
  | cons tree trees ih => rw [allBranchings, ih, List.flatMap_cons]

theorem collapseAll_eq_map (trees : List TypeTree) : collapseAll trees = trees.map collapse := by
  induction trees with
  | nil => rfl
  | cons tree trees ih => rw [collapseAll, ih, List.map_cons]

theorem allDead_iff {trees : List TypeTree} : allDead trees = true ↔ ∀ tree ∈ trees, tree.isDead = true := by
  induction trees with
  | nil => simp [allDead]
  | cons tree trees ih => simp [allDead, ih]

theorem selectAt_eq (choice : Choice) (i : Nat) (trees : List TypeTree) :
    selectAt choice i trees = (trees[i]?.map (select choice)).getD .dead := by
  induction trees generalizing i with
  | nil => rfl
  | cons tree trees ih =>
    cases i with
    | zero => rfl
    | succ i => rw [selectAt, ih, List.getElem?_cons_succ]

theorem mem_branchings_variants {source : String} {branches : List TypeTree} {point : String × Nat} :
    point ∈ (variants source branches).branchings ↔
      point = (source, branches.length) ∨ ∃ branch ∈ branches, point ∈ branch.branchings := by
  rw [branchings, allBranchings_eq_flatMap, List.mem_cons, List.mem_flatMap]

/-- A choice takes one of the branches at each of some branching points. -/
def Choice.Covers (choice : Choice) (points : List (String × Nat)) : Prop :=
  ∀ source count, (source, count) ∈ points → ∃ i < count, choice.branch? source = some i

theorem Choice.Covers.mono {choice : Choice} {points points' : List (String × Nat)} (covers : choice.Covers points)
    (subset : points' ⊆ points) : choice.Covers points' :=
  fun source count member => covers source count (subset member)

/-- Under a choice that takes one of its branches, a branching has the type of that branch. -/
theorem select_variants {choice : Choice} {source : String} {branches : List TypeTree}
    (covers : choice.Covers (variants source branches).branchings) :
    ∃ branch ∈ branches, choice.Covers branch.branchings ∧
      ∃ i, branches[i]? = some branch ∧ choice.branch? source = some i ∧
        (variants source branches).select choice = branch.select choice := by
  obtain ⟨i, inside, taken⟩ := covers source branches.length (mem_branchings_variants.mpr (.inl rfl))
  have found := List.getElem?_eq_getElem inside
  refine ⟨branches[i], List.getElem_mem inside, ?_, i, found, taken, ?_⟩
  · exact covers.mono fun point member => mem_branchings_variants.mpr (.inr ⟨_, List.getElem_mem inside, member⟩)
  · rw [select, taken]
    dsimp only
    rw [selectAt_eq, found]
    rfl

/-- Only the branching points of a tree matter for its type. -/
theorem select_congr {choice choice' : Choice} {tree : TypeTree}
    (alike : ∀ source count, (source, count) ∈ tree.branchings → choice.branch? source = choice'.branch? source) :
    tree.select choice = tree.select choice' := by
  induction tree using induct with
  | untyped => rfl
  | dead => rfl
  | fixed element => rfl
  | variants source branches ih =>
    have root := alike source branches.length (mem_branchings_variants.mpr (.inl rfl))
    have each : branches.map (select choice) = branches.map (select choice') :=
      List.map_congr_left fun branch member => ih branch member fun source count inside =>
        alike source count (mem_branchings_variants.mpr (.inr ⟨branch, member, inside⟩))
    rw [select, select, root]
    cases choice'.branch? source with
    | none => rfl
    | some i =>
      dsimp only
      rw [selectAt_eq, selectAt_eq, ← List.getElem?_map, ← List.getElem?_map, each]

/-- A branching collapses to its first branch if all branches are alike. It stays where two of them differ. -/
theorem collapse_variants (source : String) (branches : List TypeTree) :
    branches = [] ∧ (variants source branches).collapse = .dead ∨
      (∃ tree, branches ≠ [] ∧ (∀ branch ∈ branches, branch.collapse = tree) ∧
        (variants source branches).collapse = tree) ∨
      (∃ one ∈ branches, ∃ other ∈ branches, one.collapse ≠ other.collapse) ∧
        (variants source branches).collapse = .variants source (branches.map collapse) := by
  cases branches with
  | nil => exact .inl ⟨rfl, rfl⟩
  | cons first rest =>
    rw [collapse, collapseAll_eq_map, List.map_cons]
    dsimp only
    split
    next same =>
      exact .inr (.inl ⟨first.collapse, List.cons_ne_nil _ _, (all_eq_first collapse first rest).mp same, rfl⟩)
    next differ =>
      refine .inr (.inr ⟨⟨first, List.mem_cons_self, ?_⟩, rfl⟩)
      by_contra! alike
      exact differ ((all_eq_first collapse first rest).mpr fun branch member => (alike branch member).symm)

theorem select_collapse {choice : Choice} {tree : TypeTree} (covers : choice.Covers tree.branchings) :
    tree.collapse.select choice = tree.select choice := by
  induction tree using induct with
  | untyped => rfl
  | dead => rfl
  | fixed element => rfl
  | variants source branches ih =>
    obtain ⟨branch, member, inside, i, found, taken, chosen⟩ := select_variants covers
    rw [chosen]
    rcases collapse_variants source branches with ⟨rfl, -⟩ | ⟨tree, -, alike, collapsed⟩ | ⟨-, collapsed⟩
    · exact absurd member List.not_mem_nil
    · rw [collapsed, ← alike branch member, ih branch member inside]
    · rw [collapsed, select, taken]
      dsimp only
      rw [selectAt_eq, List.getElem?_map, found]
      exact ih branch member inside

theorem collapse_branchings (tree : TypeTree) : tree.collapse.branchings ⊆ tree.branchings := by
  induction tree using induct with
  | untyped => exact List.Subset.refl _
  | dead => exact List.Subset.refl _
  | fixed element => exact List.Subset.refl _
  | variants source branches ih =>
    intro point inside
    rcases collapse_variants source branches with ⟨-, collapsed⟩ | ⟨tree, some, alike, collapsed⟩ | ⟨-, collapsed⟩
    · rw [collapsed] at inside
      exact absurd inside List.not_mem_nil
    · obtain ⟨branch, member⟩ := List.exists_mem_of_ne_nil _ some
      rw [collapsed, ← alike branch member] at inside
      exact mem_branchings_variants.mpr (.inr ⟨branch, member, ih branch member inside⟩)
    · rw [collapsed, mem_branchings_variants, List.length_map] at inside
      rcases inside with rfl | ⟨_, mapped, inside⟩
      · exact mem_branchings_variants.mpr (.inl rfl)
      · obtain ⟨branch, member, rfl⟩ := List.mem_map.mp mapped
        exact mem_branchings_variants.mpr (.inr ⟨branch, member, ih branch member inside⟩)

theorem isDead_variants {source : String} {branches : List TypeTree} :
    (variants source branches).isDead = true ↔ ∀ branch ∈ branches, branch.isDead = true := by
  rw [isDead, allDead_iff]

theorem isDead_collapse (tree : TypeTree) : tree.collapse.isDead = true ↔ tree.isDead = true := by
  induction tree using induct with
  | untyped => rfl
  | dead => rfl
  | fixed element => rfl
  | variants source branches ih =>
    rw [isDead_variants]
    rcases collapse_variants source branches with ⟨rfl, collapsed⟩ | ⟨tree, some, alike, collapsed⟩ | ⟨-, collapsed⟩
    · rw [collapsed]
      exact ⟨fun _ _ member => absurd member List.not_mem_nil, fun _ => rfl⟩
    · rw [collapsed]
      constructor
      · intro dead branch member
        exact (ih branch member).mp (alike branch member ▸ dead)
      · intro dead
        obtain ⟨branch, member⟩ := List.exists_mem_of_ne_nil _ some
        exact alike branch member ▸ (ih branch member).mpr (dead branch member)
    · rw [collapsed, isDead_variants, List.forall_mem_map]
      exact forall₂_congr ih

/-- Where a tree has no type at all, it has none under any choice. -/
theorem select_of_isDead {choice : Choice} {tree : TypeTree} (dead : tree.isDead = true) :
    tree.select choice = .dead := by
  induction tree using induct with
  | untyped => cases dead
  | dead => rfl
  | fixed element => cases dead
  | variants source branches ih =>
    rw [select]
    cases choice.branch? source with
    | none => rfl
    | some i =>
      dsimp only
      rw [selectAt_eq]
      cases found : branches[i]? with
      | none => rfl
      | some branch =>
        have member := List.mem_of_getElem? found
        exact ih branch member (isDead_variants.mp dead branch member)

theorem branch?_map {sources : List (String × Nat)} {source : String} {count : Nat} (member : (source, count) ∈ sources)
    (branch : String → Nat) :
    Choice.branch? (sources.map fun point => (point.1, branch point.1)) source = some (branch source) := by
  have found : (sources.find? (·.1 == source)).isSome = true :=
    List.find?_isSome.mpr ⟨(source, count), member, beq_self_eq_true source⟩
  obtain ⟨⟨name, many⟩, found⟩ := Option.isSome_iff_exists.mp found
  have named := List.find?_some found
  obtain rfl : name = source := eq_of_beq named
  rw [Choice.branch?, List.find?_map]
  simp only [Function.comp_def]
  rw [found]
  rfl

def picks (choice : Choice) (sources : List (String × Nat)) : Choice :=
  sources.map fun point => (point.1, (choice.branch? point.1).getD 0)

theorem picks_branch? {choice : Choice} {sources : List (String × Nat)} (covers : choice.Covers sources)
    {source : String} {count : Nat} (member : (source, count) ∈ sources) :
    (picks choice sources).branch? source = choice.branch? source := by
  obtain ⟨i, -, taken⟩ := covers source count member
  rw [picks, branch?_map member fun source => (choice.branch? source).getD 0, taken, Option.getD_some]

theorem select_of_plain {choice : Choice} {tree : TypeTree} (plain : tree.isVariant = false) :
    tree.select choice = tree := by
  cases tree with
  | untyped => rfl
  | dead => rfl
  | fixed element => rfl
  | variants source branches => cases plain

theorem branchings_of_plain {tree : TypeTree} (plain : tree.isVariant = false) : tree.branchings = [] := by
  cases tree with
  | untyped => rfl
  | dead => rfl
  | fixed element => rfl
  | variants source branches => cases plain

theorem isDead_of_plain {tree : TypeTree} (plain : tree.isVariant = false) : tree.isDead = true ↔ tree = .dead := by
  cases tree with
  | untyped => exact iff_of_false (by rintro ⟨⟩) (by rintro ⟨⟩)
  | dead => exact ⟨fun _ => rfl, fun _ => rfl⟩
  | fixed element => exact iff_of_false (by rintro ⟨⟩) (by rintro ⟨⟩)
  | variants source branches => cases plain

section Enumeration

variable {leaf : Choice → TypeTree} (plain : ∀ chosen, (leaf chosen).isVariant = false)
include plain

theorem select_enumerate {choice : Choice} {sources : List (String × Nat)} (covers : choice.Covers sources)
    (chosen : Choice) : (enumerate leaf sources chosen).select choice = leaf (chosen ++ picks choice sources) := by
  induction sources generalizing chosen with
  | nil => rw [enumerate, select_of_plain (plain chosen), picks, List.map_nil, List.append_nil]
  | cons point sources ih =>
    obtain ⟨source, count⟩ := point
    obtain ⟨i, inside, taken⟩ := covers source count List.mem_cons_self
    have found : (List.range count)[i]? = some i := List.getElem?_range inside
    rw [enumerate, select, taken]
    dsimp only
    rw [selectAt_eq, List.getElem?_map, found, Option.map_some, Option.map_some, Option.getD_some,
      ih (covers.mono (List.subset_cons_self _ _)), picks, picks, List.map_cons, List.append_assoc, List.singleton_append]
    dsimp only
    rw [taken, Option.getD_some]

theorem enumerate_branchings (sources : List (String × Nat)) (chosen : Choice) :
    (enumerate leaf sources chosen).branchings ⊆ sources := by
  induction sources generalizing chosen with
  | nil =>
    rw [enumerate, branchings_of_plain (plain chosen)]
    exact List.Subset.refl _
  | cons point sources ih =>
    intro point' inside
    rw [enumerate, mem_branchings_variants, List.length_map, List.length_range] at inside
    rcases inside with rfl | ⟨_, member, inside⟩
    · exact List.mem_cons_self
    · obtain ⟨i, -, rfl⟩ := List.mem_map.mp member
      exact List.mem_cons_of_mem _ (ih _ inside)

/-- Where an enumeration is not dead, it has a leaf that is not. -/
theorem exists_leaf {sources : List (String × Nat)} {chosen : Choice}
    (alive : ¬(enumerate leaf sources chosen).isDead = true) :
    ∃ taken : Choice, List.Forall₂ (fun pick point => pick.1 = point.1 ∧ pick.2 < point.2) taken sources ∧
      leaf (chosen ++ taken) ≠ .dead := by
  induction sources generalizing chosen with
  | nil =>
    refine ⟨[], .nil, fun same => alive ?_⟩
    rw [List.append_nil] at same
    exact (isDead_of_plain (plain chosen)).mpr same
  | cons point sources ih =>
    rw [enumerate, isDead_variants] at alive
    push Not at alive
    obtain ⟨_, member, alive⟩ := alive
    obtain ⟨i, inside, rfl⟩ := List.mem_map.mp member
    obtain ⟨taken, each, typed⟩ := ih alive
    refine ⟨(point.1, i) :: taken, .cons ⟨rfl, List.mem_range.mp inside⟩ each, ?_⟩
    rwa [List.append_assoc, List.singleton_append] at typed

end Enumeration

/-- Branching points of one source have equally many branches. -/
def Consistent (points : List (String × Nat)) : Prop :=
  ∀ source count count', (source, count) ∈ points → (source, count') ∈ points → count = count'

theorem Consistent.mono {points points' : List (String × Nat)} (consistent : Consistent points)
    (subset : points' ⊆ points) : Consistent points' :=
  fun source count count' member member' => consistent source count count' (subset member) (subset member')

theorem Consistent.covers {points : List (String × Nat)} (consistent : Consistent points) {taken : Choice}
    (each : List.Forall₂ (fun pick point => pick.1 = point.1 ∧ pick.2 < point.2) taken points) :
    taken.Covers points := by
  intro source count member
  obtain ⟨pick, picked, named, -⟩ := forall₂_mem_right each member
  have found : (taken.find? (·.1 == source)).isSome = true :=
    List.find?_isSome.mpr ⟨pick, picked, by simpa using named⟩
  obtain ⟨⟨name, i⟩, found⟩ := Option.isSome_iff_exists.mp found
  have same := List.find?_some found
  obtain rfl : name = source := eq_of_beq same
  obtain ⟨⟨other, many⟩, held, rfl, inside⟩ := forall₂_mem_left each (List.mem_of_find?_eq_some found)
  rw [consistent _ _ _ member held]
  exact ⟨i, inside, by rw [Choice.branch?, found, Option.map_some]⟩

private theorem Choice.branch?_append (front back : Choice) (source : String) :
    Choice.branch? (front ++ back) source = (front.branch? source).or (back.branch? source) := by
  rw [branch?, branch?, branch?, List.find?_append, Option.map_or]

/-- A choice for some branching points can be completed to one for more of them. -/
theorem Choice.Covers.extend {choice : Choice} {some points : List (String × Nat)} (covers : choice.Covers some)
    (subset : some ⊆ points) (consistent : Consistent points) (positive : ∀ point ∈ points, 0 < point.2) :
    ∃ completed : Choice, completed.Covers points ∧
      ∀ source count, (source, count) ∈ some → completed.branch? source = choice.branch? source := by
  let least : Choice := points.map fun point => (point.1, 0)
  have kept (source : String) (count : Nat) (member : (source, count) ∈ some) :
      Choice.branch? (picks choice some ++ least) source = choice.branch? source := by
    obtain ⟨i, -, taken⟩ := covers source count member
    rw [branch?_append, picks_branch? covers member, taken, Option.some_or]
  refine ⟨picks choice some ++ least, fun source count member => ?_, kept⟩
  by_cases known : ∃ count', (source, count') ∈ some
  · obtain ⟨count', known⟩ := known
    obtain ⟨i, inside, taken⟩ := covers source count' known
    rw [consistent _ _ _ member (subset known)]
    exact ⟨i, inside, (kept source count' known).trans taken⟩
  · have absent : (picks choice some).branch? source = none := by
      rw [branch?, Option.map_eq_none_iff, List.find?_eq_none]
      intro pick picked same
      obtain ⟨point, held, rfl⟩ := List.mem_map.mp picked
      rw [← eq_of_beq same] at known
      exact known ⟨point.2, held⟩
    have found : (least.find? (·.1 == source)).isSome = true :=
      List.find?_isSome.mpr ⟨(source, 0), List.mem_map.mpr ⟨_, member, rfl⟩, beq_self_eq_true source⟩
    obtain ⟨pick, found⟩ := Option.isSome_iff_exists.mp found
    obtain ⟨point, -, same⟩ := List.mem_map.mp (List.mem_of_find?_eq_some found)
    refine ⟨0, positive _ member, ?_⟩
    rw [branch?_append, absent, Option.none_or, branch?, found, ← same]
    rfl

theorem addSource_cases (known : List (String × Nat)) (found : String × Nat) :
    addSource known found = known ∧ (∃ count, (found.1, count) ∈ known) ∨
      addSource known found = known ++ [found] ∧ ∀ count, (found.1, count) ∉ known := by
  rw [addSource]
  split
  next met =>
    obtain ⟨⟨name, count⟩, member, same⟩ := List.any_eq_true.mp met
    obtain rfl : name = found.1 := eq_of_beq same
    exact .inl ⟨rfl, count, member⟩
  next unmet =>
    refine .inr ⟨rfl, fun count member => unmet ?_⟩
    exact List.any_eq_true.mpr ⟨_, member, beq_self_eq_true found.1⟩

theorem sources_eq_foldl (trees : List TypeTree) : sources trees = (trees.flatMap branchings).foldl addSource [] := by
  have from_known (known : List (String × Nat)) :
      trees.foldl collect known = (trees.flatMap branchings).foldl addSource known := by
    induction trees generalizing known with
    | nil => rfl
    | cons tree trees ih => rw [List.foldl_cons, List.flatMap_cons, List.foldl_append, ih, collect]
  exact from_known []

/-- Collecting branching points keeps the first one of each source. -/
structure Collected (points known : List (String × Nat)) : Prop where
  subset : known ⊆ points
  names : ∀ source count, (source, count) ∈ points → ∃ count', (source, count') ∈ known
  distinct : (known.map (·.1)).Nodup

private theorem Collected.add {points known : List (String × Nat)} (collected : Collected points known) (found : String × Nat) :
    Collected (points ++ [found]) (addSource known found) := by
  have named (source : String) (count : Nat) (member : (source, count) ∈ points ++ [found]) :
      (∃ count', (source, count') ∈ known) ∨ (source, count) = found := by
    rcases List.mem_append.mp member with member | member
    · exact .inl (collected.names source count member)
    · exact .inr (List.mem_singleton.mp member)
  rcases addSource_cases known found with ⟨same, count', met⟩ | ⟨more, unmet⟩
  · rw [same]
    refine ⟨fun point member => List.mem_append_left _ (collected.subset member), ?_, collected.distinct⟩
    intro source count member
    rcases named source count member with known | rfl
    · exact known
    · exact ⟨count', met⟩
  · rw [more]
    refine ⟨List.append_subset.mpr ⟨?_, List.subset_append_right _ _⟩, ?_, ?_⟩
    · exact fun point member => List.mem_append_left _ (collected.subset member)
    · intro source count member
      rcases named source count member with ⟨count', known⟩ | rfl
      · exact ⟨count', List.mem_append_left _ known⟩
      · exact ⟨count, List.mem_append_right _ (List.mem_singleton_self _)⟩
    · rw [List.map_append, List.map_singleton]
      refine collected.distinct.append (List.nodup_singleton _) ?_
      intro name known new
      obtain ⟨⟨_, count⟩, member, rfl⟩ := List.mem_map.mp known
      rw [List.mem_singleton] at new
      dsimp only at new
      exact unmet count (new ▸ member)

theorem collected_sources (trees : List TypeTree) : Collected (trees.flatMap branchings) (sources trees) := by
  rw [sources_eq_foldl]
  induction trees.flatMap branchings using List.reverseRecOn with
  | nil => exact ⟨List.Subset.refl _, fun _ _ member => absurd member List.not_mem_nil, List.nodup_nil⟩
  | append_singleton points point ih =>
    rw [List.foldl_append]
    exact ih.add point

/-- Where branching points of one source are alike, the collected ones are the distinct ones. -/
theorem sources_perm {trees : List TypeTree} (consistent : Consistent (trees.flatMap branchings)) :
    (sources trees).Perm (trees.flatMap branchings).dedup := by
  have collected := collected_sources trees
  refine (List.perm_ext_iff_of_nodup collected.distinct.of_map (List.nodup_dedup _)).mpr fun point => ?_
  rw [List.mem_dedup]
  refine ⟨fun member => collected.subset member, fun member => ?_⟩
  obtain ⟨count', known⟩ := collected.names point.1 point.2 member
  have same : point = (point.1, count') := Prod.ext rfl (consistent _ _ _ member (collected.subset known))
  rwa [same]

/-- How many choices there are for some branching points, each source counted once. -/
def choices (points : List (String × Nat)) : Nat :=
  (points.dedup.map (·.2)).prod

private theorem foldlM_product {sources : List (String × Nat)} (positive : ∀ point ∈ sources, 0 < point.2) (count : Nat)
    (fits : count ≤ Word.maxUnsigned) :
    sources.foldlM (fun count source =>
        if count * source.2 ≤ Word.maxUnsigned then some (count * source.2) else none) count =
      if count * (sources.map (·.2)).prod ≤ Word.maxUnsigned then some (count * (sources.map (·.2)).prod)
      else none := by
  induction sources generalizing count with
  | nil => simp [fits]
  | cons point sources ih =>
    have rest : ∀ point ∈ sources, 0 < point.2 := fun point member => positive point (List.mem_cons_of_mem _ member)
    rw [List.foldlM_cons, List.map_cons, List.prod_cons, ← Nat.mul_assoc]
    by_cases step : count * point.2 ≤ Word.maxUnsigned
    · rw [if_pos step]
      exact ih rest _ step
    · have grows : count * point.2 ≤ count * point.2 * (sources.map (·.2)).prod :=
        Nat.le_mul_of_pos_right _ (List.prod_pos_iff_forall_pos_nat.mpr (List.forall_mem_map.mpr rest))
      rw [if_neg step, if_neg (by omega)]
      rfl

theorem combinations_eq {sources : List (String × Nat)} (positive : ∀ point ∈ sources, 0 < point.2) :
    combinations sources = min (sources.map (·.2)).prod Word.maxUnsigned := by
  rw [combinations, foldlM_product positive 1 (by decide), Nat.one_mul]
  split
  next fits => rw [Option.getD_some, Nat.min_eq_left fits]
  next overflows => rw [Option.getD_none, Nat.min_eq_right (by omega)]

/-- Counting the choices for some trees takes each source once, and stops at the largest number. -/
theorem combinations_sources {trees : List TypeTree} (consistent : Consistent (trees.flatMap branchings))
    (positive : ∀ point ∈ trees.flatMap branchings, 0 < point.2) :
    combinations (sources trees) = min (choices (trees.flatMap branchings)) Word.maxUnsigned := by
  rw [combinations_eq fun point member => positive point ((collected_sources trees).subset member), choices,
    ((sources_perm consistent).map _).prod_eq]

section Combination

variable (eval : List TypeTree → TypeTree) (arguments : List TypeTree)

/-- The type of a call under one choice: dead if an argument is. -/
def combinedUnder (choice : Choice) : TypeTree :=
  let leaves := arguments.map (select choice)
  if leaves.any (· = .dead) then .dead else eval leaves

theorem combinedUnder_congr {choice choice' : Choice}
    (alike : ∀ source count, (source, count) ∈ arguments.flatMap branchings →
      choice.branch? source = choice'.branch? source) :
    combinedUnder eval arguments choice = combinedUnder eval arguments choice' := by
  have leaves : arguments.map (select choice) = arguments.map (select choice') :=
    List.map_congr_left fun argument member => select_congr fun source count inside =>
      alike source count (List.mem_flatMap.mpr ⟨argument, member, inside⟩)
  rw [combinedUnder, combinedUnder, leaves]

variable {eval} (plain : ∀ leaves, (eval leaves).isVariant = false)
include plain

theorem combinedUnder_plain (choice : Choice) : (combinedUnder eval arguments choice).isVariant = false := by
  rw [combinedUnder]
  split
  next => rfl
  next => exact plain _

/-- What is built for a call has under every choice the type of the call under this choice. -/
theorem select_combined (consistent : Consistent (arguments.flatMap branchings)) {choice : Choice}
    (covers : choice.Covers (arguments.flatMap branchings)) :
    (enumerate (combinedUnder eval arguments) (sources arguments) []).collapse.select choice =
      combinedUnder eval arguments choice := by
  have members : arguments.flatMap branchings ⊆ sources arguments := fun point member =>
    (sources_perm consistent).mem_iff.mpr (List.mem_dedup.mpr member)
  have leaves := combinedUnder_plain arguments plain
  have covered := covers.mono (collected_sources arguments).subset
  rw [select_collapse (covered.mono (enumerate_branchings leaves _ _)), select_enumerate leaves covered, List.nil_append]
  exact combinedUnder_congr eval arguments fun source count member => picks_branch? covered (members member)

/-- Combining goes through all choices of the sources of its arguments. Its result agrees with each of them. -/
theorem combine_cases {limit : Nat} (small : limit < Word.maxUnsigned)
    (consistent : Consistent (arguments.flatMap branchings))
    (positive : ∀ point ∈ arguments.flatMap branchings, 0 < point.2) :
    (limit < choices (arguments.flatMap branchings) ∧
        combine limit eval arguments =
          .error (.tooMany (min (choices (arguments.flatMap branchings)) Word.maxUnsigned))) ∨
      (choices (arguments.flatMap branchings) ≤ limit ∧
        (∀ choice : Choice, choice.Covers (arguments.flatMap branchings) →
          combinedUnder eval arguments choice = .dead) ∧
        combine limit eval arguments = .error .allDead) ∨
      (choices (arguments.flatMap branchings) ≤ limit ∧
        (∃ choice : Choice, choice.Covers (arguments.flatMap branchings) ∧
          combinedUnder eval arguments choice ≠ .dead) ∧
        ∃ tree, combine limit eval arguments = .ok tree ∧ tree.branchings ⊆ arguments.flatMap branchings ∧
          ∀ choice : Choice, choice.Covers (arguments.flatMap branchings) →
            tree.select choice = combinedUnder eval arguments choice) := by
  have collected := collected_sources arguments
  have perm := sources_perm consistent
  have members : arguments.flatMap branchings ⊆ sources arguments := fun point member =>
    perm.mem_iff.mpr (List.mem_dedup.mpr member)
  have number := combinations_sources consistent positive
  have leaves := combinedUnder_plain arguments plain
  have selected {choice : Choice} (covers : choice.Covers (arguments.flatMap branchings)) :=
    select_combined arguments plain consistent covers
  by_cases many : limit < choices (arguments.flatMap branchings)
  · refine .inl ⟨many, ?_⟩
    rw [combine]
    dsimp only
    rw [number, if_pos (by omega)]
  · have few : ¬limit < combinations (sources arguments) := by rw [number]; omega
    refine .inr ?_
    by_cases dead : (enumerate (combinedUnder eval arguments) (sources arguments) []).collapse.isDead = true
    · refine .inl ⟨by omega, fun choice covers => ?_, ?_⟩
      · rw [← selected covers, select_of_isDead dead]
      · rw [combine]
        dsimp only
        rw [if_neg few]
        exact if_pos dead
    · refine .inr ⟨by omega, ?_, _, ?_, ?_, fun choice covers => selected covers⟩
      · rw [isDead_collapse] at dead
        obtain ⟨taken, each, typed⟩ := exists_leaf leaves dead
        exact ⟨taken, ((consistent.mono collected.subset).covers each).mono members, typed⟩
      · rw [combine]
        dsimp only
        rw [if_neg few]
        exact if_neg dead
      · exact fun point inside =>
          collected.subset (enumerate_branchings leaves _ _ (collapse_branchings _ inside))

end Combination

end TypeTree

end FlowMetering
