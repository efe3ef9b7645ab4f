import FlowMetering.Proofs.TypeCombination

/-! Combined types as decision trees. Along a path the sources stand in the order in which they were collected, so none
comes twice, and every branching that is left tells two types apart. Under each choice such a tree has the type of the
call under this choice. -/

namespace FlowMetering.TypeTree

/-- The sources that a path from the root of a tree to one of its leaves passes. -/
inductive Path : TypeTree → List String → Prop
  | leaf {tree : TypeTree} (plain : tree.isVariant = false) : Path tree []
  | branch {source : String} {branches : List TypeTree} {branch : TypeTree} {sources : List String}
    (member : branch ∈ branches) (rest : Path branch sources) : Path (variants source branches) (source :: sources)

/-- The tree branches on some sources in their order, and along a path on each of them at most once. -/
inductive Ordered : List String → TypeTree → Prop
  | leaf {sources : List String} {tree : TypeTree} (plain : tree.isVariant = false) : Ordered sources tree
  | skip {source : String} {sources : List String} {tree : TypeTree} (rest : Ordered sources tree) :
    Ordered (source :: sources) tree
  | branch {source : String} {sources : List String} {branches : List TypeTree}
    (each : ∀ branch ∈ branches, Ordered sources branch) : Ordered (source :: sources) (variants source branches)

inductive Reduced : TypeTree → Prop
  | leaf {tree : TypeTree} (plain : tree.isVariant = false) : Reduced tree
  | branch {source : String} {branches : List TypeTree} (differ : ∃ one ∈ branches, ∃ other ∈ branches, one ≠ other)
    (each : ∀ branch ∈ branches, Reduced branch) : Reduced (variants source branches)

private theorem Ordered.sublist {sources passed : List String} {tree : TypeTree} (ordered : Ordered sources tree)
    (path : Path tree passed) : passed.Sublist sources := by
  induction ordered generalizing passed with
  | leaf plain =>
    cases path with
    | leaf => exact List.nil_sublist _
    | branch => cases plain
  | skip rest ih => exact (ih path).cons _
  | branch each ih =>
    cases path with
    | leaf plain => cases plain
    | branch member rest => exact (ih _ member rest).cons_cons _

private theorem Ordered.collapse {sources : List String} {tree : TypeTree} (ordered : Ordered sources tree) :
    Ordered sources tree.collapse := by
  induction ordered with
  | @leaf sources tree plain =>
    cases tree with
    | untyped | dead | fixed element => exact .leaf rfl
    | variants source branches => cases plain
  | skip rest ih => exact .skip ih
  | @branch source sources branches each ih =>
    rcases collapse_variants source branches with ⟨-, collapsed⟩ | ⟨tree, some, alike, collapsed⟩ | ⟨-, collapsed⟩
    · rw [collapsed]
      exact .leaf rfl
    · obtain ⟨branch, member⟩ := List.exists_mem_of_ne_nil _ some
      rw [collapsed, ← alike branch member]
      exact .skip (ih branch member)
    · rw [collapsed]
      apply Ordered.branch
      intro tree member
      obtain ⟨branch, held, rfl⟩ := List.mem_map.mp member
      exact ih branch held

/-- Collapsing leaves no branching whose branches are all alike. -/
theorem reduced_collapse (tree : TypeTree) : Reduced tree.collapse := by
  induction tree using induct with
  | untyped | dead | fixed element => exact .leaf rfl
  | variants source branches ih =>
    rcases collapse_variants source branches with
      ⟨-, collapsed⟩ | ⟨tree, some, alike, collapsed⟩ | ⟨⟨one, held, other, held', differ⟩, collapsed⟩
    · rw [collapsed]
      exact .leaf rfl
    · obtain ⟨branch, member⟩ := List.exists_mem_of_ne_nil _ some
      rw [collapsed, ← alike branch member]
      exact ih branch member
    · rw [collapsed]
      apply Reduced.branch
      · exact ⟨_, List.mem_map_of_mem held, _, List.mem_map_of_mem held', differ⟩
      · intro tree member
        obtain ⟨branch, held, rfl⟩ := List.mem_map.mp member
        exact ih branch held

theorem ordered_enumerate {leaf : Choice → TypeTree} (plain : ∀ chosen, (leaf chosen).isVariant = false)
    (sources : List (String × Nat)) (chosen : Choice) : Ordered (sources.map (·.1)) (enumerate leaf sources chosen) := by
  induction sources generalizing chosen with
  | nil => exact .leaf (plain chosen)
  | cons point sources ih =>
    apply Ordered.branch
    intro branch member
    obtain ⟨i, -, rfl⟩ := List.mem_map.mp member
    exact ih _

section Combination

variable {limit : Nat} {eval : List TypeTree → TypeTree} {arguments : List TypeTree} {tree : TypeTree}

/-- What combining gives is the collapsed enumeration of all choices. -/
theorem collapse_of_combine (combined : combine limit eval arguments = .ok tree) :
    tree = (enumerate (combinedUnder eval arguments) (sources arguments) []).collapse := by
  rw [combine] at combined
  dsimp only at combined
  split at combined
  · cases combined
  · split at combined
    · cases combined
    · exact (Except.ok.inj combined).symm

/-- What is combined is collapsed, so its paths pass each source once and no branching has branches that are all alike. -/
theorem shape_of_combine (plain : ∀ leaves, (eval leaves).isVariant = false)
    (combined : combine limit eval arguments = .ok tree) : (∀ passed, Path tree passed → passed.Nodup) ∧ Reduced tree := by
  rw [collapse_of_combine combined]
  refine ⟨?_, reduced_collapse _⟩
  intro passed path
  have ordered := ordered_enumerate (combinedUnder_plain arguments plain) (sources arguments) []
  exact (ordered.collapse.sublist path).nodup (collected_sources arguments).distinct

/-- Combining counts the choices for the distinct sources of the arguments and gives up where there are too many, or where
the call is dead under all of them. Otherwise it gives a tree with the type of the call under each choice, in which no source
comes twice on a path and no branching has branches that are all alike. -/
theorem combine_pointwise (consistent : Consistent (arguments.flatMap branchings))
    (positive : ∀ point ∈ arguments.flatMap branchings, 0 < point.2) (plain : ∀ leaves, (eval leaves).isVariant = false)
    (small : limit < Word.maxUnsigned) :
    (∀ count, combine limit eval arguments = .error (.tooMany count) ↔
      limit < choices (arguments.flatMap branchings) ∧
        count = min (choices (arguments.flatMap branchings)) Word.maxUnsigned) ∧
    (combine limit eval arguments = .error .allDead ↔ choices (arguments.flatMap branchings) ≤ limit ∧
      ∀ choice : Choice, choice.Covers (arguments.flatMap branchings) → combinedUnder eval arguments choice = .dead) ∧
    (choices (arguments.flatMap branchings) ≤ limit →
      (∃ choice : Choice, choice.Covers (arguments.flatMap branchings) ∧ combinedUnder eval arguments choice ≠ .dead) →
      ∃ tree, combine limit eval arguments = .ok tree ∧
        (∀ choice : Choice, choice.Covers (arguments.flatMap branchings) →
          tree.select choice = combinedUnder eval arguments choice) ∧
        (∀ passed, Path tree passed → passed.Nodup) ∧ Reduced tree) := by
  rcases combine_cases arguments plain small consistent positive with
    ⟨many, failed⟩ | ⟨few, dead, failed⟩ | ⟨few, ⟨choice, covers, alive⟩, tree, combined, -, selects⟩
  · refine ⟨?_, ?_, ?_⟩
    · intro count
      rw [failed]
      exact ⟨fun same => by cases same; exact ⟨many, rfl⟩, fun ⟨_, same⟩ => by rw [same]⟩
    · rw [failed]
      exact ⟨nofun, fun ⟨few, _⟩ => absurd many (Nat.not_lt.mpr few)⟩
    · intro few
      exact absurd many (Nat.not_lt.mpr few)
  · refine ⟨?_, ?_, ?_⟩
    · intro count
      rw [failed]
      exact ⟨nofun, fun ⟨many, _⟩ => absurd many (Nat.not_lt.mpr few)⟩
    · exact ⟨fun _ => ⟨few, dead⟩, fun _ => failed⟩
    · rintro - ⟨choice, covers, alive⟩
      exact absurd (dead choice covers) alive
  · refine ⟨?_, ?_, ?_⟩
    · intro count
      rw [combined]
      exact ⟨nofun, fun ⟨many, _⟩ => absurd many (Nat.not_lt.mpr few)⟩
    · rw [combined]
      exact ⟨nofun, fun ⟨_, silent⟩ => absurd (silent choice covers) alive⟩
    · intro _ _
      exact ⟨tree, combined, selects, shape_of_combine plain combined⟩

end Combination

def agreed : List TypeTree → TypeTree
  | [.fixed one, .fixed other] => if one = other then .fixed one else .dead
  | _ => .dead

/-- Two arguments that share a source, which stands below another one in the first of them. -/
def crossed : List TypeTree :=
  let older : TypeTree := .fixed (.unregistered "x" .ipv4Address)
  let newer : TypeTree := .fixed (.unregistered "x" .ipv6Address)
  [.variants "outer" [.variants "inner" [older, .dead], newer], .variants "inner" [older, newer]]

theorem combine_pointwise_crossed : combine 3 agreed crossed = .error (.tooMany 4) ∧ ∃ tree,
    combine 4 agreed crossed = .ok tree ∧
    (∀ choice : Choice, choice.Covers (crossed.flatMap branchings) →
      tree.select choice = combinedUnder agreed crossed choice) ∧
    Path tree ["outer", "inner"] ∧ ["outer", "inner"].Nodup ∧ Reduced tree := by
  have two : ∀ point ∈ crossed.flatMap branchings, point.2 = 2 := by decide
  have consistent : Consistent (crossed.flatMap branchings) := fun _ _ _ member member' =>
    (two _ member).trans (two _ member').symm
  have positive : ∀ point ∈ crossed.flatMap branchings, 0 < point.2 := fun point member => two point member ▸ Nat.zero_lt_two
  have plain (leaves : List TypeTree) : (agreed leaves).isVariant = false := by
    unfold agreed
    split
    · split <;> rfl
    · rfl
  have many := (combine_pointwise consistent positive plain (show 3 < Word.maxUnsigned by decide)).1 4
  obtain ⟨-, -, whole⟩ := combine_pointwise consistent positive plain (show 4 < Word.maxUnsigned by decide)
  have first : ∀ point ∈ crossed.flatMap branchings, ∃ i < point.2, Choice.branch? [("outer", 0), ("inner", 0)] point.1 = some i := by
    decide
  obtain ⟨tree, combined, selects, distinct, reduced⟩ :=
    whole (by decide) ⟨_, fun source count member => first (source, count) member, by decide⟩
  have path : Path tree ["outer", "inner"] := by
    cases combined
    exact .branch List.mem_cons_self (.branch List.mem_cons_self (.leaf rfl))
  exact ⟨many.mpr (by decide), tree, combined, selects, path, distinct _ path, reduced⟩

end FlowMetering.TypeTree
