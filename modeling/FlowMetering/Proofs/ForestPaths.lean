import FlowMetering.Proofs.ForestRewriting
import Mathlib.Logic.Relation

/-! The nodes that features and controls use make up a forest after every stage of compilation: each of them is reached by one
path only, so that no argument is shared, no call uses itself, and a traversal of arguments before users ends and lists every
node once. The numbers of nodes say nothing about it, since what replaces a node is younger than its user. -/

namespace FlowMetering

namespace Arena

def Uses (a : Arena) (user arg : Nat) : Prop :=
  arg ∈ a.args user

/-- The nodes that a traversal lists, arguments before users, each as often as it comes by it. The depth is not bounded, so
that there are none for a node that uses itself. -/
inductive Traversed (a : Arena) : Nat → List Nat → Prop
  | node {id : Nat} {n : Node} {parts : List (Nat × List Nat)} (found : a.node? id = some n)
    (args : n.args = parts.map (·.1)) (each : ∀ part ∈ parts, Traversed a part.1 part.2) :
    Traversed a id (parts.flatMap (·.2) ++ [id])

/-- The node that a path leads to, by the positions of arguments. -/
def descend? (a : Arena) (id : Nat) : List Nat → Option Nat
  | [] => some id
  | i :: path => (a.args id)[i]?.bind fun arg => a.descend? arg path

variable {a : Arena} {root id arg : Nat} {ids path : List Nat}

private theorem descend?_append (path rest : List Nat) :
    a.descend? root (path ++ rest) = (a.descend? root path).bind (a.descend? · rest) := by
  induction path generalizing root with
  | nil => simp [descend?]
  | cons i path ih => simp [descend?, ih, Option.bind_assoc]

private theorem descend?_concat (led : a.descend? root path = some id) (i : Nat) :
    a.descend? root (path ++ [i]) = (a.args id)[i]? := by
  simp [descend?_append, led, descend?]

private theorem uses_of_descend (led : a.descend? root path = some id) : Relation.ReflTransGen a.Uses root id := by
  induction path generalizing root with
  | nil =>
    cases led
    apply Relation.ReflTransGen.refl
  | cons i path ih =>
    obtain ⟨arg, found, led⟩ := Option.bind_eq_some_iff.mp led
    exact .head (List.mem_of_getElem? found) (ih led)

private theorem exists_descend_of_uses (used : Relation.ReflTransGen a.Uses root id) : ∃ path, a.descend? root path = some id := by
  induction used with
  | refl => exact ⟨[], rfl⟩
  | tail _ step ih =>
    obtain ⟨path, led⟩ := ih
    obtain ⟨i, found⟩ := List.mem_iff_getElem?.mp step
    exact ⟨path ++ [i], (descend?_concat led i).trans found⟩

private theorem exists_descend_of_cycle (cycle : Relation.TransGen a.Uses id id) : ∃ path, path ≠ [] ∧ a.descend? id path = some id := by
  obtain ⟨arg, step, used⟩ := Relation.TransGen.head'_iff.mp cycle
  obtain ⟨i, found⟩ := List.mem_iff_getElem?.mp step
  obtain ⟨path, led⟩ := exists_descend_of_uses used
  exact ⟨i :: path, List.cons_ne_nil _ _, by simp [descend?, found, led]⟩

private theorem position_unique {α : Type} {ids : α → List Nat} {items : List α} (distinct : (items.flatMap ids).Nodup) {i j : Nat}
    {item item' : α} (found : items[i]? = some item) (found' : items[j]? = some item') (held : id ∈ ids item)
    (held' : id ∈ ids item') : i = j := by
  obtain ⟨inside, rfl⟩ := List.getElem?_eq_some_iff.mp found
  obtain ⟨inside', rfl⟩ := List.getElem?_eq_some_iff.mp found'
  have apart := List.pairwise_iff_getElem.mp (List.nodup_flatMap.mp distinct).2
  rcases Nat.lt_trichotomy i j with less | same | more
  · exact absurd held' (apart i j inside inside' less held)
  · exact same
  · exact absurd held (apart j i inside' inside more held')

namespace Traversed

private theorem of_holds {ρ ι : Type} {reading : Reading ρ ι} {plot : Plot ρ ι} (holds : Holds reading a plot) :
    a.Traversed plot.root plot.ids := by
  induction holds with
  | @raw id n mark found shape marked =>
    have args : n.args = ([] : List (Nat × List Nat)).map (·.1) := by simp [Node.args, shape]
    exact .node found args (List.forall_mem_nil _)
  | @constant id n value found shape marked =>
    have args : n.args = ([] : List (Nat × List Nat)).map (·.1) := by simp [Node.args, shape]
    exact .node found args (List.forall_mem_nil _)
  | @call id n name head plots found shape marked each plain ih =>
    have args : n.args = (plots.map fun plot => (plot.root, plot.ids)).map (·.1) := by simp [Node.args, shape]
    have traversed : a.Traversed id _ := .node found args (by simpa using ih)
    simpa [List.flatMap_map] using traversed

private theorem root_mem (traversed : a.Traversed root ids) : root ∈ ids := by
  cases traversed
  simp

private theorem descend_part {n : Node} {parts : List (Nat × List Nat)} {i : Nat} (found : a.node? root = some n)
    (args : n.args = parts.map (·.1)) (led : a.descend? root (i :: path) = some id) :
    ∃ part, parts[i]? = some part ∧ a.descend? part.1 path = some id := by
  obtain ⟨arg, picked, led⟩ := Option.bind_eq_some_iff.mp led
  rw [args_of_found found, args, List.getElem?_map] at picked
  obtain ⟨part, held, rfl⟩ := Option.map_eq_some_iff.mp picked
  exact ⟨part, held, led⟩

private theorem mem_of_descend (traversed : a.Traversed root ids) (led : a.descend? root path = some id) : id ∈ ids := by
  induction path generalizing root ids with
  | nil =>
    cases led
    exact traversed.root_mem
  | cons i path ih =>
    cases traversed with
    | node found args each =>
      obtain ⟨part, held, led⟩ := descend_part found args led
      have member := List.mem_of_getElem? held
      apply List.mem_append_left
      exact (sublist_flatMap member).subset (ih (each part member) led)

private theorem uses_of_mem (traversed : a.Traversed root ids) (member : id ∈ ids) : Relation.ReflTransGen a.Uses root id := by
  induction traversed with
  | @node root n parts found args each ih =>
    rcases List.mem_append.mp member with inside | last
    · obtain ⟨part, held, below⟩ := List.mem_flatMap.mp inside
      apply Relation.ReflTransGen.head _ (ih part held below)
      rw [Uses, args_of_found found, args]
      exact List.mem_map_of_mem held
    · cases List.mem_singleton.mp last
      apply Relation.ReflTransGen.refl

private theorem mem_iff (traversed : a.Traversed root ids) : id ∈ ids ↔ Relation.ReflTransGen a.Uses root id := by
  constructor
  · exact traversed.uses_of_mem
  · intro used
    obtain ⟨path, led⟩ := exists_descend_of_uses used
    exact traversed.mem_of_descend led

private theorem sublist_of_uses (traversed : a.Traversed root ids) (member : id ∈ ids) (uses : a.Uses id arg) :
    [arg, id].Sublist ids := by
  induction traversed with
  | @node root n parts found args each ih =>
    rcases List.mem_append.mp member with inside | last
    · obtain ⟨part, held, below⟩ := List.mem_flatMap.mp inside
      exact ((ih part held below).trans (sublist_flatMap held)).trans (List.sublist_append_left _ _)
    · cases List.mem_singleton.mp last
      rw [Uses, args_of_found found, args] at uses
      obtain ⟨part, held, rfl⟩ := List.mem_map.mp uses
      have below : part.1 ∈ parts.flatMap (·.2) := (sublist_flatMap held).subset (each part held).root_mem
      exact (List.singleton_sublist.mpr below).append (List.Sublist.refl [id])

private theorem nil_of_descend (traversed : a.Traversed root ids) (distinct : ids.Nodup) (led : a.descend? root path = some root) :
    path = [] := by
  cases path with
  | nil => rfl
  | cons i path =>
    cases traversed with
    | @node _ n parts found args each =>
      obtain ⟨part, held, led⟩ := descend_part found args led
      have member := List.mem_of_getElem? held
      have below : root ∈ parts.flatMap (·.2) := (sublist_flatMap member).subset ((each part member).mem_of_descend led)
      exact absurd below (List.disjoint_singleton.mp (List.nodup_append'.mp distinct).2.2)

private theorem descend_inj (traversed : a.Traversed root ids) (distinct : ids.Nodup) {path' : List Nat}
    (led : a.descend? root path = some id) (led' : a.descend? root path' = some id) : path = path' := by
  induction path generalizing root ids path' with
  | nil =>
    cases led
    exact (traversed.nil_of_descend distinct led').symm
  | cons i path ih =>
    cases path' with
    | nil =>
      cases led'
      exact traversed.nil_of_descend distinct led
    | cons j path' =>
      cases traversed with
      | node found args each =>
        obtain ⟨part, held, led⟩ := descend_part found args led
        obtain ⟨part', held', led'⟩ := descend_part found args led'
        have member := List.mem_of_getElem? held
        have below := (each part member).mem_of_descend led
        have below' := (each part' (List.mem_of_getElem? held')).mem_of_descend led'
        have parted := (List.nodup_append'.mp distinct).1
        obtain rfl := position_unique parted held held' below below'
        obtain rfl := Option.some.inj (held.symm.trans held')
        rw [ih (each part member) (parted.sublist (sublist_flatMap member)) led led']

end Traversed

end Arena

open Arena

private theorem Stand.traversed {τ ρ ι : Type} {reading : Reading ρ ι} {view : View τ ρ ι} {a : Arena} {roots : List Nat}
    {places : List (Place τ)} (stand : Stand reading view a roots places) :
    ∀ root ∈ roots, a.Traversed root (a.postOrder root) := by
  intro root held
  rw [← stand.roots] at held
  obtain ⟨place, inside, rfl⟩ := List.mem_map.mp held
  rw [stand.postOrder inside]
  exact .of_holds (stand.each place inside)

namespace Forest

def Reaches (forest : Forest) (id : Nat) : Prop :=
  ∃ root ∈ forest.roots ++ forest.controls, Relation.ReflTransGen forest.arena.Uses root id

/-- The node that a path leads to: its first number is the position of a feature or, after the features, of a control. -/
def lead? (forest : Forest) : List Nat → Option Nat
  | [] => none
  | i :: path => (forest.roots ++ forest.controls)[i]?.bind (forest.arena.descend? · path)

/-- What features and controls use makes up a forest, and a traversal lists it as such. -/
structure Treelike (forest : Forest) : Prop where
  acyclic : ∀ id : Nat, forest.Reaches id → ¬Relation.TransGen forest.arena.Uses id id
  path : ∀ id : Nat, forest.Reaches id → ∃! path, forest.lead? path = some id
  parent : ∀ user user' i j id : Nat, forest.Reaches user → forest.Reaches user' →
    (forest.arena.args user)[i]? = some id → (forest.arena.args user')[j]? = some id → user = user' ∧ i = j
  apart : ∀ i j root root' id : Nat, (forest.roots ++ forest.controls)[i]? = some root →
    (forest.roots ++ forest.controls)[j]? = some root' → Relation.ReflTransGen forest.arena.Uses root id →
    Relation.ReflTransGen forest.arena.Uses root' id → i = j
  unused : ∀ root ∈ forest.roots ++ forest.controls, ∀ user : Nat, forest.Reaches user → ¬forest.arena.Uses user root
  traversed : ∀ root ∈ forest.roots ++ forest.controls, forest.arena.Traversed root (forest.arena.postOrder root)
  once : ∀ root ∈ forest.roots ++ forest.controls, (forest.arena.postOrder root).Nodup
  complete : ∀ root ∈ forest.roots ++ forest.controls, ∀ id : Nat,
    id ∈ forest.arena.postOrder root ↔ Relation.ReflTransGen forest.arena.Uses root id
  ordered : ∀ root ∈ forest.roots ++ forest.controls, ∀ id arg : Nat, id ∈ forest.arena.postOrder root →
    forest.arena.Uses id arg → [arg, id].Sublist (forest.arena.postOrder root)

section Paths

variable {forest : Forest} {root id : Nat} {path path' : List Nat}

theorem reaches_iff : forest.Reaches id ↔ ∃ path, forest.lead? path = some id := by
  constructor
  · intro ⟨root, held, used⟩
    obtain ⟨i, found⟩ := List.mem_iff_getElem?.mp held
    obtain ⟨path, led⟩ := exists_descend_of_uses used
    exact ⟨i :: path, by simp only [lead?, found, Option.bind_some, led]⟩
  · intro ⟨path, led⟩
    cases path with
    | nil => cases led
    | cons i path =>
      obtain ⟨root, found, led⟩ := Option.bind_eq_some_iff.mp led
      exact ⟨root, List.mem_of_getElem? found, uses_of_descend led⟩

theorem lead?_append (led : forest.lead? path = some id) (rest : List Nat) :
    forest.lead? (path ++ rest) = forest.arena.descend? id rest := by
  cases path with
  | nil => cases led
  | cons i path =>
    obtain ⟨root, found, led⟩ := Option.bind_eq_some_iff.mp led
    simp only [List.cons_append, lead?, found, Option.bind_some, descend?_append, led]

/-- Where no node is listed twice, not even for different roots, paths to one node are the same. -/
theorem lead?_inj (traversed : ∀ root ∈ forest.roots ++ forest.controls,
      forest.arena.Traversed root (forest.arena.postOrder root))
    (distinct : ((forest.roots ++ forest.controls).flatMap forest.arena.postOrder).Nodup)
    (led : forest.lead? path = some id) (led' : forest.lead? path' = some id) : path = path' := by
  cases path with
  | nil => cases led
  | cons i path =>
    cases path' with
    | nil => cases led'
    | cons j path' =>
      obtain ⟨root, found, led⟩ := Option.bind_eq_some_iff.mp led
      obtain ⟨root', found', led'⟩ := Option.bind_eq_some_iff.mp led'
      have held := List.mem_of_getElem? found
      have listed := (traversed root held).mem_of_descend led
      have listed' := (traversed root' (List.mem_of_getElem? found')).mem_of_descend led'
      obtain rfl := position_unique distinct found found' listed listed'
      obtain rfl := Option.some.inj (found.symm.trans found')
      rw [(traversed root held).descend_inj (distinct.sublist (sublist_flatMap held)) led led']

/-- Unique paths and complete lists are all that it takes. -/
theorem treelike_of_traversed (traversed : ∀ root ∈ forest.roots ++ forest.controls,
      forest.arena.Traversed root (forest.arena.postOrder root))
    (distinct : ((forest.roots ++ forest.controls).flatMap forest.arena.postOrder).Nodup) : forest.Treelike where
  acyclic id reached cycle := by
    obtain ⟨path, led⟩ := reaches_iff.mp reached
    obtain ⟨rest, nonempty, back⟩ := exists_descend_of_cycle cycle
    have same := lead?_inj traversed distinct led ((lead?_append led rest).trans back)
    exact nonempty (List.self_eq_append_right.mp same)
  path id reached := by
    obtain ⟨path, led⟩ := reaches_iff.mp reached
    exact ⟨path, led, fun path' led' => lead?_inj traversed distinct led' led⟩
  parent user user' i j id reached reached' found found' := by
    obtain ⟨path, led⟩ := reaches_iff.mp reached
    obtain ⟨path', led'⟩ := reaches_iff.mp reached'
    have same : path ++ [i] = path' ++ [j] := by
      refine lead?_inj traversed distinct (?_ : forest.lead? _ = some id) ?_
      · simp [lead?_append led, descend?, found]
      · simp [lead?_append led', descend?, found']
    obtain ⟨rfl, position⟩ := List.append_inj' same rfl
    exact ⟨Option.some.inj (led.symm.trans led'), (List.cons.inj position).1⟩
  apart i j root root' id found found' used used' := by
    obtain ⟨path, led⟩ := exists_descend_of_uses used
    obtain ⟨path', led'⟩ := exists_descend_of_uses used'
    have same : i :: path = j :: path' := by
      refine lead?_inj traversed distinct (?_ : forest.lead? _ = some id) ?_
      · simp only [lead?, found, Option.bind_some, led]
      · simp only [lead?, found', Option.bind_some, led']
    exact (List.cons.inj same).1
  unused root held user reached uses := by
    obtain ⟨i, found⟩ := List.mem_iff_getElem?.mp held
    obtain ⟨j, picked⟩ := List.mem_iff_getElem?.mp uses
    obtain ⟨path, led⟩ := reaches_iff.mp reached
    have same : path ++ [j] = [i] := by
      refine lead?_inj traversed distinct (?_ : forest.lead? _ = some root) ?_
      · simp [lead?_append led, descend?, picked]
      · simp [lead?, found, descend?]
    obtain rfl : path = [] := List.eq_nil_of_length_eq_zero (by simpa using congrArg List.length same)
    cases led
  traversed := traversed
  once root held := distinct.sublist (sublist_flatMap held)
  complete root held id := (traversed root held).mem_iff
  ordered root held id arg listed uses := (traversed root held).sublist_of_uses listed uses

end Paths

section Stages

variable {σ φ τ κ ρ ι ρ' ι' : Type} {reading : Reading ρ ι} {view : View τ ρ ι} {reading' : Reading ρ' ι'}
  {view' : View κ ρ' ι'} {forest : Forest} {features : List (Place τ)} {controls : List (Place κ)}

private theorem Stands.treelike (stands : forest.Stands reading view reading' view' features controls) : forest.Treelike := by
  obtain ⟨rooted, controlled, apart⟩ := stands
  apply treelike_of_traversed
  · exact List.forall_mem_append.mpr ⟨rooted.traversed, controlled.traversed⟩
  · rw [List.flatMap_append, rooted.flatMap_postOrder, controlled.flatMap_postOrder]
    exact List.nodup_append'.mpr ⟨rooted.distinct, controlled.distinct, apart⟩

def construct (s : Specification) : Except CompileError Forest := do
  let expressions ← Specification.stage Expression.ofJson s.features
  let names ← Specification.stage Specification.controlName s.control
  plant expressions names

/-- Reading comes first; what has been read is expanded and then bound. -/
theorem ofSpecification_eq (catalog : Catalog σ φ) (s : Specification) :
    ofSpecification catalog s = construct s >>= expand catalog.composite? >>= Forest.bind catalog := by
  simp [ofSpecification, construct]

theorem construct_stands {s : Specification} (read : construct s = .ok forest) : ∃ features controls,
    forest.Stands plainReading expressionView plainReading nameView features controls := by
  obtain ⟨expressions, -, read⟩ := bind_eq_ok.mp read
  obtain ⟨names, -, read⟩ := bind_eq_ok.mp read
  obtain ⟨planted, features, controls, done, -, -, stands⟩ := plant_stands expressions names
  cases done.symm.trans read
  exact ⟨features, controls, stands⟩

/-- Features and controls make up a forest after reading, after expansion, after binding, with the implicit inputs, and at any
time while features are lowered. -/
theorem treelike_stages (catalog : Catalog σ φ) (s : Specification) :
    (∀ planted, construct s = .ok planted → planted.Treelike) ∧
    (∀ expanded, (construct s >>= expand catalog.composite?) = .ok expanded → expanded.Treelike) ∧
    ∀ bound, ofSpecification catalog s = .ok bound → bound.Treelike ∧ (bound.addInputs catalog).Treelike ∧
      (∀ count ≤ bound.roots.length, ((bound.addInputs catalog).lowerFirst catalog count).Treelike) ∧
      ((bound.addInputs catalog).lower catalog).Treelike := by
  refine ⟨?_, ?_, ?_⟩
  · intro planted read
    obtain ⟨features, controls, stands⟩ := construct_stands read
    exact stands.treelike
  · intro expanded done
    obtain ⟨planted, read, done⟩ := bind_eq_ok.mp done
    obtain ⟨features, controls, stands⟩ := construct_stands read
    have simulated := @expand_simulates catalog.composite? planted features controls stands
    rw [done] at simulated
    generalize Specification.stage (Field.ofExpression catalog.composite?) _ = fields at simulated
    cases simulated with
    | ok results =>
      obtain ⟨features', -, stands'⟩ := results
      exact stands'.treelike
  · intro bound accepted
    obtain ⟨-, -, features, controls, -, -, stands⟩ := bound_of_accepted accepted
    obtain ⟨inputs, items, stands'⟩ := addInputs_stands stands
    have length : inputs.length = bound.roots.length := by
      rw [← stands.rooted.roots, List.length_map]
      simpa using congrArg List.length items
    have lowered : ∀ count ≤ bound.roots.length, ((bound.addInputs catalog).lowerFirst catalog count).Treelike := by
      intro count within
      obtain ⟨_, _, stands''⟩ := lowerFirst_stands stands' (within.trans (Nat.le_of_eq length.symm))
      exact stands''.treelike
    refine ⟨stands.treelike, stands'.treelike, lowered, ?_⟩
    rw [lower, ← stands'.rooted.roots, List.length_map, length]
    exact lowered _ (Nat.le_refl _)

/-- The nodes of all features and then of all controls, arguments before users. -/
def traversals (forest : Forest) : List (List Nat) :=
  (forest.roots ++ forest.controls).map forest.arena.postOrder

/-- What has taken the place of the calls is younger than the calls that use it: traversals do not go up in number. -/
theorem treelike_stages_narrowed : ∃ planted expanded bound, construct narrowed = .ok planted ∧ planted.Treelike ∧
    (construct narrowed >>= expand Library.catalog.composite?) = .ok expanded ∧ expanded.Treelike ∧
    ofSpecification Library.catalog narrowed = .ok bound ∧ bound.Treelike ∧ (bound.addInputs Library.catalog).Treelike ∧
    ((bound.addInputs Library.catalog).lowerFirst Library.catalog 1).Treelike ∧
    ((bound.addInputs Library.catalog).lower Library.catalog).Treelike ∧
    ((bound.addInputs Library.catalog).lower Library.catalog).traversals = [[21, 22, 23, 24, 20, 1], [25, 26, 14], [11, 12]] := by
  have facts : (ofSpecification Library.catalog narrowed).toOption.any (fun bound => decide (bound.roots.length = 2 ∧
      ((bound.addInputs Library.catalog).lower Library.catalog).traversals =
        [[21, 22, 23, 24, 20, 1], [25, 26, 14], [11, 12]])) = true := by decide +kernel
  obtain ⟨bound, accepted, features, lists⟩ := ok_of_any facts
  obtain ⟨expanded, unfolded, -⟩ := bind_eq_ok.mp ((ofSpecification_eq _ _).symm.trans accepted)
  obtain ⟨planted, read, -⟩ := bind_eq_ok.mp unfolded
  obtain ⟨first, second, third⟩ := treelike_stages Library.catalog narrowed
  obtain ⟨atBinding, withInputs, during, atEnd⟩ := third bound accepted
  exact ⟨planted, expanded, bound, read, first planted read, unfolded, second expanded unfolded, accepted, atBinding, withInputs,
    during 1 (by rw [features]; decide), atEnd, lists⟩

end Stages

end Forest

end FlowMetering
