import FlowMetering.Arena.Rewriting
import Mathlib.Data.List.Nodup
import Mathlib.Data.List.Perm.Subperm

/-! Trees in arenas. A node of an arena is read as a tree together with the numbers of the nodes that belong to it. What
happens to other nodes does not change the tree. -/

namespace FlowMetering.Arena

variable {ρ ι σ φ : Type}

@[simp] theorem node?_modify (a : Arena) (id : Nat) (f : Node → Node) (i : Nat) :
    (a.modify id f).node? i = if id = i then (a.node? i).map f else a.node? i := by
  rw [node?, modify, List.getElem?_modify]
  split <;> simp_all [node?]

@[simp] theorem size_modify (a : Arena) (id : Nat) (f : Node → Node) : (a.modify id f).size = a.size :=
  List.length_modify ..

private theorem node?_push_lt (a : Arena) (n : Node) {i : Nat} (inside : i < a.size) : (a.push n).1.node? i = a.node? i :=
  List.getElem?_append_left inside

@[simp] theorem node?_push_size (a : Arena) (n : Node) : (a.push n).1.node? a.size = some n :=
  List.getElem?_concat_length

@[simp] theorem size_push (a : Arena) (n : Node) : (a.push n).1.size = a.size + 1 :=
  List.length_append.trans rfl

theorem lt_size {a : Arena} {id : Nat} {n : Node} (found : a.node? id = some n) : id < a.size :=
  (List.getElem?_eq_some_iff.mp found).1

theorem inside_of_found {a : Arena} {id : Nat} {n : Node} (found : a.node? id = some n) : ∀ i ∈ [id], i < a.size :=
  List.forall_mem_singleton.mpr (lt_size found)

theorem args_of_found {a : Arena} {id : Nat} {n : Node} (found : a.node? id = some n) : a.args id = n.args := by
  rw [args, found]

theorem Node.mapArgs_of_call {n : Node} {name : String} {ids : List Nat} (shape : n.shape = .call name ids)
    (f : List Nat → List Nat) : n.mapArgs f = { n with shape := .call name (f ids) } := by
  rw [mapArgs, shape]

/-- The part of one item in what belongs to all of them. -/
theorem sublist_flatMap {α : Type} {ids : α → List Nat} {items : List α} {item : α} (held : item ∈ items) :
    (ids item).Sublist (items.flatMap ids) := by
  rw [List.flatMap_def]
  exact List.sublist_flatten_of_mem (List.mem_map_of_mem held)

theorem apart_of_mem {α : Type} {ids : α → List Nat} {items : List α} {item : α} {others : List Nat} (held : item ∈ items)
    (disjoint : (items.flatMap ids).Disjoint others) : (ids item).Disjoint others :=
  List.disjoint_of_subset_left (sublist_flatMap held).subset disjoint

structure Reading (ρ ι : Type) where
  raw : Mark → ρ → Prop
  constant : Mark → Prop
  call : String → Mark → ι → Prop

/-- A tree in an arena: its root, how that is exported, and the numbers of its nodes, arguments first. -/
structure Plot (ρ ι : Type) where
  exported : Option (String × Option Element)
  root : Nat
  tree : Tree ρ ι
  ids : List Nat

def Plot.outline (plot : Plot ρ ι) : Option (String × Option Element) × Nat :=
  (plot.exported, plot.root)

section Outlines

variable {ρ' ι' : Type} {plots : List (Plot ρ ι)} {plots' : List (Plot ρ' ι')}

theorem roots_of_outlines (same : plots'.map (·.outline) = plots.map (·.outline)) :
    plots'.map (·.root) = plots.map (·.root) := by
  simpa [Plot.outline, Function.comp_def] using congrArg (List.map (·.2)) same

theorem plain_of_outlines (same : plots'.map (·.outline) = plots.map (·.outline))
    (plain : ∀ plot ∈ plots, plot.exported = none) : ∀ plot ∈ plots', plot.exported = none := by
  intro plot held
  obtain ⟨other, inside, alike⟩ := List.mem_map.mp (same ▸ List.mem_map_of_mem held)
  exact (Prod.mk.inj alike).1 ▸ plain other inside

end Outlines

/-- An arena holds a tree. Nothing below the root is exported. -/
inductive Holds (reading : Reading ρ ι) (a : Arena) : Plot ρ ι → Prop
  | raw {id : Nat} {n : Node} {mark : ρ} (found : a.node? id = some n) (shape : n.shape = .raw)
    (marked : reading.raw n.mark mark) : Holds reading a ⟨n.exported, id, .raw mark, [id]⟩
  | constant {id : Nat} {n : Node} {value : Value} (found : a.node? id = some n) (shape : n.shape = .constant value)
    (marked : reading.constant n.mark) : Holds reading a ⟨n.exported, id, .constant value, [id]⟩
  | call {id : Nat} {n : Node} {name : String} {head : ι} {plots : List (Plot ρ ι)} (found : a.node? id = some n)
    (shape : n.shape = .call name (plots.map (·.root))) (marked : reading.call name n.mark head)
    (each : ∀ plot ∈ plots, Holds reading a plot) (plain : ∀ plot ∈ plots, plot.exported = none) :
    Holds reading a ⟨n.exported, id, .call head (plots.map (·.tree)), plots.flatMap (·.ids) ++ [id]⟩

namespace Holds

variable {reading : Reading ρ ι} {a b : Arena} {plot : Plot ρ ι}

theorem root_mem (holds : Holds reading a plot) : plot.root ∈ plot.ids := by
  cases holds with
  | raw found shape marked => exact List.mem_singleton_self _
  | constant found shape marked => exact List.mem_singleton_self _
  | call found shape marked each plain => exact List.mem_append_right _ (List.mem_singleton_self _)

theorem exported_root (holds : Holds reading a plot) : a.exported? plot.root = plot.exported := by
  cases holds with
  | raw found shape marked => rw [exported?, found, Option.bind_some]
  | constant found shape marked => rw [exported?, found, Option.bind_some]
  | call found shape marked each plain => rw [exported?, found, Option.bind_some]

/-- The nodes of a tree refer to each other only, and none but the root is exported. -/
theorem node (holds : Holds reading a plot) : ∀ id ∈ plot.ids, ∃ n, a.node? id = some n ∧ n.args ⊆ plot.ids ∧
    (id = plot.root ∨ n.exported = none) := by
  induction holds with
  | raw found shape marked =>
    refine List.forall_mem_singleton.mpr ⟨_, found, ?_, .inl rfl⟩
    rw [Node.args, shape]
    exact List.nil_subset _
  | constant found shape marked =>
    refine List.forall_mem_singleton.mpr ⟨_, found, ?_, .inl rfl⟩
    rw [Node.args, shape]
    exact List.nil_subset _
  | @call id n name head plots found shape marked each plain ih =>
    refine List.forall_mem_append.mpr ⟨fun i member => ?_, List.forall_mem_singleton.mpr ⟨n, found, ?_, .inl rfl⟩⟩
    · obtain ⟨plot, held, inside⟩ := List.mem_flatMap.mp member
      obtain ⟨m, found', within, hidden⟩ := ih plot held i inside
      refine ⟨m, found', fun arg below => ?_, .inr ?_⟩
      · exact List.mem_append_left _ ((sublist_flatMap held).subset (within below))
      · rcases hidden with rfl | hidden
        · have exported := (each plot held).exported_root
          rwa [exported?, found', plain plot held] at exported
        · exact hidden
    · rw [Node.args, shape]
      intro arg below
      obtain ⟨plot, held, rfl⟩ := List.mem_map.mp below
      exact List.mem_append_left _ ((sublist_flatMap held).subset (each plot held).root_mem)

theorem lt (holds : Holds reading a plot) : ∀ id ∈ plot.ids, id < a.size := by
  intro id member
  obtain ⟨n, found, -⟩ := holds.node id member
  exact lt_size found

/-- A tree stays where its nodes do. -/
theorem frame (holds : Holds reading a plot) (same : ∀ id ∈ plot.ids, b.node? id = a.node? id) : Holds reading b plot := by
  induction holds with
  | raw found shape marked => exact .raw ((same _ (List.mem_singleton_self _)).trans found) shape marked
  | constant found shape marked => exact .constant ((same _ (List.mem_singleton_self _)).trans found) shape marked
  | call found shape marked each plain ih =>
    refine .call ((same _ (List.mem_append_right _ (List.mem_singleton_self _))).trans found) shape marked (fun plot held => ?_)
      plain
    exact ih plot held fun id inside => same id (List.mem_append_left _ ((sublist_flatMap held).subset inside))

theorem length_le (holds : Holds reading a plot) (distinct : plot.ids.Nodup) : plot.ids.length ≤ a.size := by
  have within : plot.ids ⊆ List.range a.size := fun id member => List.mem_range.mpr (holds.lt id member)
  simpa using (List.subperm_of_subset distinct within).length_le

theorem setExport (holds : Holds reading a plot)
    (distinct : plot.ids.Nodup) (exported : Option (String × Option Element)) :
    Holds reading (a.modify plot.root fun n => { n with exported := exported }) { plot with exported := exported } := by
  cases holds with
  | @raw id n mark found shape marked =>
    exact .raw (n := { n with exported := exported }) (by rw [node?_modify, if_pos rfl, found]; rfl) shape marked
  | @constant id n value found shape marked =>
    exact .constant (n := { n with exported := exported }) (by rw [node?_modify, if_pos rfl, found]; rfl) shape marked
  | @call id n name head plots found shape marked each plain =>
    obtain ⟨-, -, outside⟩ := List.nodup_append'.mp distinct
    refine .call (n := { n with exported := exported }) (by rw [node?_modify, if_pos rfl, found]; rfl) shape marked
      (fun plot held => (each plot held).frame fun i member => ?_) plain
    rw [node?_modify, if_neg]
    rintro rfl
    exact List.disjoint_singleton.mp (apart_of_mem held outside) member

theorem not_le_zero (holds : Holds reading a plot) : ¬plot.ids.length ≤ 0 :=
  Nat.not_le.mpr (List.length_pos_of_mem holds.root_mem)

end Holds

theorem inside_of_each {reading : Reading ρ ι} {a : Arena} {plots : List (Plot ρ ι)}
    (each : ∀ plot ∈ plots, Holds reading a plot) : ∀ id ∈ plots.flatMap (·.ids), id < a.size := by
  intro id member
  obtain ⟨plot, held, inside⟩ := List.mem_flatMap.mp member
  exact (each plot held).lt id inside

/-- Enough levels for a call are one more than enough for its arguments. -/
theorem levels_of_call {plots : List (Plot ρ ι)} {id levels : Nat}
    (enough : (plots.flatMap (·.ids) ++ [id]).length ≤ levels + 1) : ∀ plot ∈ plots, plot.ids.length ≤ levels := by
  intro plot held
  have part : plot.ids.length ≤ (plots.flatMap (·.ids)).length := (sublist_flatMap held).length_le
  rw [List.length_append, List.length_singleton] at enough
  omega

theorem postOrderTo_eq {reading : Reading ρ ι} {a : Arena} {levels : Nat} {plot : Plot ρ ι} (holds : Holds reading a plot)
    (enough : plot.ids.length ≤ levels) : a.postOrderTo levels plot.root = plot.ids := by
  induction levels generalizing plot with
  | zero => exact absurd enough holds.not_le_zero
  | succ levels ih =>
    cases holds with
    | raw found shape marked => simp [postOrderTo, found, Node.args, shape]
    | constant found shape marked => simp [postOrderTo, found, Node.args, shape]
    | call found shape marked each plain =>
      have inside := levels_of_call enough
      simp only [postOrderTo, found, Node.args, shape, List.flatMap_map]
      rw [List.flatMap_congr fun plot held => ih (each plot held) (inside plot held)]

/-- What has been done to some nodes of an arena. Other nodes are as they were, and the nodes that there are now in the place
of those are among them or new. -/
structure Changes (a b : Arena) (ids ids' : List Nat) : Prop where
  size : a.size ≤ b.size
  frame : ∀ id, id < a.size → id ∉ ids → b.node? id = a.node? id
  fresh : ∀ id ∈ ids', id ∈ ids ∨ a.size ≤ id
  inside : ∀ id ∈ ids', id < b.size
  distinct : ids'.Nodup

namespace Changes

variable {reading : Reading ρ ι} {a b c : Arena} {ids ids' ids'' others others' : List Nat} {plot : Plot ρ ι}

theorem refl (inside : ∀ id ∈ ids, id < a.size) (distinct : ids.Nodup) : Changes a a ids ids :=
  ⟨Nat.le_refl _, fun _ _ _ => rfl, fun _ member => .inl member, inside, distinct⟩

theorem of_holds (holds : Holds reading a plot) (distinct : plot.ids.Nodup) : Changes a a plot.ids plot.ids :=
  .refl holds.lt distinct

/-- What is apart from the nodes stays apart from them. -/
theorem apart (changes : Changes a b ids ids') (inside : ∀ id ∈ others, id < a.size) (disjoint : others.Disjoint ids) :
    others.Disjoint ids' := by
  intro id other member
  rcases changes.fresh id member with known | new
  · exact disjoint other known
  · have := inside id other
    omega

theorem keeps (changes : Changes a b ids ids') (holds : Holds reading a plot) (disjoint : plot.ids.Disjoint ids) :
    Holds reading b plot :=
  holds.frame fun id member => changes.frame id (holds.lt id member) (disjoint member)

theorem trans (first : Changes a b ids ids') (second : Changes b c ids' ids'') : Changes a c ids ids'' where
  size := Nat.le_trans first.size second.size
  frame id inside outside := by
    have outside' : id ∉ ids' := fun member => by
      rcases first.fresh id member with known | new
      · exact outside known
      · omega
    rw [second.frame id (Nat.lt_of_lt_of_le inside first.size) outside', first.frame id inside outside]
  fresh id member := by
    rcases second.fresh id member with known | new
    · exact first.fresh id known
    · exact .inr (Nat.le_trans first.size new)
  inside := second.inside
  distinct := second.distinct

/-- Changes to different nodes add up. -/
theorem append (first : Changes a b ids ids') (second : Changes b c others others')
    (inside : ∀ id ∈ others, id < a.size) (disjoint : others.Disjoint ids) : Changes a c (ids ++ others) (ids' ++ others') where
  size := Nat.le_trans first.size second.size
  frame id known outside := by
    rw [List.mem_append, not_or] at outside
    rw [second.frame id (Nat.lt_of_lt_of_le known first.size) outside.2, first.frame id known outside.1]
  fresh id member := by
    rw [List.mem_append] at member ⊢
    rcases member with member | member
    · exact (first.fresh id member).imp_left .inl
    · rcases second.fresh id member with known | new
      · exact .inl (.inr known)
      · exact .inr (Nat.le_trans first.size new)
  inside := List.forall_mem_append.mpr
    ⟨fun id member => Nat.lt_of_lt_of_le (first.inside id member) second.size, second.inside⟩
  distinct := by
    refine List.nodup_append'.mpr ⟨first.distinct, second.distinct, ?_⟩
    exact second.apart first.inside (List.disjoint_symm (first.apart inside disjoint))

theorem widen (changes : Changes a b ids ids') (inside : ∀ id ∈ others, id < a.size) (distinct : others.Nodup)
    (disjoint : others.Disjoint ids) (within : ∀ id ∈ ids, id < a.size) : Changes a b (others ++ ids) (others ++ ids') :=
  (Changes.refl inside distinct).append changes within (List.disjoint_symm disjoint)

theorem loosen (changes : Changes a b ids ids') (subset : ids ⊆ others) : Changes a b others ids' where
  size := changes.size
  frame id inside outside := changes.frame id inside fun member => outside (subset member)
  fresh id member := (changes.fresh id member).imp_left fun known => subset known
  inside := changes.inside
  distinct := changes.distinct

theorem mono (changes : Changes a b ids ids') (sublist : ids''.Sublist ids') : Changes a b ids ids'' where
  size := changes.size
  frame := changes.frame
  fresh id member := changes.fresh id (sublist.subset member)
  inside id member := changes.inside id (sublist.subset member)
  distinct := changes.distinct.sublist sublist

theorem modify {id : Nat} (member : id ∈ ids) (inside : ∀ id ∈ ids, id < a.size) (distinct : ids.Nodup) (f : Node → Node) :
    Changes a (a.modify id f) ids ids where
  size := Nat.le_of_eq (size_modify a id f).symm
  frame i _ outside := by
    rw [node?_modify, if_neg]
    rintro rfl
    exact outside member
  fresh i member := .inl member
  inside := by simpa using inside
  distinct := distinct

/-- A node may count as changed even if it is not. -/
theorem one {id : Nat} {n : Node} (found : a.node? id = some n) : Changes a a [id] [id] :=
  .refl (inside_of_found found) (List.nodup_singleton id)

theorem modifyOne {id : Nat} {n : Node} (found : a.node? id = some n) (f : Node → Node) : Changes a (a.modify id f) [id] [id] :=
  .modify (List.mem_singleton_self id) (inside_of_found found) (List.nodup_singleton id) f

theorem push (a : Arena) (n : Node) : Changes a (a.push n).1 [] [a.size] where
  size := by simp
  frame i inside _ := node?_push_lt a n inside
  fresh := List.forall_mem_singleton.mpr (.inr (Nat.le_refl _))
  inside := List.forall_mem_singleton.mpr (by simp)
  distinct := List.nodup_singleton _

end Changes

/-- Two computations fail alike, or their results are related. -/
inductive Simulates {ε α β : Type} (related : α → β → Prop) : Except ε α → Except ε β → Prop
  | ok {a : α} {b : β} (results : related a b) : Simulates related (.ok a) (.ok b)
  | error (problem : ε) : Simulates related (.error problem) (.error problem)

theorem Simulates.bind {ε α β α' β' : Type} {related : α → β → Prop} {related' : α' → β' → Prop} {x : Except ε α}
    {y : Except ε β} {f : α → Except ε α'} {g : β → Except ε β'} (first : Simulates related x y)
    (next : ∀ a b, related a b → Simulates related' (f a) (g b)) : Simulates related' (x >>= f) (y >>= g) := by
  cases first with
  | ok results => exact next _ _ results
  | error problem => exact .error problem

theorem Simulates.map {ε α β α' β' : Type} {related : α → β → Prop} {related' : α' → β' → Prop} {x : Except ε α}
    {y : Except ε β} {f : α → Except ε α'} {g : β → β'} (first : Simulates related x y)
    (next : ∀ a b, related a b → Simulates related' (f a) (.ok (g b))) : Simulates related' (x >>= f) (y.map g) := by
  cases first with
  | ok results => exact next _ _ results
  | error problem => exact .error problem

theorem Simulates.imp {ε α β : Type} {related related' : α → β → Prop} {x : Except ε α} {y : Except ε β}
    (simulates : Simulates related x y) (weaker : ∀ a b, related a b → related' a b) : Simulates related' x y := by
  cases simulates with
  | ok results => exact .ok (weaker _ _ results)
  | error problem => exact .error problem

structure Becomes {ρ' ι' : Type} (reading : Reading ρ' ι') (a b : Arena) (ids : List Nat) (plot : Plot ρ' ι') : Prop where
  holds : Holds reading b plot
  changes : Changes a b ids plot.ids

structure AllBecome {ρ' ι' : Type} (reading : Reading ρ' ι') (a b : Arena) (ids : List Nat) (plots : List (Plot ρ' ι')) :
    Prop where
  each : ∀ plot ∈ plots, Holds reading b plot
  changes : Changes a b ids (plots.flatMap (·.ids))

theorem AllBecome.nil (reading : Reading ρ ι) (a : Arena) : AllBecome reading a a [] [] :=
  ⟨List.forall_mem_nil _, .refl (List.forall_mem_nil _) .nil⟩

theorem AllBecome.cons {reading : Reading ρ ι} {a b c : Arena} {ids others : List Nat} {plot : Plot ρ ι}
    {plots : List (Plot ρ ι)} (first : Becomes reading a b ids plot) (rest : AllBecome reading b c others plots)
    (inside : ∀ id ∈ others, id < a.size) (disjoint : others.Disjoint ids) :
    AllBecome reading a c (ids ++ others) (plot :: plots) where
  each := by
    refine List.forall_mem_cons.mpr ⟨rest.changes.keeps first.holds ?_, rest.each⟩
    exact List.disjoint_symm (first.changes.apart inside disjoint)
  changes := first.changes.append rest.changes inside disjoint

private theorem exchange_arg {b : Arena} {id old : Nat} {n : Node} {name : String} {before after : List Nat}
    (found : b.node? id = some n) (shape : n.shape = .call name (before ++ old :: after)) (exchanged : Nat) :
    (if exchanged = old then b else b.setArg id before.length exchanged).node? id =
        some { n with shape := .call name (before ++ exchanged :: after) } ∧
      Changes b (if exchanged = old then b else b.setArg id before.length exchanged) [id] [id] := by
  split
  next same =>
    subst same
    refine ⟨?_, .one found⟩
    cases n
    cases shape
    exact found
  next =>
    refine ⟨?_, .modifyOne found _⟩
    rw [setArg, node?_modify, if_pos rfl, found, Option.map_some, Node.mapArgs_of_call shape]
    simp

section Arguments

variable {ρ' ι' ε : Type} {reading : Reading ρ ι} {reading' : Reading ρ' ι'} {plots stay : List (Plot ρ ι)}
  {step : Arena → Nat → Except ε (Arena × Nat)} {f : Tree ρ ι → Except ε (Tree ρ' ι')}

/-- A step rewrites trees in place, while others stay. -/
def Rewrites (reading : Reading ρ ι) (reading' : Reading ρ' ι') (stay plots : List (Plot ρ ι))
    (step : Arena → Nat → Except ε (Arena × Nat)) (f : Tree ρ ι → Except ε (Tree ρ' ι')) : Prop :=
  ∀ a, ∀ plot ∈ plots, Holds reading a plot → plot.ids.Nodup → (∀ other ∈ stay, Holds reading a other) →
    Simulates (fun result tree => ∃ ids, Becomes reading' a result.1 plot.ids ⟨none, result.2, tree, ids⟩)
      (step a plot.root) (f plot.tree)

/-- The arguments of a call have been rewritten; the call itself is `n` now. -/
structure Rewritten (reading : Reading ρ' ι') (a b : Arena) (id : Nat) (n : Node) (ids : List Nat)
    (plots : List (Plot ρ' ι')) : Prop where
  each : ∀ plot ∈ plots, Holds reading b plot
  plain : ∀ plot ∈ plots, plot.exported = none
  found : b.node? id = some n
  changes : Changes a b (ids ++ [id]) (plots.flatMap (·.ids) ++ [id])

/-- The loop over the arguments of a call, of which those in `before` have been exchanged already. -/
private theorem Rewrites.arguments (rewrites : Rewrites reading reading' stay plots step f) {id : Nat} {n : Node} {name : String}
    (before : List Nat) {a : Arena} (found : a.node? id = some n)
    (shape : n.shape = .call name (before ++ plots.map (·.root))) (each : ∀ plot ∈ plots, Holds reading a plot)
    (distinct : (plots.flatMap (·.ids) ++ [id]).Nodup) (stays : ∀ other ∈ stay, Holds reading a other)
    (apart : ∀ other ∈ stay, other.ids.Disjoint (plots.flatMap (·.ids) ++ [id])) :
    Simulates (fun b trees => ∃ plots' : List (Plot ρ' ι'), plots'.map (·.tree) = trees ∧ Rewritten reading' a b id
        { n with shape := .call name (before ++ plots'.map (·.root)) } (plots.flatMap (·.ids)) plots')
      (((plots.map (·.root)).zipIdx before.length).foldlM (fun a (arg, i) => do
        let (a, exchanged) ← step a arg
        return if exchanged = arg then a else a.setArg id i exchanged) a)
      (plots.mapM fun plot => f plot.tree) := by
  induction plots generalizing before a n with
  | nil =>
    refine .ok ⟨[], rfl, List.forall_mem_nil _, List.forall_mem_nil _, ?_, ?_⟩
    · cases n
      cases shape
      exact found
    · exact .one found
  | cons plot plots ih =>
    rw [List.flatMap_cons, List.append_assoc, List.nodup_append'] at distinct
    obtain ⟨own, distinct, disjoint⟩ := distinct
    rw [List.forall_mem_cons] at each
    have inside : ∀ i ∈ plots.flatMap (·.ids) ++ [id], i < a.size :=
      List.forall_mem_append.mpr ⟨inside_of_each each.2, inside_of_found found⟩
    have apart' : ∀ other ∈ stay, other.ids.Disjoint plot.ids ∧ other.ids.Disjoint (plots.flatMap (·.ids) ++ [id]) := by
      simpa [List.flatMap_cons, and_assoc] using apart
    simp only [List.map_cons, List.zipIdx_cons, List.foldlM_cons, List.mapM_cons, bind_assoc]
    refine (rewrites a plot List.mem_cons_self each.1 own stays).bind ?_
    rintro ⟨b, exchanged⟩ tree ⟨ids, holds, changes⟩
    dsimp only at holds changes ⊢
    rw [pure_bind]
    have found' : b.node? id = some n :=
      (changes.frame id (lt_size found) fun member =>
        disjoint member (List.mem_append_right _ (List.mem_singleton_self id))).trans found
    obtain ⟨set, touched⟩ := exchange_arg found' shape exchanged
    rw [List.append_cons] at set
    generalize (if exchanged = plot.root then b else b.setArg id before.length exchanged) = c at set touched
    -- Neither the step nor the exchange has touched the arguments to come and the trees that stay.
    have kept {other : Plot ρ ι} (holds : Holds reading a other) (below : other.ids.Disjoint plot.ids)
        (outside : id ∉ other.ids) : Holds reading c other :=
      touched.keeps (changes.keeps holds below) (List.disjoint_singleton.mpr outside)
    have rest := ih (fun a other held => rewrites a other (List.mem_cons_of_mem _ held)) (before ++ [exchanged]) set rfl
      (fun other held => kept (each.2 other held) ?_ ?_) distinct
      (fun other held => kept (stays other held) (apart' other held).1 ?_) fun other held => (apart' other held).2
    · rw [List.length_append, List.length_singleton] at rest
      rw [← bind_pure (List.foldlM _ _ _)]
      refine rest.bind ?_
      rintro d trees ⟨plots', rfl, all, plain, node, changed⟩
      have beyond := changes.apart inside (List.disjoint_symm disjoint)
      refine .ok ⟨⟨none, exchanged, tree, ids⟩ :: plots', rfl, List.forall_mem_cons.mpr ⟨?_, all⟩,
        List.forall_mem_cons.mpr ⟨rfl, plain⟩, ?_, ?_⟩
      · have held : Holds reading' c ⟨none, exchanged, tree, ids⟩ :=
          touched.keeps holds (List.disjoint_of_subset_right (List.subset_append_right _ _) (List.disjoint_symm beyond))
        exact changed.keeps held (List.disjoint_symm beyond)
      · simpa [List.append_assoc] using node
      · have widened : Changes b c (plots.flatMap (·.ids) ++ [id]) (plots.flatMap (·.ids) ++ [id]) := by
          obtain ⟨others, -, outside⟩ := List.nodup_append'.mp distinct
          refine touched.widen (fun i member => ?_) others outside (inside_of_found found')
          exact Nat.lt_of_lt_of_le (inside i (List.mem_append_left _ member)) changes.size
        rw [List.flatMap_cons, List.flatMap_cons, List.append_assoc, List.append_assoc]
        exact changes.append (widened.trans changed) inside (List.disjoint_symm disjoint)
    · exact apart_of_mem held (List.disjoint_append_left.mp (List.disjoint_symm disjoint)).1
    · exact List.disjoint_singleton.mp (apart_of_mem held (List.nodup_append'.mp distinct).2.2)
    · exact fun member => (apart' other held).2 member (List.mem_append_right _ (List.mem_singleton_self id))

theorem Rewrites.eachArg (rewrites : Rewrites reading reading' stay plots step f) {id : Nat} {n : Node} {name : String}
    {a : Arena} (found : a.node? id = some n) (shape : n.shape = .call name (plots.map (·.root)))
    (each : ∀ plot ∈ plots, Holds reading a plot) (distinct : (plots.flatMap (·.ids) ++ [id]).Nodup)
    (stays : ∀ other ∈ stay, Holds reading a other)
    (apart : ∀ other ∈ stay, other.ids.Disjoint (plots.flatMap (·.ids) ++ [id])) :
    Simulates (fun b trees => ∃ plots' : List (Plot ρ' ι'), plots'.map (·.tree) = trees ∧ Rewritten reading' a b id
        { n with shape := .call name (plots'.map (·.root)) } (plots.flatMap (·.ids)) plots')
      (a.eachArg step id) (plots.mapM fun plot => f plot.tree) := by
  have looped := rewrites.arguments [] found shape each distinct stays apart
  rw [Arena.eachArg, args_of_found found, Node.args, shape]
  exact looped

end Arguments

private theorem eachArg_ok {ε : Type} (step : Arena → Nat → Id (Arena × Nat)) (a : Arena) (id : Nat) :
    a.eachArg (fun a arg => (.ok (step a arg) : Except ε (Arena × Nat))) id = .ok (a.eachArg step id) := by
  rw [eachArg, eachArg]
  generalize (a.args id).zipIdx = items
  induction items generalizing a with
  | nil => rfl
  | cons item items ih => exact ih _

/-- A step that cannot fail rewrites trees in place, while others stay. -/
def Turns {ρ' ι' : Type} (reading : Reading ρ ι) (reading' : Reading ρ' ι') (stay plots : List (Plot ρ ι))
    (step : Arena → Nat → Id (Arena × Nat)) (f : Tree ρ ι → Tree ρ' ι') : Prop :=
  ∀ a, ∀ plot ∈ plots, Holds reading a plot → plot.ids.Nodup → (∀ other ∈ stay, Holds reading a other) →
    ∃ ids, Becomes reading' a (step a plot.root).1 plot.ids ⟨none, (step a plot.root).2, f plot.tree, ids⟩

/-- The arguments of a call are rewritten by steps that cannot fail. -/
theorem Turns.eachArg {ρ' ι' : Type} {reading : Reading ρ ι} {reading' : Reading ρ' ι'} {plots stay : List (Plot ρ ι)}
    {step : Arena → Nat → Id (Arena × Nat)} {f : Tree ρ ι → Tree ρ' ι'} (turns : Turns reading reading' stay plots step f)
    {id : Nat} {n : Node} {name : String} {a : Arena} (found : a.node? id = some n)
    (shape : n.shape = .call name (plots.map (·.root))) (each : ∀ plot ∈ plots, Holds reading a plot)
    (distinct : (plots.flatMap (·.ids) ++ [id]).Nodup) (stays : ∀ other ∈ stay, Holds reading a other)
    (apart : ∀ other ∈ stay, other.ids.Disjoint (plots.flatMap (·.ids) ++ [id])) :
    ∃ plots' : List (Plot ρ' ι'), plots'.map (·.tree) = plots.map (fun plot => f plot.tree) ∧
      Rewritten reading' a (a.eachArg step id) id { n with shape := .call name (plots'.map (·.root)) }
        (plots.flatMap (·.ids)) plots' := by
  have simulated : Rewrites reading reading' stay plots (fun a arg => (.ok (step a arg) : Except Unit (Arena × Nat)))
      (fun tree => .ok (f tree)) :=
    fun a plot held holds single stays => .ok (turns a plot held holds single stays)
  have rewritten := simulated.eachArg found shape each distinct stays apart
  rw [eachArg_ok, show (plots.mapM fun plot => (.ok (f plot.tree) : Except Unit (Tree ρ' ι'))) = .ok _ from
    List.mapM_pure] at rewritten
  cases rewritten with
  | ok results => exact results

theorem Rewritten.call {reading : Reading ρ ι} {a b : Arena} {id : Nat} {n : Node} {ids : List Nat}
    {plots : List (Plot ρ ι)} (rewritten : Rewritten reading a b id n ids plots) {name : String} {head : ι}
    (shape : n.shape = .call name (plots.map (·.root))) (marked : reading.call name n.mark head) :
    Becomes reading a b (ids ++ [id])
      ⟨n.exported, id, .call head (plots.map (·.tree)), plots.flatMap (·.ids) ++ [id]⟩ :=
  ⟨.call rewritten.found shape marked rewritten.each rewritten.plain, rewritten.changes⟩

end FlowMetering.Arena
