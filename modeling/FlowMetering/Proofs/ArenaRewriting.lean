import FlowMetering.Proofs.ArenaCopies
import FlowMetering.Proofs.LoweredTrees

/-! Rewriting in arenas. Implicit inputs are added and substitutions carried out in place, and a bound arena then holds the
trees that the rewriting of trees gives. -/

namespace FlowMetering.Arena

variable {σ φ : Type} {catalog : Catalog σ φ} {a : Arena} {plot : Plot Kind (Binding σ)}

/-- How bound nodes are read: a call has a kind and the number of its entry, and other nodes have a kind alone. -/
def boundReading (catalog : Catalog σ φ) : Reading Kind (Binding σ) where
  raw mark kind := mark = ⟨some kind, none⟩
  constant mark := mark = ⟨some .constant, none⟩
  call name mark binding := name = binding.name ∧ mark = ⟨some binding.kind, some binding.chosen.id⟩ ∧
    catalog.entries[binding.chosen.id]? = some binding.chosen.entry

private theorem chosen?_of_found {id : Nat} {n : Node} (found : a.node? id = some n) :
    a.chosen? catalog id = n.mark.entry.bind fun i => catalog.entries[i]? := by
  rw [chosen?, found]
  rfl

private theorem chosen?_of_bound {name : String} {binding : Binding σ} {id : Nat} {n : Node} (found : a.node? id = some n)
    (marked : (boundReading catalog).call name n.mark binding) : a.chosen? catalog id = some binding.chosen.entry := by
  obtain ⟨-, mark, entry⟩ := marked
  rw [chosen?_of_found found, mark]
  exact entry

private theorem treeTo?_eq {levels : Nat} (holds : Holds (boundReading catalog) a plot) (enough : plot.ids.length ≤ levels) :
    a.treeTo? catalog levels plot.root = some plot.tree := by
  induction levels generalizing plot with
  | zero => exact absurd enough holds.not_le_zero
  | succ levels ih =>
    cases holds with
    | raw found shape marked =>
      rw [treeTo?, found]
      simp [shape, show _ = _ from marked]
    | constant found shape marked =>
      rw [treeTo?, found]
      simp [shape]
    | @call id n name binding plots found shape marked each plain =>
      obtain ⟨-, mark, entry⟩ := marked
      have args : (plots.map (·.root)).mapM (a.treeTo? catalog levels) = some (plots.map (·.tree)) := by
        have inside := levels_of_call enough
        clear enough shape plain
        induction plots with
        | nil => rfl
        | cons plot plots rest =>
          rw [List.forall_mem_cons] at each inside
          rw [List.map_cons, List.mapM_cons, ih each.1 inside.1, rest each.2 inside.2]
          rfl
      rw [treeTo?, found]
      simp [shape, mark, entry, args]

theorem tree?_eq (holds : Holds (boundReading catalog) a plot) (distinct : plot.ids.Nodup) :
    a.tree? catalog plot.root = some plot.tree :=
  treeTo?_eq holds (holds.length_le distinct)

private theorem addInput_of_unbound {id : Nat} (unbound : a.chosen? catalog id = none) : addInput catalog a id = a := by
  rw [addInput, unbound]

private theorem foldl_addInput {plots : List (Plot Kind (Binding σ))}
    (inputs : ∀ a, ∀ plot ∈ plots, Holds (boundReading catalog) a plot → plot.ids.Nodup →
      ∃ ids, Becomes (boundReading catalog) a (plot.ids.foldl (addInput catalog) a) plot.ids
        ⟨plot.exported, plot.root, Bound.withImplicitInputs plot.tree, ids⟩)
    {a : Arena} (each : ∀ plot ∈ plots, Holds (boundReading catalog) a plot) (distinct : (plots.flatMap (·.ids)).Nodup) :
    ∃ plots', plots'.map (·.outline) = plots.map (·.outline) ∧
      plots'.map (·.tree) = plots.map (fun plot => Bound.withImplicitInputs plot.tree) ∧
      AllBecome (boundReading catalog) a ((plots.flatMap (·.ids)).foldl (addInput catalog) a) (plots.flatMap (·.ids))
        plots' := by
  induction plots generalizing a with
  | nil => exact ⟨[], rfl, rfl, .nil _ a⟩
  | cons plot plots ih =>
    rw [List.forall_mem_cons] at each
    rw [List.flatMap_cons, List.nodup_append'] at distinct
    obtain ⟨own, others, disjoint⟩ := distinct
    obtain ⟨ids, added⟩ := inputs a plot List.mem_cons_self each.1 own
    obtain ⟨plots', same, trees, rest⟩ := ih (fun a other held => inputs a other (List.mem_cons_of_mem _ held))
      (fun other held => added.changes.keeps (each.2 other held) (apart_of_mem held (List.disjoint_symm disjoint))) others
    refine ⟨⟨plot.exported, plot.root, Bound.withImplicitInputs plot.tree, ids⟩ :: plots', ?_, ?_, ?_⟩
    · rw [List.map_cons, List.map_cons, same]
      rfl
    · rw [List.map_cons, List.map_cons, trees]
    · rw [List.flatMap_cons, List.foldl_append]
      exact .cons added rest (inside_of_each each.2) (List.disjoint_symm disjoint)

def inputPlot (id : Nat) : Plot Kind (Binding σ) :=
  ⟨none, id, .raw .rawPacket, [id]⟩

private theorem raw_becomes (catalog : Catalog σ φ) (a : Arena) (position : Nat) :
    Becomes (boundReading catalog) a ((a.raw position).1.setKind a.size .rawPacket) [] (inputPlot a.size) := by
  have pushed := Changes.push a { shape := .raw, position := position }
  refine ⟨.raw (n := { shape := .raw, position := position, mark := ⟨some .rawPacket, none⟩ }) ?_ rfl rfl, pushed.trans ?_⟩
  · rw [setKind, node?_modify, if_pos rfl]
    exact congrArg (Option.map _) (node?_push_size a _)
  · exact .modify (List.mem_singleton_self _) pushed.inside (List.nodup_singleton _) _

private theorem addInput_becomes {id : Nat} {n : Node} {name : String} {binding : Binding σ} {plots : List (Plot Kind (Binding σ))}
    (found : a.node? id = some n) (shape : n.shape = .call name (plots.map (·.root)))
    (marked : (boundReading catalog).call name n.mark binding) (each : ∀ plot ∈ plots, Holds (boundReading catalog) a plot)
    (plain : ∀ plot ∈ plots, plot.exported = none) (distinct : (plots.flatMap (·.ids) ++ [id]).Nodup) :
    ∃ ids, Becomes (boundReading catalog) a (addInput catalog a id) (plots.flatMap (·.ids) ++ [id])
      ⟨n.exported, id, .call binding (if binding.chosen.entry.implicitInput then plots.map (·.tree) ++ [.raw .rawPacket]
        else plots.map (·.tree)), ids⟩ := by
  have holds : Holds (boundReading catalog) a
      ⟨n.exported, id, .call binding (plots.map (·.tree)), plots.flatMap (·.ids) ++ [id]⟩ := .call found shape marked each plain
  rw [addInput, chosen?_of_bound found marked]
  dsimp only
  cases implicit : binding.chosen.entry.implicitInput with
  | false => exact ⟨_, holds, .of_holds holds distinct⟩
  | true =>
    simp only [if_pos, found]
    have raw := raw_becomes catalog a n.position
    have made : (a.raw n.position).2 = a.size := rfl
    rw [made]
    generalize (a.raw n.position).1.setKind a.size .rawPacket = b at raw
    have known : b.node? id = some n := (raw.changes.frame id (lt_size found) List.not_mem_nil).trans found
    have pushed : Changes b (b.pushArg id a.size) [id] [id] := .modifyOne known _
    obtain ⟨others, -, outside⟩ := List.nodup_append'.mp distinct
    have called (inputs : List (Plot Kind (Binding σ))) (same : inputs = plots ++ [inputPlot a.size]) :
        Holds (boundReading catalog) (b.pushArg id a.size)
          ⟨n.exported, id, .call binding (inputs.map (·.tree)), inputs.flatMap (·.ids) ++ [id]⟩ := by
      subst same
      refine .call (n := { n with shape := .call name (plots.map (·.root) ++ [a.size]) }) ?_ ?_ marked ?_ ?_
      · rw [pushArg, node?_modify, if_pos rfl, known, Option.map_some, Node.mapArgs_of_call shape]
      · simp [inputPlot]
      · refine List.forall_mem_append.mpr ⟨fun plot held => ?_, List.forall_mem_singleton.mpr (pushed.keeps raw.holds ?_)⟩
        · exact pushed.keeps (raw.changes.keeps (each plot held) (List.disjoint_nil_right _)) (apart_of_mem held outside)
        · exact List.singleton_disjoint.mpr fun member => absurd (lt_size found) (by simp [List.mem_singleton.mp member])
      · exact List.forall_mem_append.mpr ⟨plain, List.forall_mem_singleton.mpr rfl⟩
    refine ⟨_, by simpa [inputPlot] using called _ rfl, ?_⟩
    have changes := (raw.changes.append pushed (inside_of_found found) (List.disjoint_nil_right _)).widen (inside_of_each each)
      others outside (inside_of_found found)
    simpa [inputPlot] using changes

private theorem foldl_addInput_becomes {levels : Nat} {a : Arena} {plot : Plot Kind (Binding σ)}
    (holds : Holds (boundReading catalog) a plot) (enough : plot.ids.length ≤ levels) (distinct : plot.ids.Nodup) :
    ∃ ids, Becomes (boundReading catalog) a (plot.ids.foldl (addInput catalog) a) plot.ids
      ⟨plot.exported, plot.root, Bound.withImplicitInputs plot.tree, ids⟩ := by
  induction levels generalizing a plot with
  | zero => exact absurd enough holds.not_le_zero
  | succ levels ih =>
    cases holds with
    | raw found shape marked =>
      rw [List.foldl_cons, List.foldl_nil, addInput_of_unbound (by rw [chosen?_of_found found, show _ = _ from marked]; rfl)]
      exact ⟨_, .raw found shape marked, .of_holds (.raw found shape marked) distinct⟩
    | constant found shape marked =>
      rw [List.foldl_cons, List.foldl_nil, addInput_of_unbound (by rw [chosen?_of_found found, show _ = _ from marked]; rfl)]
      exact ⟨_, .constant found shape marked, .of_holds (.constant found shape marked) distinct⟩
    | @call id n name binding plots found shape marked each plain =>
      obtain ⟨others, -, outside⟩ := List.nodup_append'.mp distinct
      obtain ⟨plots', same, trees, all⟩ := foldl_addInput
        (fun a plot held holds => ih holds (levels_of_call enough plot held)) each others
      rw [List.foldl_append, List.foldl_cons, List.foldl_nil]
      generalize (plots.flatMap (·.ids)).foldl (addInput catalog) a = b at all
      have known : b.node? id = some n :=
        (all.changes.frame id (lt_size found) (List.disjoint_singleton.mp outside)).trans found
      have changes := all.changes.append (.one known) (inside_of_found found) (List.disjoint_symm outside)
      obtain ⟨ids, becomes⟩ := addInput_becomes known (shape.trans (by rw [roots_of_outlines same])) marked all.each
        (plain_of_outlines same plain) changes.distinct
      refine ⟨ids, ?_, changes.trans becomes.changes⟩
      rw [Bound.withImplicitInputs, Bound.allWithImplicitInputs_eq_map, List.map_map]
      rw [trees] at becomes
      exact becomes.holds

theorem addInputs_becomes (holds : Holds (boundReading catalog) a plot) (distinct : plot.ids.Nodup) :
    ∃ ids, Becomes (boundReading catalog) a (a.addInputs catalog plot.root) plot.ids
      ⟨plot.exported, plot.root, Bound.withImplicitInputs plot.tree, ids⟩ := by
  rw [addInputs, postOrder, postOrderTo_eq holds (holds.length_le distinct)]
  exact foldl_addInput_becomes holds (Nat.le_refl _) distinct

private theorem moveExport_becomes {ρ ι : Type} {reading : Reading ρ ι} {plot : Plot ρ ι} (holds : Holds reading a plot)
    (plain : plot.exported = none) {id : Nat} {n : Node} (found : a.node? id = some n) (distinct : (plot.ids ++ [id]).Nodup) :
    Becomes reading a (a.moveExport id plot.root) (plot.ids ++ [id]) { plot with exported := n.exported } := by
  obtain ⟨own, -, outside⟩ := List.nodup_append'.mp distinct
  have inside : ∀ i ∈ plot.ids ++ [id], i < a.size :=
    List.forall_mem_append.mpr ⟨holds.lt, inside_of_found found⟩
  rw [moveExport, exported?, found, Option.bind_some]
  cases same : n.exported with
  | none =>
    obtain ⟨_, root, tree, ids⟩ := plot
    cases plain
    exact ⟨holds, (Changes.refl inside distinct).mono (List.sublist_append_left _ _)⟩
  | some exported =>
    have cleared := Changes.modify (List.mem_append_right _ (List.mem_singleton_self id)) inside distinct
      fun n => { n with exported := none }
    have kept : Holds reading (a.modify id fun n => { n with exported := none }) plot := holds.frame fun i member => by
      rw [node?_modify, if_neg]
      rintro rfl
      exact List.disjoint_singleton.mp outside member
    refine ⟨kept.setExport own (some exported), (cleared.trans (.modify ?_ cleared.inside distinct _)).mono
      (List.sublist_append_left _ _)⟩
    exact List.mem_append_left _ holds.root_mem

private theorem rewriteCall_becomes {id : Nat} {n : Node} {name : String} {binding : Binding σ} {plots : List (Plot Kind (Binding σ))}
    (found : a.node? id = some n) (shape : n.shape = .call name (plots.map (·.root)))
    (marked : (boundReading catalog).call name n.mark binding) (each : ∀ plot ∈ plots, Holds (boundReading catalog) a plot)
    (plain : ∀ plot ∈ plots, plot.exported = none) (distinct : (plots.flatMap (·.ids) ++ [id]).Nodup)
    {args : List (Bound σ)} (lowered : plots.map (·.tree) = args.map Bound.lower) :
    ∃ ids, Becomes (boundReading catalog) a (rewriteCall catalog a id).1 (plots.flatMap (·.ids) ++ [id])
      ⟨n.exported, (rewriteCall catalog a id).2, Bound.lower (.call binding args), ids⟩ := by
  have holds : Holds (boundReading catalog) a
      ⟨n.exported, id, .call binding (plots.map (·.tree)), plots.flatMap (·.ids) ++ [id]⟩ := .call found shape marked each plain
  rw [rewriteCall, chosen?_of_bound found marked, Bound.lower, Bound.lowerAll_eq_map, ← lowered]
  dsimp only
  cases built : binding.chosen.entry.build with
  | some build =>
    simp only [Option.isSome_some, if_true]
    exact ⟨_, holds, .of_holds holds distinct⟩
  | none =>
    simp only [Option.isSome_none, Bool.false_eq_true, if_false, args_of_found found, Node.args, shape]
    rcases plots with _ | ⟨feature, _ | ⟨selection, _ | ⟨more, plots⟩⟩⟩
    · exact ⟨_, holds, .of_holds holds distinct⟩
    · exact ⟨_, holds, .of_holds holds distinct⟩
    · obtain ⟨held, selected⟩ := List.forall_mem_cons.mp each
      have selected := List.forall_mem_singleton.mp selected
      obtain ⟨both, -, outside⟩ := List.nodup_append'.mp distinct
      simp only [List.flatMap_cons, List.flatMap_nil, List.append_nil] at both outside ⊢
      obtain ⟨own, single, apart⟩ := List.nodup_append'.mp both
      -- The feature takes copies of the selection; the selection itself and the call are left behind.
      obtain ⟨ids, fed, changes⟩ :=
        substituteTo_becomes single held (held.length_le own) own selected (List.disjoint_symm apart)
      have known := (changes.frame id (lt_size found) fun member =>
        List.disjoint_singleton.mp outside (List.mem_append_left _ member)).trans found
      have changes := changes.append (.one known) (inside_of_found found)
        (List.disjoint_of_subset_right (List.subset_append_left _ _) (List.disjoint_symm outside))
      have moved := moveExport_becomes fed (plain feature List.mem_cons_self) known changes.distinct
      refine ⟨ids, moved.holds, (changes.loosen ?_).trans moved.changes⟩
      exact List.append_subset.mpr
        ⟨fun i member => List.mem_append_left _ (List.mem_append_left _ member), List.subset_append_right _ _⟩
    · exact ⟨_, holds, .of_holds holds distinct⟩

private theorem rewriteCall_of_unbound {id : Nat} (unbound : a.chosen? catalog id = none) : rewriteCall catalog a id = (a, id) := by
  rw [rewriteCall, unbound]

private theorem lowerTo_becomes {levels : Nat} {a : Arena} {plot : Plot Kind (Binding σ)}
    (holds : Holds (boundReading catalog) a plot) (enough : plot.ids.length ≤ levels) (distinct : plot.ids.Nodup) :
    ∃ ids, Becomes (boundReading catalog) a (lowerTo catalog levels a plot.root).1 plot.ids
      ⟨plot.exported, (lowerTo catalog levels a plot.root).2, Bound.lower plot.tree, ids⟩ := by
  induction levels generalizing a plot with
  | zero => exact absurd enough holds.not_le_zero
  | succ levels ih =>
    cases holds with
    | raw found shape marked =>
      rw [lowerTo, eachArg_leaf (by rw [args_of_found found, Node.args, shape]),
        rewriteCall_of_unbound (by rw [chosen?_of_found found, show _ = _ from marked]; rfl)]
      exact ⟨_, .raw found shape marked, .of_holds (.raw found shape marked) distinct⟩
    | constant found shape marked =>
      rw [lowerTo, eachArg_leaf (by rw [args_of_found found, Node.args, shape]),
        rewriteCall_of_unbound (by rw [chosen?_of_found found, show _ = _ from marked]; rfl)]
      exact ⟨_, .constant found shape marked, .of_holds (.constant found shape marked) distinct⟩
    | @call id n name binding plots found shape marked each plain =>
      have turns : Turns (boundReading catalog) (boundReading catalog) [] plots (lowerTo catalog levels) Bound.lower := by
        intro a plot held holds distinct _
        obtain ⟨ids, becomes⟩ := ih holds (levels_of_call enough plot held) distinct
        exact ⟨ids, plain plot held ▸ becomes⟩
      obtain ⟨plots', trees, rewritten⟩ := turns.eachArg found shape each distinct (List.forall_mem_nil _)
        (List.forall_mem_nil _)
      rw [lowerTo]
      obtain ⟨ids, becomes⟩ := rewriteCall_becomes rewritten.found rfl marked rewritten.each rewritten.plain
        rewritten.changes.distinct (trees.trans (List.map_map (g := Bound.lower)).symm)
      exact ⟨ids, becomes.holds, rewritten.changes.trans becomes.changes⟩

theorem lower_becomes (holds : Holds (boundReading catalog) a plot) (distinct : plot.ids.Nodup) :
    ∃ ids, Becomes (boundReading catalog) a (a.lower catalog plot.root).1 plot.ids
      ⟨plot.exported, (a.lower catalog plot.root).2, Bound.lower plot.tree, ids⟩ :=
  lowerTo_becomes holds (holds.length_le distinct) distinct

end FlowMetering.Arena
