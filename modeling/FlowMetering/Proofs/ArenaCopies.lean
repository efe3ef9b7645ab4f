import FlowMetering.Proofs.ArenaTrees
import FlowMetering.Proofs.Trees

/-! Copies in arenas. A copy is a tree of its own, so copies can be put in the place of raw inputs without any node being
used twice. -/

namespace FlowMetering.Arena

variable {ρ ι : Type} {reading : Reading ρ ι}

/-- A node that is no call has no arguments to change. -/
theorem Node.mapArgs_of_leaf {n : Node} (leaf : ∀ name ids, n.shape ≠ .call name ids) (f : List Nat → List Nat) :
    n.mapArgs f = n := by
  rw [mapArgs]
  split
  next name ids shape => exact absurd shape (leaf name ids)
  next => rfl

private theorem foldl_copies {copy : Nat → Arena → Arena × Nat} {plots : List (Plot ρ ι)}
    (copies : ∀ a, ∀ plot ∈ plots, Holds reading a plot →
      ∃ ids, Becomes reading a (copy plot.root a).1 [] ⟨none, (copy plot.root a).2, plot.tree, ids⟩)
    {a : Arena} (each : ∀ plot ∈ plots, Holds reading a plot) (before : List Nat) :
    ∃ plots' b, (plots.map (·.root)).foldl (fun (a, done) arg => ((copy arg a).1, done ++ [(copy arg a).2])) (a, before) =
        (b, before ++ plots'.map (·.root)) ∧
      plots'.map (·.tree) = plots.map (·.tree) ∧ (∀ plot ∈ plots', plot.exported = none) ∧ AllBecome reading a b [] plots' := by
  induction plots generalizing a before with
  | nil => exact ⟨[], a, by simp, rfl, List.forall_mem_nil _, .nil reading a⟩
  | cons plot plots ih =>
    rw [List.forall_mem_cons] at each
    obtain ⟨ids, copied⟩ := copies a plot List.mem_cons_self each.1
    obtain ⟨plots', b, folded, trees, plain, rest⟩ := ih (fun a other held => copies a other (List.mem_cons_of_mem _ held))
      (fun other held => copied.changes.keeps (each.2 other held) (List.disjoint_nil_right _)) (before ++ [(copy plot.root a).2])
    refine ⟨⟨none, (copy plot.root a).2, plot.tree, ids⟩ :: plots', b, ?_, ?_, List.forall_mem_cons.mpr ⟨rfl, plain⟩,
      .cons copied rest (List.forall_mem_nil _) (List.disjoint_nil_left _)⟩
    · rw [List.map_cons, List.foldl_cons, folded, List.append_assoc]
      rfl
    · rw [List.map_cons, List.map_cons, trees]

private theorem cloneTo_becomes {levels : Nat} {a : Arena} {plot : Plot ρ ι} (holds : Holds reading a plot)
    (enough : plot.ids.length ≤ levels) :
    ∃ ids, Becomes reading a (cloneTo levels plot.root a).1 [] ⟨none, (cloneTo levels plot.root a).2, plot.tree, ids⟩ := by
  induction levels generalizing a plot with
  | zero => exact absurd enough holds.not_le_zero
  | succ levels ih =>
    cases holds with
    | @raw id n mark found shape marked =>
      simp only [cloneTo, found, Node.args, shape, List.foldl_nil, Node.mapArgs_of_leaf (n := n) (by simp [shape])]
      exact ⟨[a.size], .raw (node?_push_size a _) rfl marked, .push a _⟩
    | @constant id n value found shape marked =>
      simp only [cloneTo, found, Node.args, shape, List.foldl_nil, Node.mapArgs_of_leaf (n := n) (by simp [shape])]
      exact ⟨[a.size], .constant (node?_push_size a _) rfl marked, .push a _⟩
    | @call id n name head plots found shape marked each plain =>
      obtain ⟨plots', b, folded, trees, hidden, copied⟩ :=
        foldl_copies (fun a plot held holds => ih holds (levels_of_call enough plot held)) each []
      simp only [cloneTo, found, Node.args, shape, folded, Node.mapArgs_of_call shape, List.nil_append]
      have pushed := Changes.push b { n with shape := .call name (plots'.map (·.root)), exported := none }
      refine ⟨plots'.flatMap (·.ids) ++ [b.size], ?_, ?_⟩
      · rw [← trees]
        refine .call (node?_push_size b _) rfl marked (fun plot held => ?_) hidden
        exact pushed.keeps (copied.each plot held) (List.disjoint_nil_right _)
      · exact copied.changes.append pushed (List.forall_mem_nil _) (List.disjoint_nil_left _)

theorem Holds.isRaw {a : Arena} {plot : Plot ρ ι} (holds : Holds reading a plot) : a.isRaw plot.root = plot.tree.isRaw := by
  cases holds with
  | raw found shape marked => simp [Arena.isRaw, found, Node.isRaw, shape, Tree.isRaw]
  | constant found shape marked => simp [Arena.isRaw, found, Node.isRaw, shape, Tree.isRaw]
  | call found shape marked each plain => simp [Arena.isRaw, found, Node.isRaw, shape, Tree.isRaw]

theorem eachArg_leaf {a : Arena} {id : Nat} (leaf : a.args id = []) (step : Arena → Nat → Id (Arena × Nat)) :
    a.eachArg step id = a := by
  rw [eachArg, leaf]
  rfl

private theorem deepClone_becomes {a : Arena} {plot : Plot ρ ι} (holds : Holds reading a plot) (distinct : plot.ids.Nodup) :
    ∃ ids, Becomes reading a (a.deepClone plot.root).1 [] ⟨none, (a.deepClone plot.root).2, plot.tree, ids⟩ :=
  cloneTo_becomes holds (holds.length_le distinct)

/-- The raw inputs of a tree are exchanged for copies of another one. -/
theorem substituteTo_becomes {selection : Plot ρ ι} (single : selection.ids.Nodup) {levels : Nat} {a : Arena}
    {plot : Plot ρ ι} (holds : Holds reading a plot) (enough : plot.ids.length ≤ levels) (distinct : plot.ids.Nodup)
    (selected : Holds reading a selection) (apart : selection.ids.Disjoint plot.ids) :
    ∃ ids, Becomes reading a (substituteTo selection.root levels a plot.root) plot.ids
      ⟨plot.exported, plot.root, plot.tree.withInput selection.tree, ids⟩ := by
  induction levels generalizing a plot with
  | zero => exact absurd enough holds.not_le_zero
  | succ levels ih =>
    cases holds with
    | raw found shape marked =>
      rw [substituteTo, eachArg_leaf (by rw [args_of_found found, Node.args, shape])]
      exact ⟨_, .raw found shape marked, .of_holds (.raw found shape marked) distinct⟩
    | constant found shape marked =>
      rw [substituteTo, eachArg_leaf (by rw [args_of_found found, Node.args, shape])]
      exact ⟨_, .constant found shape marked, .of_holds (.constant found shape marked) distinct⟩
    | @call id n name head plots found shape marked each plain =>
      have turns : Turns reading reading [selection] plots
          (fun a arg => if a.isRaw arg then a.deepClone selection.root else (substituteTo selection.root levels a arg, arg))
          (Tree.fedBy selection.tree) := by
        intro a plot held holds distinct stays
        have selected := List.forall_mem_singleton.mp stays
        dsimp only
        rw [holds.isRaw]
        cases raw : plot.tree.isRaw with
        | true =>
          obtain ⟨ids, copied, changes⟩ := deepClone_becomes selected single
          rw [if_pos rfl, Tree.fedBy_of_isRaw selection.tree raw]
          exact ⟨ids, copied, changes.loosen (List.nil_subset _)⟩
        | false =>
          have apart' : selection.ids.Disjoint plot.ids :=
            List.disjoint_symm (apart_of_mem held (List.disjoint_symm (List.disjoint_append_right.mp apart).1))
          obtain ⟨ids, becomes⟩ := ih holds (levels_of_call enough plot held) distinct selected apart'
          rw [if_neg Bool.false_ne_true, ← Tree.withInput_eq_fedBy (fun mark same => by simp [same, Tree.isRaw] at raw)]
          exact ⟨ids, plain plot held ▸ becomes⟩
      rw [Tree.withInput, Tree.withInputs_eq_map, List.map_map]
      obtain ⟨plots', trees, rewritten⟩ := turns.eachArg found shape each distinct
        (List.forall_mem_singleton.mpr selected) (List.forall_mem_singleton.mpr apart)
      have called := rewritten.call rfl marked
      rw [trees] at called
      exact ⟨_, called⟩

end FlowMetering.Arena
