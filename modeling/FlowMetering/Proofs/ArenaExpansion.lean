import FlowMetering.Arena.Binding
import FlowMetering.Proofs.ArenaCopies
import FlowMetering.Proofs.LoweredTrees

/-! Expansion in arenas. Expressions are added as they are written, and what replaces their composites in place is what the
expansion of trees gives. A composite that cannot be replaced is the same problem in both. -/

namespace FlowMetering.Arena

def plainReading : Reading Unit String where
  raw mark _ := mark = {}
  constant mark := mark = {}
  call name mark head := mark = {} ∧ head = name

/-- A computation gives an unexported tree in the place of some nodes, or fails as the one on trees does. -/
private abbrev Yields (a : Arena) (ids : List Nat) : Except Problem (Arena × Nat) → Except Problem Expression → Prop :=
  Simulates fun result e => ∃ ids', Becomes plainReading a result.1 ids ⟨none, result.2, e, ids'⟩

private theorem addAll_becomes {position : Nat} {es : List Expression}
    (each : ∀ e ∈ es, ∀ a : Arena, ∃ ids, Becomes plainReading a (a.add position e).1 [] ⟨none, (a.add position e).2, e, ids⟩)
    (a : Arena) :
    ∃ plots, plots.map (·.root) = (a.addAll position es).2 ∧ plots.map (·.tree) = es ∧ (∀ plot ∈ plots, plot.exported = none) ∧
      AllBecome plainReading a (a.addAll position es).1 [] plots := by
  induction es generalizing a with
  | nil => exact ⟨[], rfl, rfl, List.forall_mem_nil _, .nil _ a⟩
  | cons e es ih =>
    obtain ⟨first, others⟩ := List.forall_mem_cons.mp each
    obtain ⟨ids, added⟩ := first a
    obtain ⟨plots, roots, trees, plain, rest⟩ := ih others (a.add position e).1
    refine ⟨⟨none, (a.add position e).2, e, ids⟩ :: plots, ?_, ?_, List.forall_mem_cons.mpr ⟨rfl, plain⟩, ?_⟩
    · rw [List.map_cons, roots, addAll]
    · rw [List.map_cons, trees]
    · rw [addAll]
      exact .cons added rest (List.forall_mem_nil _) (List.disjoint_nil_left _)

/-- An expression that has been added can be read again. -/
theorem add_becomes (position : Nat) (e : Expression) (a : Arena) :
    ∃ ids, Becomes plainReading a (a.add position e).1 [] ⟨none, (a.add position e).2, e, ids⟩ := by
  induction e using Tree.induct generalizing a with
  | raw mark => exact ⟨[a.size], .raw (node?_push_size a _) rfl rfl, .push a _⟩
  | constant value => exact ⟨[a.size], .constant (node?_push_size a _) rfl rfl, .push a _⟩
  | call name args ih =>
    obtain ⟨plots, roots, rfl, plain, added⟩ := addAll_becomes ih a
    have added_call : a.add position (.call name (plots.map (·.tree))) =
        (a.addAll position (plots.map (·.tree))).1.call name (plots.map (·.root)) position := by
      rw [roots]
      rfl
    rw [added_call]
    generalize (a.addAll position (plots.map (·.tree))).1 = b at added
    have pushed := Changes.push b
      { shape := .call name (plots.map (·.root)), position := position }
    refine ⟨plots.flatMap (·.ids) ++ [b.size], ?_, ?_⟩
    · refine .call (node?_push_size b _) rfl ⟨rfl, rfl⟩ (fun plot held => ?_) plain
      exact pushed.keeps (added.each plot held) (List.disjoint_nil_right _)
    · exact added.changes.append pushed (List.forall_mem_nil _) (List.disjoint_nil_left _)

section Expansion

variable {composite? : String → Option Composite} {a : Arena} {plot : Plot Unit String}

private theorem implicitOnly_eq {plots : List (Plot Unit String)} (each : ∀ plot ∈ plots, Holds plainReading a plot) :
    a.implicitOnly (plots.map (·.root)) = Expression.implicitOnly (plots.map (·.tree)) := by
  rcases plots with _ | ⟨plot, _ | ⟨other, plots⟩⟩
  · rfl
  · exact (each plot List.mem_cons_self).isRaw
  · rfl

private theorem expandWith_yields {unfold : Composite → Nat → Arena → Except Problem (Arena × Nat)}
    {unfold' : Composite → Except Problem Expression}
    (unfolds : ∀ a composite position, Yields a [] (unfold composite position a) (unfold' composite)) {levels : Nat}
    (holds : Holds plainReading a plot) (enough : plot.ids.length ≤ levels) (distinct : plot.ids.Nodup)
    (plain : plot.exported = none) :
    Yields a plot.ids (expandWith composite? unfold levels a plot.root)
      (Expression.expandWith composite? unfold' plot.tree) := by
  induction levels generalizing a plot with
  | zero => exact absurd enough holds.not_le_zero
  | succ levels ih =>
    cases holds with
    | raw found shape marked =>
      rw [expandWith, found]
      simp only [shape]
      exact .ok ⟨_, plain ▸ .raw found shape marked, .of_holds (.raw found shape marked) distinct⟩
    | constant found shape marked =>
      rw [expandWith, found]
      simp only [shape]
      exact .ok ⟨_, plain ▸ .constant found shape marked, .of_holds (.constant found shape marked) distinct⟩
    | @call id n name head plots found shape marked each hidden =>
      obtain ⟨mark, rfl⟩ := marked
      rw [expandWith, found, Expression.expandWith]
      simp only [shape, implicitOnly_eq each]
      cases composite? head with
      | some composite =>
        dsimp only
        split
        · refine (unfolds a composite n.position).imp ?_
          rintro result e ⟨ids, holds, changes⟩
          exact ⟨ids, holds, changes.loosen (List.nil_subset _)⟩
        · exact .error _
      | none =>
        have rewrites : Rewrites plainReading plainReading [] plots (expandWith composite? unfold levels)
            (Expression.expandWith composite? unfold') := fun a plot held holds distinct _ =>
          ih holds (levels_of_call enough plot held) distinct (hidden plot held)
        have looped := rewrites.eachArg found shape each distinct (List.forall_mem_nil _) (List.forall_mem_nil _)
        dsimp only
        rw [Expression.expandAllWith_eq_mapM, List.mapM_map]
        refine looped.map ?_
        rintro b trees ⟨plots', rfl, rewritten⟩
        have called : Becomes plainReading a b _ ⟨n.exported, id, .call head _, _⟩ := rewritten.call rfl ⟨mark, rfl⟩
        exact .ok ⟨_, (show n.exported = none from plain) ▸ called⟩

private theorem expand_yields {depth : Nat} (holds : Holds plainReading a plot) (distinct : plot.ids.Nodup)
    (plain : plot.exported = none) :
    Yields a plot.ids (a.expand composite? depth plot.root) (Expression.expand composite? depth plot.tree) := by
  have enough := holds.length_le distinct
  induction depth generalizing a plot with
  | zero =>
    refine expandWith_yields (fun a composite position => ?_) holds enough distinct plain
    exact .error _
  | succ depth ih =>
    refine expandWith_yields (fun a composite position => ?_) holds enough distinct plain
    cases Expression.ofJson composite.definition with
    | error problem => exact .error problem
    | ok definition =>
      obtain ⟨ids, holds, changes⟩ := add_becomes position definition a
      refine (ih holds changes.distinct rfl (holds.length_le changes.distinct)).imp ?_
      rintro result e ⟨ids', holds', changes'⟩
      exact ⟨ids', holds', changes.trans changes'⟩

end Expansion

section Rendering

variable {ρ ι : Type} {reading : Reading ρ ι} {a : Arena}

private theorem renderTo_eq {name : ι → String} (names : ∀ text mark head, reading.call text mark head → name head = text)
    {levels : Nat} {plot : Plot ρ ι} (holds : Holds reading a plot) (enough : plot.ids.length ≤ levels) :
    a.renderTo levels plot.root = plot.tree.render name := by
  induction levels generalizing plot with
  | zero => exact absurd enough holds.not_le_zero
  | succ levels ih =>
    cases holds with
    | raw found shape marked =>
      rw [renderTo, found]
      simp only [shape, Tree.render]
    | constant found shape marked =>
      rw [renderTo, found]
      simp only [shape, Tree.render]
    | @call id n text head plots found shape marked each plain =>
      have shown : ((plots.map (·.root)).filter (!a.isRaw ·)).map (a.renderTo levels) =
          ((plots.map (·.tree)).filter (!·.isRaw)).map (Tree.render name) := by
        have inside := levels_of_call enough
        clear enough shape plain
        induction plots with
        | nil => rfl
        | cons plot plots rest =>
          rw [List.forall_mem_cons] at each inside
          simp only [List.map_cons, List.filter_cons, each.1.isRaw]
          cases plot.tree.isRaw with
          | true => exact rest each.2 inside.2
          | false => exact List.cons_eq_cons.mpr ⟨ih each.1 inside.1, rest each.2 inside.2⟩
      rw [renderTo, found, Tree.render, Tree.renderVisible_eq, names _ _ _ marked]
      generalize ((plots.map (·.tree)).filter (!·.isRaw)).map (Tree.render name) = texts at shown
      cases texts with
      | nil => simp only [shape, shown]
      | cons first texts => simp only [shape, shown]

end Rendering

/-- A field stands in the place of some nodes, exported under its name. -/
def Exports (a : Arena) (ids : List Nat) (result : Arena × Nat) (field : Field Expression) : Prop :=
  ∃ ids', Becomes plainReading a result.1 ids ⟨some (field.name, field.declared), result.2, field.tree, ids'⟩

private theorem named_simulates {a b : Arena} {ids ids' : List Nat} {root : Nat} {e : Expression}
    (held : Holds plainReading b ⟨none, root, e, ids'⟩) (changes : Changes a b ids ids') (composite : Option Composite) :
    Simulates (Exports a ids)
      (match composite with
        | some composite => (.ok (b.setExport root composite.name composite.declared, root) : Except Problem (Arena × Nat))
        | none => .ok (b.setExport root (b.render root) none, root))
      (match composite with
        | some composite => .ok ⟨composite.name, composite.declared, e⟩
        | none => .ok ⟨e.text, none, e⟩) := by
  have exports (exported : Option (String × Option Element)) :
      Becomes plainReading a (b.modify root fun n => { n with exported := exported }) ids ⟨exported, root, e, ids'⟩ :=
    ⟨held.setExport changes.distinct exported, changes.trans (.modify held.root_mem held.lt changes.distinct _)⟩
  cases composite with
  | some composite => exact .ok ⟨ids', exports _⟩
  | none =>
    have called : b.render root = e.text := by
      refine renderTo_eq ?_ held (held.length_le changes.distinct)
      exact fun text mark head marked => marked.2
    exact .ok ⟨ids', called ▸ exports _⟩

/-- A feature is expanded and exported in place as it is by itself. -/
theorem expandRoot_simulates {composite? : String → Option Composite} {a : Arena} {plot : Plot Unit String}
    (holds : Holds plainReading a plot) (distinct : plot.ids.Nodup) (plain : plot.exported = none) :
    Simulates (Exports a plot.ids) (a.expandRoot composite? plot.root) (Field.ofExpression composite? plot.tree) := by
  unfold expandRoot Field.ofExpression
  refine (expand_yields holds distinct plain).bind ?_
  rintro ⟨b, root⟩ e ⟨ids, held, changes⟩
  cases holds with
  | raw found shape marked =>
    simp only [found, Option.map_some, shape]
    exact named_simulates held changes none
  | constant found shape marked =>
    simp only [found, Option.map_some, shape]
    exact named_simulates held changes none
  | call found shape marked each hidden =>
    simp only [found, Option.map_some, shape, marked.2]
    exact named_simulates held changes _

end FlowMetering.Arena
