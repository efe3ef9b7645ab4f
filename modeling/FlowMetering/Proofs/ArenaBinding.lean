import FlowMetering.Proofs.ArenaExpansion
import FlowMetering.Proofs.ArenaRewriting
import FlowMetering.Proofs.OverloadSearch

/-! Binding in arenas. An attempt leaves marks on the nodes of an expression; when it fails they are wiped off again, so each
candidate finds the arena as the first one did, and the marks of the one that succeeds are the bound tree. -/

namespace FlowMetering.Arena

variable {σ φ ε α β : Type} {catalog : Catalog σ φ} {a b c : Arena} {ids others : List Nat}

private theorem ext_node? (size : a.size = b.size) (same : ∀ id < b.size, a.node? id = b.node? id) : a = b := by
  obtain ⟨nodes⟩ := a
  obtain ⟨others⟩ := b
  refine congrArg Arena.mk (List.ext_getElem? fun id => ?_)
  rcases Nat.lt_or_ge id others.length with inside | outside
  · exact same id inside
  · rw [List.getElem?_eq_none outside, List.getElem?_eq_none (Nat.le_trans (Nat.le_of_eq size) outside)]

def Node.unmarked (n : Node) : Node :=
  { n with mark := {} }

/-- Some nodes have been marked, and nothing else has happened. -/
structure Marks (a b : Arena) (ids : List Nat) : Prop where
  size : b.size = a.size
  frame : ∀ id ∉ ids, b.node? id = a.node? id
  unmarked : ∀ id, (b.node? id).map Node.unmarked = (a.node? id).map Node.unmarked

namespace Marks

private theorem refl (a : Arena) (ids : List Nat) : Marks a a ids :=
  ⟨rfl, fun _ _ => rfl, fun _ => rfl⟩

private theorem trans (first : Marks a b ids) (second : Marks b c others) : Marks a c (ids ++ others) where
  size := second.size.trans first.size
  frame id outside := by
    rw [List.mem_append, not_or] at outside
    rw [second.frame id outside.2, first.frame id outside.1]
  unmarked id := (second.unmarked id).trans (first.unmarked id)

private theorem mono (marks : Marks a b ids) (subset : ids ⊆ others) : Marks a b others :=
  ⟨marks.size, fun id outside => marks.frame id fun member => outside (subset member), marks.unmarked⟩

private theorem modify {f : Node → Node} (marking : ∀ n, (f n).unmarked = n.unmarked) (a : Arena) (id : Nat) :
    Marks a (a.modify id f) [id] where
  size := size_modify a id f
  frame i outside := by
    rw [node?_modify, if_neg]
    rintro rfl
    exact outside (List.mem_singleton_self _)
  unmarked i := by
    rw [node?_modify]
    split
    · cases a.node? i with
      | none => rfl
      | some n => exact congrArg some (marking n)
    · rfl

private theorem setKind (a : Arena) (id : Nat) (kind : Kind) : Marks a (a.setKind id kind) [id] := by
  refine .modify (fun n => ?_) a id
  rfl

private theorem setEntry (a : Arena) (id entry : Nat) (kind : Kind) : Marks a (a.setEntry id entry kind) [id] := by
  refine .modify (fun n => ?_) a id
  rfl

private theorem changes (marks : Marks a b ids) (inside : ∀ id ∈ ids, id < a.size) (distinct : ids.Nodup) : Changes a b ids ids :=
  ⟨Nat.le_of_eq marks.size.symm, fun id _ outside => marks.frame id outside, fun _ member => .inl member,
    fun id member => marks.size ▸ inside id member, distinct⟩

private theorem keeps {ρ ι : Type} {reading : Reading ρ ι} {plot : Plot ρ ι} (marks : Marks a b ids) (holds : Holds reading a plot)
    (disjoint : plot.ids.Disjoint ids) : Holds reading b plot :=
  holds.frame fun id member => marks.frame id (disjoint member)

private theorem postOrder (marks : Marks a b ids) (id : Nat) : b.postOrder id = a.postOrder id := by
  rw [Arena.postOrder, Arena.postOrder, marks.size]
  generalize a.size = levels
  induction levels generalizing id with
  | zero => rfl
  | succ levels ih =>
    have same := marks.unmarked id
    rw [postOrderTo, postOrderTo]
    cases before : a.node? id with
    | none =>
      rw [before, Option.map_none, Option.map_eq_none_iff] at same
      rw [same]
    | some n =>
      obtain ⟨m, after, alike⟩ := Option.map_eq_some_iff.mp (same.trans (congrArg _ before))
      have args : m.args = n.args := (congrArg Node.args alike :)
      rw [after]
      simp only [args]
      rw [List.flatMap_congr fun arg _ => ih arg]

end Marks

private theorem node?_setKind {id : Nat} {n : Node} (found : a.node? id = some n) (fresh : n.mark = {}) (kind : Kind) :
    (a.setKind id kind).node? id = some { n with mark := ⟨some kind, none⟩ } := by
  rw [setKind, node?_modify, if_pos rfl, found, Option.map_some, fresh]

private theorem node?_setEntry {id : Nat} {n : Node} (found : a.node? id = some n) (entry : Nat) (kind : Kind) :
    (a.setEntry id entry kind).node? id = some { n with mark := ⟨some kind, some entry⟩ } := by
  rw [setEntry, node?_modify, if_pos rfl, found, Option.map_some]

private theorem foldl_unmark (ids : List Nat) (a : Arena) (id : Nat) :
    (ids.foldl (fun a id => a.modify id Node.unmarked) a).node? id =
      if id ∈ ids then (a.node? id).map Node.unmarked else a.node? id := by
  induction ids generalizing a with
  | nil => rfl
  | cons first ids ih =>
    rw [List.foldl_cons, ih, node?_modify]
    by_cases same : first = id
    · cases a.node? id <;> simp [same, Node.unmarked]
    · simp [same, Ne.symm same]

private theorem size_foldl_unmark (ids : List Nat) (a : Arena) :
    (ids.foldl (fun a id => a.modify id Node.unmarked) a).size = a.size := by
  induction ids generalizing a with
  | nil => rfl
  | cons first ids ih => rw [List.foldl_cons, ih, size_modify]

private theorem Holds.unmarked {plot : Plot Unit String} (holds : Holds plainReading a plot) :
    ∀ id ∈ plot.ids, (a.node? id).map Node.unmarked = a.node? id := by
  have fresh {id : Nat} {n : Node} (found : a.node? id = some n) (mark : n.mark = {}) :
      (a.node? id).map Node.unmarked = a.node? id := by
    rw [found, Option.map_some, Node.unmarked, ← mark]
  induction holds with
  | raw found shape marked => exact List.forall_mem_singleton.mpr (fresh found marked)
  | constant found shape marked => exact List.forall_mem_singleton.mpr (fresh found marked)
  | call found shape marked each plain ih =>
    refine List.forall_mem_append.mpr ⟨fun id member => ?_, List.forall_mem_singleton.mpr (fresh found marked.1)⟩
    obtain ⟨plot, held, inside⟩ := List.mem_flatMap.mp member
    exact ih plot held id inside

private theorem unmark_eq {plot : Plot Unit String} (holds : Holds plainReading a plot) (distinct : plot.ids.Nodup)
    (marks : Marks a b plot.ids) : b.unmark plot.root = a := by
  have order : b.postOrder plot.root = plot.ids :=
    (marks.postOrder plot.root).trans (postOrderTo_eq holds (holds.length_le distinct))
  rw [unmark, order]
  refine ext_node? ((size_foldl_unmark plot.ids b).trans marks.size) fun id _ => (foldl_unmark plot.ids b id).trans ?_
  split
  next member => rw [marks.unmarked, holds.unmarked id member]
  next outside => exact marks.frame id outside

/-- An attempt has marked some nodes. It fails as the one on trees does, or what it has left shows its result. -/
structure Attempt (shown : Arena → β → Prop) (a : Arena) (ids : List Nat) (outcome : Arena × Except ε Unit)
    (result : Except ε β) : Prop where
  marks : Marks a outcome.1 ids
  agrees : Simulates (fun _ b => shown outcome.1 b) outcome.2 result

/-- The candidates are tried on equal terms, since the marks of those that fail are wiped off. -/
private theorem untilOk_attempt {shown : Arena → β → Prop} {step : Arena → α → Arena × Except Problem Unit} {undo : Arena → Arena}
    {attempt : α → Except Problem β} (undoes : ∀ b, Marks a b ids → undo b = a) {items : List α}
    (attempts : ∀ item ∈ items, Attempt shown a ids (step a item) (attempt item)) :
    Attempt shown a ids (untilOk step undo a items) (Bound.firstOk attempt items) := by
  induction items with
  | nil => exact ⟨.refl a ids, .error _⟩
  | cons item items ih =>
    obtain ⟨⟨marks, agrees⟩, others⟩ := List.forall_mem_cons.mp attempts
    have rest := ih others
    rw [untilOk, Bound.firstOk]
    generalize step a item = outcome, attempt item = result at marks agrees
    obtain ⟨b, done⟩ := outcome
    cases agrees with
    | ok results => exact ⟨marks, .ok results⟩
    | error problem =>
      dsimp only at marks ⊢
      rw [undoes b marks]
      generalize untilOk step undo a items = outcome, Bound.firstOk attempt items = results at rest
      obtain ⟨c, done⟩ := outcome
      obtain ⟨marks, agrees⟩ := rest
      cases agrees with
      | ok results => exact ⟨marks, .ok results⟩
      | error problems => exact ⟨marks, .error _⟩

private def Placed (reading : Reading Kind (Binding σ)) (plots : List (Plot Unit String)) (b : Arena) (trees : List (Bound σ)) : Prop :=
  ∃ plots' : List (Plot Kind (Binding σ)), plots'.map (·.outline) = plots.map (·.outline) ∧
    plots'.flatMap (·.ids) = plots.flatMap (·.ids) ∧ plots'.map (·.tree) = trees ∧ ∀ plot ∈ plots', Holds reading b plot

private theorem untilError_attempt {step : Arena → Nat × Kind → Arena × Except Problem Unit} {plots : List (Plot Unit String)}
    (attempts : ∀ a, ∀ plot ∈ plots, ∀ kind, Holds plainReading a plot → plot.ids.Nodup →
      Attempt (fun b tree => Holds (boundReading catalog) b ⟨plot.exported, plot.root, tree, plot.ids⟩) a plot.ids
        (step a (plot.root, kind)) (Bound.ofExpression catalog kind plot.tree))
    {kinds : List Kind} (full : kinds.length = plots.length) {a : Arena} (each : ∀ plot ∈ plots, Holds plainReading a plot)
    (distinct : (plots.flatMap (·.ids)).Nodup) :
    Attempt (Placed (boundReading catalog) plots) a (plots.flatMap (·.ids))
      (untilError step a ((plots.map (·.root)).zip kinds)) (Bound.ofExpressions catalog kinds (plots.map (·.tree))) := by
  induction plots generalizing kinds a with
  | nil => exact ⟨.refl a _, .ok ⟨[], rfl, rfl, rfl, List.forall_mem_nil _⟩⟩
  | cons plot plots ih =>
    obtain _ | ⟨kind, kinds⟩ := kinds
    · cases full
    rw [List.forall_mem_cons] at each
    rw [List.flatMap_cons, List.nodup_append'] at distinct
    obtain ⟨own, distinct, disjoint⟩ := distinct
    obtain ⟨marks, agrees⟩ := attempts a plot List.mem_cons_self kind each.1 own
    rw [List.map_cons, List.map_cons, List.zip_cons_cons, untilError, Bound.ofExpressions]
    generalize step a (plot.root, kind) = outcome, Bound.ofExpression catalog kind plot.tree = result at marks agrees
    obtain ⟨b, done⟩ := outcome
    cases agrees with
    | error problem => exact ⟨marks.mono (List.subset_append_left _ _), .error problem⟩
    | @ok _ tree holds =>
      dsimp only at marks holds ⊢
      have rest := ih (fun a other held => attempts a other (List.mem_cons_of_mem _ held)) (Nat.succ.inj full)
        (fun other held => marks.keeps (each.2 other held) (apart_of_mem held (List.disjoint_symm disjoint))) distinct
      generalize untilError step b ((plots.map (·.root)).zip kinds) = outcome,
        Bound.ofExpressions catalog kinds (plots.map (·.tree)) = results at rest
      obtain ⟨c, done⟩ := outcome
      obtain ⟨marks', agrees⟩ := rest
      cases agrees with
      | error problem => exact ⟨marks.trans marks', .error problem⟩
      | ok results =>
        obtain ⟨plots', outlines, ids, rfl, held⟩ := results
        refine ⟨marks.trans marks', .ok ⟨⟨plot.exported, plot.root, tree, plot.ids⟩ :: plots', ?_, ?_, rfl,
          List.forall_mem_cons.mpr ⟨marks'.keeps holds disjoint, held⟩⟩⟩
        · rw [List.map_cons, List.map_cons, outlines]
          rfl
        · rw [List.flatMap_cons, List.flatMap_cons, ids]

private theorem candidate_attempt {step : Arena → Nat × Kind → Arena × Except Problem Unit} {plots : List (Plot Unit String)}
    (attempts : ∀ a, ∀ plot ∈ plots, ∀ kind, Holds plainReading a plot → plot.ids.Nodup →
      Attempt (fun b tree => Holds (boundReading catalog) b ⟨plot.exported, plot.root, tree, plot.ids⟩) a plot.ids
        (step a (plot.root, kind)) (Bound.ofExpression catalog kind plot.tree))
    {id : Nat} {n : Node} {name : String} (found : a.node? id = some n) (shape : n.shape = .call name (plots.map (·.root)))
    (each : ∀ plot ∈ plots, Holds plainReading a plot) (plain : ∀ plot ∈ plots, plot.exported = none)
    (distinct : (plots.flatMap (·.ids) ++ [id]).Nodup) {required : Kind} {candidate : Registered σ}
    (member : candidate ∈ catalog.find name required plots.length) :
    Attempt (fun b tree => Holds (boundReading catalog) b ⟨n.exported, id, tree, plots.flatMap (·.ids) ++ [id]⟩) a
      (plots.flatMap (·.ids) ++ [id])
      (bindCandidate step id (plots.map (·.root)) required a candidate)
      ((Bound.ofExpressions catalog (((candidate.entry.argumentKinds plots.length).getD []).map (Bound.argumentKind required))
        (plots.map (·.tree))).map (.call ⟨candidate, required⟩)) := by
  obtain ⟨registered, named, -, kinds, takes⟩ := Bound.mem_find_iff.mp member
  rw [bindCandidate, List.length_map, takes, Option.getD_some]
  obtain ⟨others, -, outside⟩ := List.nodup_append'.mp distinct
  have full : (kinds.map (Bound.argumentKind required)).length = plots.length :=
    (List.length_map _).trans (Bound.argumentKinds_length takes)
  obtain ⟨marks, agrees⟩ := untilError_attempt attempts full each others
  generalize untilError step a _ = outcome, Bound.ofExpressions catalog _ _ = results at marks agrees
  obtain ⟨b, done⟩ := outcome
  cases agrees with
  | error problem => exact ⟨marks.mono (List.subset_append_left _ _), .error problem⟩
  | ok results =>
    obtain ⟨plots', outlines, ids, rfl, held⟩ := results
    have known : b.node? id = some n := (marks.frame id (List.disjoint_singleton.mp outside)).trans found
    refine ⟨marks.trans (.setEntry b id _ _), .ok ?_⟩
    rw [← ids]
    refine .call (n := { n with mark := ⟨some required, some candidate.id⟩ }) (node?_setEntry known _ _)
      (shape.trans (by rw [roots_of_outlines outlines])) ⟨named.symm, rfl, ?_⟩ (fun plot inside => ?_) (plain_of_outlines outlines plain)
    · exact Catalog.entries_getElem? registered
    · exact (Marks.setEntry b id candidate.id required).keeps (held plot inside) (apart_of_mem inside (ids ▸ outside))

private theorem bindTo_attempt (catalog : Catalog σ φ) {levels : Nat} (required : Kind) {a : Arena} {plot : Plot Unit String}
    (holds : Holds plainReading a plot) (enough : plot.ids.length ≤ levels) (distinct : plot.ids.Nodup) :
    Attempt (fun b tree => Holds (boundReading catalog) b ⟨plot.exported, plot.root, tree, plot.ids⟩) a plot.ids
      (bindTo catalog levels a (plot.root, required)) (Bound.ofExpression catalog required plot.tree) := by
  induction levels generalizing a plot required with
  | zero => exact absurd enough holds.not_le_zero
  | succ levels ih =>
    cases holds with
    | @raw id n mark found shape fresh =>
      rw [bindTo, found, Bound.ofExpression]
      simp only [shape]
      split
      · exact ⟨.setKind a id required,
          .ok (.raw (n := { n with mark := ⟨some required, none⟩ }) (node?_setKind found fresh required) shape rfl)⟩
      · exact ⟨.refl a _, .error _⟩
    | @constant id n value found shape fresh =>
      rw [bindTo, found, Bound.ofExpression]
      simp only [shape]
      split
      · exact ⟨.setKind a id .constant,
          .ok (.constant (n := { n with mark := ⟨some .constant, none⟩ }) (node?_setKind found fresh .constant) shape rfl)⟩
      · exact ⟨.refl a _, .error _⟩
    | @call id n name head plots found shape fresh each plain =>
      obtain ⟨fresh, rfl⟩ := fresh
      -- Whatever a candidate has marked, wiping brings back `a`, where the nodes have no marks.
      have wiped (b : Arena) (marks : Marks a b (plots.flatMap (·.ids) ++ [id])) : b.unmark id = a :=
        unmark_eq (.call found shape ⟨fresh, rfl⟩ each plain) distinct marks
      have attempts (candidate : Registered σ) (member : candidate ∈ catalog.find head required plots.length) :=
        candidate_attempt (fun a plot held kind holds => ih kind holds (levels_of_call enough plot held)) found shape each plain
          distinct member
      rw [bindTo, found, Bound.ofExpression]
      simp only [shape, List.length_map]
      cases candidates : catalog.find head required plots.length with
      | nil => exact ⟨.refl a _, .error _⟩
      | cons first candidates =>
        rw [candidates] at attempts
        have tried := untilOk_attempt wiped attempts
        dsimp only
        generalize untilOk _ _ a _ = outcome, Bound.firstOk _ _ = result at tried
        obtain ⟨b, done⟩ := outcome
        obtain ⟨marks, agrees⟩ := tried
        cases agrees with
        | ok results => exact ⟨marks, .ok results⟩
        | error problems => exact ⟨marks, .error _⟩

theorem bindRoot_simulates {a : Arena} {plot : Plot Unit String} (holds : Holds plainReading a plot)
    (distinct : plot.ids.Nodup) :
    Simulates (fun result tree => Becomes (boundReading catalog) a result.1 plot.ids ⟨plot.exported, result.2, tree, plot.ids⟩)
      (a.bindRoot catalog plot.root) (Bound.ofExpression catalog .flowFeature plot.tree) := by
  obtain ⟨marks, agrees⟩ :=
    bindTo_attempt catalog .flowFeature holds (holds.length_le distinct) distinct
  rw [bindRoot]
  generalize bindTo catalog a.size a _ = outcome, Bound.ofExpression catalog _ plot.tree = result at marks agrees
  obtain ⟨b, done⟩ := outcome
  cases agrees with
  | ok held => exact .ok ⟨held, marks.changes holds.lt distinct⟩
  | error problem => exact .error problem

def controlTree (control : Registered σ) : Bound σ :=
  .call ⟨control, .control⟩ [.raw .rawPacket]

private theorem findControl_some {name : String} {control : Registered σ} (found : catalog.findControl name = some control) :
    control ∈ catalog.registered ∧ control.entry.name = name := by
  refine ⟨List.mem_of_find?_eq_some found, ?_⟩
  have fits := List.find?_some found
  simp only [Bool.and_eq_true, beq_iff_eq] at fits
  exact fits.1.1

private theorem control_becomes {id inputId : Nat} {n : Node} {control : Registered σ} (registered : control ∈ catalog.registered)
    (found : a.node? id = some n) (shape : n.shape = .call control.entry.name [inputId])
    (below : Holds plainReading a ⟨none, inputId, .raw (), [inputId]⟩) (apart : id ≠ inputId) :
    Becomes (boundReading catalog) a ((a.setKind inputId .rawPacket).setEntry id control.id .control) [inputId, id]
      ⟨n.exported, id, controlTree control, [inputId, id]⟩ := by
  have inputMarks := Marks.setKind a inputId .rawPacket
  have callMarks := Marks.setEntry (a.setKind inputId .rawPacket) id control.id .control
  have known := (inputMarks.frame id (by simpa using apart)).trans found
  have input : Holds (boundReading catalog) (a.setKind inputId .rawPacket) (inputPlot inputId) := by
    generalize hidden : (none : Option (String × Option Element)) = exported at below
    cases below with
    | @raw _ m _ found shape fresh =>
      rw [inputPlot, hidden]
      exact .raw (n := { m with mark := ⟨some .rawPacket, none⟩ }) (node?_setKind found fresh .rawPacket) shape rfl
  have inside : ∀ i ∈ [inputId, id], i < a.size := by
    simpa using ⟨below.lt inputId (List.mem_singleton_self _), lt_size found⟩
  refine ⟨?_, (inputMarks.trans callMarks).changes inside (by simpa using apart.symm)⟩
  have called : Holds (boundReading catalog) ((a.setKind inputId .rawPacket).setEntry id control.id .control)
      ⟨n.exported, id, .call ⟨control, .control⟩ ([inputPlot inputId].map (·.tree)),
        [(inputPlot inputId : Plot Kind (Binding σ))].flatMap (·.ids) ++ [id]⟩ := by
    refine .call (n := { n with mark := ⟨some .control, some control.id⟩ }) (node?_setEntry known _ _) shape
      ⟨rfl, rfl, Catalog.entries_getElem? registered⟩ (List.forall_mem_singleton.mpr ?_) (List.forall_mem_singleton.mpr rfl)
    exact callMarks.keeps input (by simpa [inputPlot] using apart)
  exact called

theorem bindControl_simulates {a : Arena} {plot : Plot Unit String} (holds : Holds plainReading a plot)
    (distinct : plot.ids.Nodup) {name : String} (written : plot.tree = .call name [.raw ()]) :
    Simulates (fun result control => Becomes (boundReading catalog) a result.1 plot.ids
        ⟨plot.exported, result.2, controlTree control, plot.ids⟩)
      (a.bindControl catalog plot.root) (Specification.boundControl catalog name) := by
  cases holds with
  | raw found shape fresh => cases written
  | constant found shape fresh => cases written
  | @call id n _ head plots found shape fresh each plain =>
    obtain ⟨-, rfl⟩ := fresh
    obtain ⟨rfl, single⟩ := Tree.call.inj written
    obtain ⟨⟨exported, inputId, tree, ids⟩, rfl, raw⟩ := List.map_eq_singleton_iff.mp single
    have below := each _ List.mem_cons_self
    obtain rfl : tree = .raw () := raw
    obtain rfl : ids = [inputId] := by cases below; rfl
    obtain rfl : exported = none := plain _ List.mem_cons_self
    rw [bindControl, found, Specification.boundControl, args_of_found found, Node.args, shape]
    simp only [Node.name, shape]
    cases control : catalog.findControl head with
    | none => exact .error _
    | some control' =>
      obtain ⟨registered, rfl⟩ := findControl_some control
      exact .ok (control_becomes registered found shape below (by simpa [eq_comm] using distinct))

end FlowMetering.Arena
