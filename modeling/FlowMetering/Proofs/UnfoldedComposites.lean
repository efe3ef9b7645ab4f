import FlowMetering.Library.Catalog
import FlowMetering.Proofs.LocalErrors
import FlowMetering.Proofs.TransparentComposites

/-! Expansion over any catalog, with composites that stand for themselves or for one another. Definitions are unfolded again
wherever they come up, and what is unfolded may have no end; the limit on chains of composites is all that ends the search.
The problem that is reported is the first on the way through the unfolding, in depth and from left to right. -/

namespace FlowMetering

/-- The problem that comes before all others. A place is known by the turns taken on the way to it, so that places are in
the order in which a search in depth from left to right comes to them. -/
def First {ε : Type} (found : List Nat → ε → Prop) (problem : ε) : Prop :=
  ∃ place, found place problem ∧ ∀ other problem', found other problem' → place < other ∨ other = place ∧ problem' = problem

/-- An attempt that fails if there is any problem, and then with the first one. -/
def Reports {ε α : Type} (found : List Nat → ε → Prop) : Except ε α → Prop
  | .ok _ => ∀ place problem, ¬ found place problem
  | .error problem => First found problem

private def Among {ε α : Type} (found : α → List Nat → ε → Prop) (items : List α) (place : List Nat) (problem : ε) : Prop :=
  ∃ i item rest, items[i]? = some item ∧ place = i :: rest ∧ found item rest problem

private theorem First.unique {ε : Type} {found : List Nat → ε → Prop} {problem problem' : ε} (first : First found problem)
    (first' : First found problem') : problem' = problem := by
  obtain ⟨place, held, before⟩ := first
  obtain ⟨place', held', before'⟩ := first'
  rcases before place' problem' held' with less | ⟨-, same⟩
  · rcases before' place problem held with less' | ⟨-, same⟩
    · exact absurd less' (List.lt_asymm less)
    · exact same.symm
  · exact same

private theorem First.behind {ε : Type} {found inside : List Nat → ε → Prop} {problem : ε} (i : Nat) (first : First inside problem)
    (within : ∀ rest other, found (i :: rest) other ↔ inside rest other)
    (later : ∀ place other, found place other → ∃ j rest, place = j :: rest ∧ i ≤ j) : First found problem := by
  obtain ⟨place, held, before⟩ := first
  refine ⟨i :: place, (within place problem).mpr held, fun other problem' found => ?_⟩
  obtain ⟨j, rest, rfl, le⟩ := later other problem' found
  rcases Nat.lt_or_eq_of_le le with less | rfl
  · exact .inl (List.cons_lt_cons_iff.mpr (.inl less))
  · rcases before rest problem' ((within rest problem').mp found) with less | ⟨rfl, rfl⟩
    · exact .inl (List.cons_lt_cons_iff.mpr (.inr ⟨rfl, less⟩))
    · exact .inr ⟨rfl, rfl⟩

namespace Reports

variable {ε α β : Type} {found : List Nat → ε → Prop} {attempt : Except ε α}

private theorem error_iff (reports : Reports found attempt) (problem : ε) : attempt = .error problem ↔ First found problem := by
  cases attempt with
  | ok result =>
    refine ⟨nofun, fun ⟨place, held, _⟩ => ?_⟩
    exact absurd held (reports place problem)
  | error problem' =>
    constructor
    · rintro ⟨⟩
      exact reports
    · intro first
      rw [first.unique reports]

private theorem fails_iff (reports : Reports found attempt) :
    (∃ problem, attempt = .error problem) ↔ ∃ place problem, found place problem := by
  constructor
  · rintro ⟨problem, failed⟩
    obtain ⟨place, held, -⟩ := (reports.error_iff problem).mp failed
    exact ⟨place, problem, held⟩
  · rintro ⟨place, problem, held⟩
    cases attempt with
    | ok result => exact absurd held (reports place problem)
    | error problem => exact ⟨problem, rfl⟩

private theorem map (reports : Reports found attempt) (f : α → β) : Reports found (attempt.map f) := by
  cases attempt with
  | ok result => exact reports
  | error problem => exact reports

private theorem bind (reports : Reports found attempt) {next : α → Except ε β}
    (succeeds : ∀ result, ∃ result', next result = .ok result') : Reports found (attempt >>= next) := by
  cases attempt with
  | error problem => exact reports
  | ok result =>
    obtain ⟨result', done⟩ := succeeds result
    change Reports found (next result)
    rw [done]
    exact reports

private theorem behind {inside : List Nat → ε → Prop} (reports : Reports inside attempt) (i : Nat)
    (within : ∀ rest problem, found (i :: rest) problem ↔ inside rest problem)
    (only : ∀ place problem, found place problem → ∃ rest, place = i :: rest) : Reports found attempt := by
  cases attempt with
  | ok result =>
    intro place problem held
    obtain ⟨rest, rfl⟩ := only place problem held
    exact reports rest problem ((within rest problem).mp held)
  | error problem =>
    refine First.behind i reports within fun place other held => ?_
    obtain ⟨rest, rfl⟩ := only place other held
    exact ⟨i, rest, rfl, Nat.le_refl i⟩

end Reports

section Among

variable {ε α β : Type} {found : α → List Nat → ε → Prop} {item : α} {items : List α} {rest : List Nat} {problem : ε}

private theorem among_zero : Among found (item :: items) (0 :: rest) problem ↔ found item rest problem := by
  constructor
  · rintro ⟨i, other, rest, at', ⟨⟩, held⟩
    cases at'
    exact held
  · intro held
    exact ⟨0, item, rest, rfl, rfl, held⟩

private theorem among_succ {i : Nat} :
    Among found (item :: items) ((i + 1) :: rest) problem ↔ Among found items (i :: rest) problem := by
  constructor
  · rintro ⟨_, other, rest, at', ⟨⟩, held⟩
    exact ⟨i, other, rest, at', rfl, held⟩
  · rintro ⟨_, other, rest, at', ⟨⟩, held⟩
    exact ⟨i + 1, other, rest, at', rfl, held⟩

private theorem First.among_cons (none : ∀ place problem, ¬ found item place problem) (first : First (Among found items) problem) :
    First (Among found (item :: items)) problem := by
  obtain ⟨_, ⟨i, other, rest, at', rfl, held⟩, before⟩ := first
  refine ⟨(i + 1) :: rest, among_succ.mpr ⟨i, other, rest, at', rfl, held⟩, ?_⟩
  rintro _ problem' ⟨j, other', rest', at', rfl, held'⟩
  cases j with
  | zero =>
    cases at'
    exact absurd held' (none rest' problem')
  | succ j =>
    rcases before (j :: rest') problem' ⟨j, other', rest', at', rfl, held'⟩ with less | ⟨⟨⟩, rfl⟩
    · refine .inl (List.cons_lt_cons_iff.mpr ?_)
      exact (List.cons_lt_cons_iff.mp less).imp Nat.succ_lt_succ (And.imp (congrArg _) id)
    · exact .inr ⟨rfl, rfl⟩

private theorem Reports.mapM {step : α → Except ε β} (each : ∀ item ∈ items, Reports (found item) (step item)) :
    Reports (Among found items) (items.mapM step) := by
  induction items with
  | nil =>
    rintro place problem ⟨i, item, rest, at', -⟩
    cases at'
  | cons item items ih =>
    obtain ⟨first, others⟩ := List.forall_mem_cons.mp each
    have rest := ih others
    rw [List.mapM_cons]
    cases attempt : step item with
    | error problem =>
      rw [attempt] at first
      refine First.behind 0 first (fun rest other => among_zero) ?_
      rintro place other ⟨i, item, rest, -, rfl, -⟩
      exact ⟨i, rest, rfl, Nat.zero_le i⟩
    | ok result =>
      rw [attempt] at first
      cases attempts : items.mapM step with
      | error problem =>
        rw [attempts] at rest
        exact rest.among_cons first
      | ok results =>
        rw [attempts] at rest
        rintro place problem ⟨i, other, place, at', rfl, held⟩
        cases i with
        | zero => exact first place problem (among_zero.mp ⟨0, other, place, at', rfl, held⟩)
        | succ i => exact rest (i :: place) problem ⟨i, other, place, at', rfl, held⟩

end Among

variable {σ φ : Type} {catalog : Catalog σ φ}

theorem Catalog.composite?_name {name : String} {composite : Composite} (found : catalog.composite? name = some composite) :
    composite.name = name := by
  have named := List.find?_some found
  exact eq_of_beq named

namespace Expression

/-- A call of a composite stands for the definition of the composite. -/
inductive StandsFor (catalog : Catalog σ φ) : Expression → Expression → Prop
  | composite {name : String} {args : List Expression} {composite : Composite} {definition : Expression}
      (found : catalog.composite? name = some composite) (bare : implicitOnly args = true)
      (read : ofJson composite.definition = .ok definition) : StandsFor catalog (.call name args) definition

/-- A call of a composite that cannot be unfolded where `chain` composites have led to it, and why. -/
inductive Stuck (catalog : Catalog σ φ) (chain : Nat) : Expression → Problem → Prop
  | arguments {name : String} {args : List Expression} {composite : Composite}
      (found : catalog.composite? name = some composite) (own : implicitOnly args = false) :
      Stuck catalog chain (.call name args) ⟨name, .invalidExpression "composite features take no arguments"⟩
  | nested {name : String} {args : List Expression} {composite : Composite}
      (found : catalog.composite? name = some composite) (bare : implicitOnly args = true) (long : maxExpansion < chain + 1) :
      Stuck catalog chain (.call name args)
        ⟨name, .invalidExpression ("composite expansion nested deeper than " ++ toString maxExpansion)⟩
  | malformed {name : String} {args : List Expression} {composite : Composite} {problem : Problem}
      (found : catalog.composite? name = some composite) (bare : implicitOnly args = true) (room : chain + 1 ≤ maxExpansion)
      (unread : ofJson composite.definition = .error problem) : Stuck catalog chain (.call name args) problem

mutual
/-- What becomes of an expression that `chain` composites have led to. All that is expanded on the way is part of the
derivation, so that there is none for an expansion that does not end. -/
inductive Expands (catalog : Catalog σ φ) : Nat → Expression → Except Problem Expression → Prop
  | raw {chain : Nat} {mark : Unit} : Expands catalog chain (.raw mark) (.ok (.raw mark))
  | constant {chain : Nat} {value : Value} : Expands catalog chain (.constant value) (.ok (.constant value))
  | stuck {chain : Nat} {e : Expression} {problem : Problem} (stuck : Stuck catalog chain e problem) :
      Expands catalog chain e (.error problem)
  | unfolded {chain : Nat} {e definition : Expression} {result : Except Problem Expression}
      (stands : StandsFor catalog e definition) (room : chain + 1 ≤ maxExpansion)
      (expands : Expands catalog (chain + 1) definition result) : Expands catalog chain e result
  | call {chain : Nat} {name : String} {args : List Expression} {results : Except Problem (List Expression)}
      (plain : catalog.composite? name = none) (each : ExpandsAll catalog chain args results) :
      Expands catalog chain (.call name args) (results.map (.call name))

/-- What becomes of some arguments. Those behind the first that cannot be expanded are left alone. -/
inductive ExpandsAll (catalog : Catalog σ φ) : Nat → List Expression → Except Problem (List Expression) → Prop
  | nil {chain : Nat} : ExpandsAll catalog chain [] (.ok [])
  | failed {chain : Nat} {arg : Expression} {args : List Expression} {problem : Problem}
      (first : Expands catalog chain arg (.error problem)) : ExpandsAll catalog chain (arg :: args) (.error problem)
  | cons {chain : Nat} {arg result : Expression} {args : List Expression} {results : Except Problem (List Expression)}
      (first : Expands catalog chain arg (.ok result)) (rest : ExpandsAll catalog chain args results) :
      ExpandsAll catalog chain (arg :: args) (results.map (result :: ·))
end

/-- The points of the unfolding of an expression: the place of each, by the numbers of the arguments on the way and a zero for
each composite, and how many composites lead to it. How long the chains of composites are is not limited here. -/
inductive Unfolds (catalog : Catalog σ φ) : Expression → List Nat → Nat → Expression → Prop
  | here (e : Expression) : Unfolds catalog e [] 0 e
  | argument {name : String} {args : List Expression} {i : Nat} {arg point : Expression} {place : List Nat} {chain : Nat}
      (plain : catalog.composite? name = none) (held : args[i]? = some arg) (inner : Unfolds catalog arg place chain point) :
      Unfolds catalog (.call name args) (i :: place) chain point
  | definition {e definition point : Expression} {place : List Nat} {chain : Nat} (stands : StandsFor catalog e definition)
      (inner : Unfolds catalog definition place chain point) : Unfolds catalog e (0 :: place) (chain + 1) point

/-- The problems in the unfolding of an expression that `chain` composites have led to. -/
def ProblemAt (catalog : Catalog σ φ) (chain : Nat) (e : Expression) (place : List Nat) (problem : Problem) : Prop :=
  ∃ further point, Unfolds catalog e place further point ∧ Stuck catalog (chain + further) point problem

private theorem Stuck.unique {chain : Nat} {e : Expression} {problem problem' : Problem} (stuck : Stuck catalog chain e problem)
    (stuck' : Stuck catalog chain e problem') : problem' = problem := by
  cases stuck with
  | arguments found own =>
    cases stuck' with
    | arguments => rfl
    | nested _ bare | malformed _ bare => exact absurd (own.symm.trans bare) nofun
  | nested found bare long =>
    cases stuck' with
    | arguments _ own => exact absurd (own.symm.trans bare) nofun
    | nested => rfl
    | malformed _ _ room => omega
  | malformed found bare room unread =>
    cases stuck' with
    | arguments _ own => exact absurd (own.symm.trans bare) nofun
    | nested _ _ long => omega
    | malformed found' _ _ unread' =>
      obtain rfl := Option.some.inj (found.symm.trans found')
      exact Except.error.inj (unread'.symm.trans unread)

private theorem StandsFor.unique {e definition definition' : Expression} (stands : StandsFor catalog e definition)
    (stands' : StandsFor catalog e definition') : definition' = definition := by
  cases stands with
  | composite found _ read =>
    cases stands' with
    | composite found' _ read' =>
      obtain rfl := Option.some.inj (found.symm.trans found')
      exact Except.ok.inj (read'.symm.trans read)

private theorem StandsFor.not_stuck {chain : Nat} {e definition : Expression} {problem : Problem} (stands : StandsFor catalog e definition)
    (room : chain + 1 ≤ maxExpansion) : ¬ Stuck catalog chain e problem := by
  intro stuck
  cases stands with
  | composite found bare read =>
    cases stuck with
    | arguments _ own => exact absurd (own.symm.trans bare) nofun
    | nested _ _ long => omega
    | malformed found' _ _ unread =>
      obtain rfl := Option.some.inj (found.symm.trans found')
      exact absurd (read.symm.trans unread) nofun

private theorem call_cases (catalog : Catalog σ φ) (chain : Nat) (name : String) (args : List Expression) :
    (∃ problem, Stuck catalog chain (.call name args) problem) ∨
      (∃ definition, StandsFor catalog (.call name args) definition ∧ chain + 1 ≤ maxExpansion) ∨
      catalog.composite? name = none := by
  cases found : catalog.composite? name with
  | none => exact .inr (.inr rfl)
  | some composite =>
    cases bare : implicitOnly args with
    | false => exact .inl ⟨_, .arguments found bare⟩
    | true =>
      rcases Nat.lt_or_ge maxExpansion (chain + 1) with long | room
      · exact .inl ⟨_, .nested found bare long⟩
      · cases read : ofJson composite.definition with
        | error problem => exact .inl ⟨_, .malformed found bare room read⟩
        | ok definition => exact .inr (.inl ⟨definition, .composite found bare read, room⟩)

/-- What ends the search is the room for further composites, and the size of the expression where no composite is unfolded. -/
private theorem unfolding_induct (catalog : Catalog σ φ) {motive : Nat → Expression → Prop}
    (raw : ∀ chain mark, motive chain (.raw mark)) (constant : ∀ chain value, motive chain (.constant value))
    (stuck : ∀ chain e problem, Stuck catalog chain e problem → motive chain e)
    (unfolded : ∀ chain e definition, StandsFor catalog e definition → chain + 1 ≤ maxExpansion →
      motive (chain + 1) definition → motive chain e)
    (call : ∀ chain name args, catalog.composite? name = none → (∀ arg ∈ args, motive chain arg) →
      motive chain (.call name args)) (chain : Nat) (e : Expression) : motive chain e := by
  induction room : maxExpansion - chain using Nat.strong_induction_on generalizing chain e with
  | _ room deeper =>
    subst room
    induction e using Tree.induct with
    | raw mark => exact raw chain mark
    | constant value => exact constant chain value
    | call name args ih =>
      rcases call_cases catalog chain name args with ⟨problem, stays⟩ | ⟨definition, stands, room⟩ | plain
      · exact stuck chain _ problem stays
      · -- The definition may well be larger than the call, but there is room for fewer composites.
        exact unfolded chain _ definition stands room (deeper _ (by omega) _ _ rfl)
      · exact call chain name args plain ih

private theorem expand_stuck {chain : Nat} {e : Expression} {problem : Problem} (stuck : Stuck catalog chain e problem) :
    e.expand catalog.composite? (maxExpansion - chain) = .error problem := by
  cases stuck with
  | arguments found own => simp [expand_eq, expandWith, found, own]
  | nested found bare long =>
    have none : maxExpansion - chain = 0 := by omega
    simp [none, expand_eq, expandWith, found, bare, unfolding, Catalog.composite?_name found]
  | malformed found bare room unread =>
    obtain ⟨left, more⟩ : ∃ left, maxExpansion - chain = left + 1 := ⟨maxExpansion - (chain + 1), by omega⟩
    simp [more, expand_eq, expandWith, found, bare, unfolding, unread, bind, Except.bind]

private theorem expand_unfolded {chain : Nat} {e definition : Expression} (stands : StandsFor catalog e definition)
    (room : chain + 1 ≤ maxExpansion) :
    e.expand catalog.composite? (maxExpansion - chain) = definition.expand catalog.composite? (maxExpansion - (chain + 1)) := by
  have more : maxExpansion - chain = (maxExpansion - (chain + 1)) + 1 := by omega
  cases stands with
  | composite found bare read =>
    rw [more, expand_eq, expandWith, found]
    simp [bare, unfolding, read, bind, Except.bind]

private theorem expand_call {room : Nat} {name : String} {args : List Expression} (plain : catalog.composite? name = none) :
    expand catalog.composite? room (.call name args) =
      (args.mapM (expand catalog.composite? room)).map (.call name) := by
  rw [expand_eq, expandWith, plain, expandAllWith_eq_mapM]

mutual
private theorem Expands.eq_expand {chain : Nat} {e : Expression} {result : Except Problem Expression}
    (expands : Expands catalog chain e result) : e.expand catalog.composite? (maxExpansion - chain) = result := by
  match expands with
  | .raw | .constant => rw [expand_eq]; rfl
  | .stuck stuck => exact expand_stuck stuck
  | .unfolded stands room inner => rw [expand_unfolded stands room, inner.eq_expand]
  | .call plain each => rw [expand_call plain, each.eq_mapM]
termination_by structural expands

private theorem ExpandsAll.eq_mapM {chain : Nat} {args : List Expression} {results : Except Problem (List Expression)}
    (each : ExpandsAll catalog chain args results) :
    args.mapM (expand catalog.composite? (maxExpansion - chain)) = results := by
  match each with
  | .nil => rfl
  | .failed first => rw [List.mapM_cons, first.eq_expand]; rfl
  | .cons first rest =>
    rw [List.mapM_cons, first.eq_expand, rest.eq_mapM]
    rfl
termination_by structural each
end

private theorem expandsAll_mapM {chain : Nat} {args : List Expression}
    (each : ∀ arg ∈ args, Expands catalog chain arg (arg.expand catalog.composite? (maxExpansion - chain))) :
    ExpandsAll catalog chain args (args.mapM (expand catalog.composite? (maxExpansion - chain))) := by
  induction args with
  | nil => exact .nil
  | cons arg args ih =>
    obtain ⟨first, others⟩ := List.forall_mem_cons.mp each
    rw [List.mapM_cons]
    cases attempt : arg.expand catalog.composite? (maxExpansion - chain) with
    | error problem => exact .failed (attempt ▸ first)
    | ok result => exact .cons (attempt ▸ first) (ih others)

private theorem expands_expand (catalog : Catalog σ φ) (chain : Nat) (e : Expression) :
    Expands catalog chain e (e.expand catalog.composite? (maxExpansion - chain)) := by
  induction chain, e using unfolding_induct catalog with
  | raw chain mark =>
    rw [expand_eq]
    exact .raw
  | constant chain value =>
    rw [expand_eq]
    exact .constant
  | stuck chain e problem stuck =>
    rw [expand_stuck stuck]
    exact .stuck stuck
  | unfolded chain e definition stands room ih =>
    rw [expand_unfolded stands room]
    exact .unfolded stands room ih
  | call chain name args plain ih =>
    rw [expand_call plain]
    exact .call plain (expandsAll_mapM ih)

private theorem expands_iff {chain : Nat} {e : Expression} {result : Except Problem Expression} :
    Expands catalog chain e result ↔ e.expand catalog.composite? (maxExpansion - chain) = result := by
  constructor
  · exact Expands.eq_expand
  · rintro rfl
    exact expands_expand catalog chain e

private theorem expand_complete (chain : Nat) {e result : Expression}
    (expanded : e.expand catalog.composite? (maxExpansion - chain) = .ok result) :
    Tree.All (fun _ => True) (fun name => catalog.composite? name = none) result := by
  induction chain, e using unfolding_induct catalog generalizing result with
  | raw chain mark =>
    rw [expand_eq] at expanded
    cases expanded
    exact .raw mark
  | constant chain value =>
    rw [expand_eq] at expanded
    cases expanded
    exact .constant trivial
  | stuck chain e problem stuck => exact absurd ((expand_stuck stuck).symm.trans expanded) nofun
  | unfolded chain e definition stands room ih =>
    rw [expand_unfolded stands room] at expanded
    exact ih expanded
  | call chain name args plain ih =>
    rw [expand_eq, expandWith, plain] at expanded
    obtain ⟨results, each, rfl⟩ := map_eq_ok.mp expanded
    refine .call plain fun result member => ?_
    obtain ⟨arg, inside, done⟩ := forall₂_mem_right (expandAllWith_eq_ok.mp each) member
    rw [← expand_eq] at done
    exact ih arg inside done

private theorem first_stuck {chain : Nat} {e : Expression} {problem : Problem} (stuck : Stuck catalog chain e problem) :
    First (ProblemAt catalog chain e) problem := by
  refine ⟨[], ⟨0, e, .here e, stuck⟩, fun place other held => ?_⟩
  cases place with
  | cons turn place => exact .inl (List.nil_lt_cons turn place)
  | nil =>
    obtain ⟨further, point, unfolds, stuck'⟩ := held
    cases unfolds
    exact .inr ⟨rfl, stuck.unique stuck'⟩

private theorem problemAt_call {chain : Nat} {name : String} {args : List Expression} (plain : catalog.composite? name = none) :
    ProblemAt catalog chain (.call name args) = Among (ProblemAt catalog chain) args := by
  funext place problem
  refine propext ⟨?_, ?_⟩
  · rintro ⟨further, point, unfolds, stuck⟩
    cases unfolds with
    | here =>
      cases stuck with
      | arguments found | nested found | malformed found => exact absurd (plain.symm.trans found) nofun
    | argument plain held inner => exact ⟨_, _, _, held, rfl, further, point, inner, stuck⟩
    | definition stands =>
      cases stands with
      | composite found => exact absurd (plain.symm.trans found) nofun
  · rintro ⟨i, arg, rest, held, rfl, further, point, inner, stuck⟩
    exact ⟨further, point, .argument plain held inner, stuck⟩

private theorem problemAt_unfolded {chain : Nat} {e definition : Expression} (stands : StandsFor catalog e definition)
    (room : chain + 1 ≤ maxExpansion) {place : List Nat} {problem : Problem} :
    ProblemAt catalog chain e place problem ↔
      ∃ rest, place = 0 :: rest ∧ ProblemAt catalog (chain + 1) definition rest problem := by
  constructor
  · rintro ⟨_, point, unfolds, stuck⟩
    cases unfolds with
    | here => exact absurd stuck (stands.not_stuck room)
    | argument plain =>
      cases stands with
      | composite found => exact absurd (plain.symm.trans found) nofun
    | @definition _ _ _ rest further stands' inner =>
      obtain rfl := stands.unique stands'
      refine ⟨rest, rfl, further, point, inner, ?_⟩
      rwa [Nat.add_right_comm, Nat.add_assoc]
  · rintro ⟨rest, rfl, further, point, inner, stuck⟩
    refine ⟨further + 1, point, .definition stands inner, ?_⟩
    rwa [Nat.add_right_comm, Nat.add_assoc] at stuck

/-- Expansion fails with the first problem of the unfolding, and for no other reason. -/
private theorem reports_expand (catalog : Catalog σ φ) (chain : Nat) (e : Expression) :
    Reports (ProblemAt catalog chain e) (e.expand catalog.composite? (maxExpansion - chain)) := by
  induction chain, e using unfolding_induct catalog with
  | raw | constant =>
    rw [expand_eq]
    rintro place problem ⟨further, point, unfolds, stuck⟩
    cases unfolds with
    | here => cases stuck
    | definition stands => cases stands
  | stuck chain e problem stuck =>
    rw [expand_stuck stuck]
    exact first_stuck stuck
  | unfolded chain e definition stands room ih =>
    rw [expand_unfolded stands room]
    refine ih.behind 0 (fun rest problem => ?_) fun place problem held => ?_
    · rw [problemAt_unfolded stands room]
      simp
    · obtain ⟨rest, rfl, -⟩ := (problemAt_unfolded stands room).mp held
      exact ⟨rest, rfl⟩
  | call chain name args plain ih =>
    rw [expand_call plain, problemAt_call plain]
    exact (Reports.mapM ih).map _

end Expression

open Expression (ProblemAt)

namespace Field

theorem ofExpression_tree {e : Expression} {field : Field Expression}
    (labelled : ofExpression catalog.composite? e = .ok field) :
    e.expand catalog.composite? Expression.maxExpansion = .ok field.tree := by
  obtain ⟨expanded, expands, labelled⟩ := bind_eq_ok.mp labelled
  dsimp only at labelled
  split at labelled
  · cases labelled
    exact expands
  · cases labelled
    exact expands

theorem reports_ofExpression (catalog : Catalog σ φ) (e : Expression) :
    Reports (ProblemAt catalog 0 e) (ofExpression catalog.composite? e) := by
  refine (Expression.reports_expand catalog 0 e).bind fun expanded => ?_
  dsimp only
  split
  · exact ⟨_, rfl⟩
  · exact ⟨_, rfl⟩

end Field

namespace Specification

/-- The problems in the unfolding of some features, each at the position of its feature. -/
inductive ProblemIn (catalog : Catalog σ φ) (expressions : List Expression) : List Nat → CompileError → Prop
  | feature {i : Nat} {e : Expression} {place : List Nat} {problem : Problem} (held : expressions[i]? = some e)
      (inside : ProblemAt catalog 0 e place problem) : ProblemIn catalog expressions (i :: place) (problem.located (i + 1))

private theorem reports_located {α : Type} {found : List Nat → Problem → Prop} {attempt : Except Problem α}
    (reports : Reports found attempt) (position : Nat) :
    Reports (fun place e => ∃ problem, found place problem ∧ e = problem.located position) (located position attempt) := by
  cases attempt with
  | ok result =>
    rintro place e ⟨problem, held, -⟩
    exact reports place problem held
  | error problem =>
    obtain ⟨place, held, before⟩ := reports
    refine ⟨place, ⟨problem, held, rfl⟩, ?_⟩
    rintro other _ ⟨problem', held', rfl⟩
    rcases before other problem' held' with less | ⟨rfl, rfl⟩
    · exact .inl less
    · exact .inr ⟨rfl, rfl⟩

private theorem reports_stage (catalog : Catalog σ φ) (expressions : List Expression) :
    Reports (ProblemIn catalog expressions) (stage (Field.ofExpression catalog.composite?) expressions) := by
  have each (item : Expression × Nat) := reports_located (Field.reports_ofExpression catalog item.1) (item.2 + 1)
  have same : ProblemIn catalog expressions = Among (fun (item : Expression × Nat) place e =>
      ∃ problem, ProblemAt catalog 0 item.1 place problem ∧ e = problem.located (item.2 + 1)) expressions.zipIdx := by
    have indexed (i : Nat) : expressions.zipIdx[i]? = expressions[i]?.map (·, i) := by simp [List.getElem?_zipIdx]
    funext place error
    refine propext ⟨?_, ?_⟩
    · rintro ⟨held, inside⟩
      exact ⟨_, _, _, by rw [indexed, held]; rfl, rfl, _, inside, rfl⟩
    · rintro ⟨i, ⟨e, j⟩, rest, paired, rfl, problem, inside, rfl⟩
      rw [indexed] at paired
      obtain ⟨_, held, ⟨⟩⟩ := Option.map_eq_some_iff.mp paired
      exact .feature held inside
  rw [same]
  exact Reports.mapM fun item _ => each item

/-- Expansion ends over every catalog. Where it succeeds no call of a composite is left, and it fails exactly if there is a
problem in the unfolding of a feature. The compilation then fails with the first of these problems. -/
theorem compile_unfolds (catalog : Catalog σ φ) (limit : Nat) {s : Specification} {expressions : List Expression}
    {names : List String} (read : stage Expression.ofJson s.features = .ok expressions)
    (named : stage controlName s.control = .ok names) :
    (∀ e ∈ expressions, ∀ result, Expression.Expands catalog 0 e result ↔
      e.expand catalog.composite? Expression.maxExpansion = result) ∧
    (∀ fields, stage (Field.ofExpression catalog.composite?) expressions = .ok fields →
      ∀ field ∈ fields, ∀ name args, .call name args ∈ field.tree.subtrees → catalog.composite? name = none) ∧
    ((∃ e, stage (Field.ofExpression catalog.composite?) expressions = .error e) ↔
      ∃ place e, ProblemIn catalog expressions place e) ∧
    (∀ e, stage (Field.ofExpression catalog.composite?) expressions = .error e ↔ First (ProblemIn catalog expressions) e) ∧
    ∀ e, First (ProblemIn catalog expressions) e → s.compile catalog limit = .error e := by
  have reports := reports_stage catalog expressions
  refine ⟨fun e _ result => Expression.expands_iff, ?_, reports.fails_iff, reports.error_iff, ?_⟩
  · intro fields expanded field member name args inside
    obtain ⟨e, -, labelled⟩ := forall₂_mem_right (stage_results expanded) member
    have complete := Expression.expand_complete 0 (Field.ofExpression_tree labelled)
    exact (complete.subtree inside).head
  · intro e first
    have failed := (reports.error_iff e).mpr first
    rw [compile, read, named]
    change (stage (Field.ofExpression catalog.composite?) expressions >>= _) = _
    rw [failed]
    rfl

/-- The built-in catalog with two composites that stand for each other, and one that has the name of a feature. -/
def circularCatalog : Catalog Library.Instance Library.PacketFilter :=
  { Library.catalog with composites := Library.composites ++
      [⟨"even", .array [.string "add", .string "octetTotalCount", .string "odd"], none⟩, ⟨"odd", .string "even", none⟩,
        ⟨"packetTotalCount", .string "octetTotalCount", none⟩] }

def circular : Specification :=
  .ofFeatures [.string "packetTotalCount", .string "even"]

theorem compile_unfolds_circular :
    let expressions := [Tree.call "packetTotalCount" [.raw ()], .call "even" [.raw ()]]
    let problem := CompileError.mk 2 "even" (.invalidExpression "composite expansion nested deeper than 64")
    stage Expression.ofJson circular.features = .ok expressions ∧ stage controlName circular.control = .ok [] ∧
      First (ProblemIn circularCatalog expressions) problem ∧ circular.compile circularCatalog 4096 = .error problem := by
  intro expressions problem
  have read : stage Expression.ofJson circular.features = .ok expressions := rfl
  have named : stage controlName circular.control = .ok [] := rfl
  have failed : stage (Field.ofExpression circularCatalog.composite?) expressions = .error problem := by
    set_option maxRecDepth 1000 in rfl
  obtain ⟨-, -, -, reported, compiled⟩ := compile_unfolds circularCatalog 4096 read named
  have first := (reported problem).mp failed
  exact ⟨read, named, first, compiled problem first⟩

end Specification

end FlowMetering
