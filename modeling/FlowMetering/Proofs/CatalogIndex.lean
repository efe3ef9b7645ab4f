import FlowMetering.Proofs.AssembledCatalogs
import FlowMetering.Proofs.Signatures

/-! Catalogs with an index by name. Registrations enter a number into the index and the entry into the list of entries,
in two steps, and go on after calls that fail; lookups read the index only. The index keeps up with the entries, and a
lookup finds exactly the entries that fit, the preferred ones first. -/

namespace FlowMetering

variable {σ φ : Type}

/-- A catalog together with the numbers of its entries under each name. -/
structure IndexedCatalog (σ φ : Type) extends Catalog σ φ where
  byName : Std.HashMap String (List Nat)

/-- The group of candidates that an entry joins in a lookup, counted from the most preferred one. -/
def Entry.group? (e : Entry σ) (kind : Kind) (count : Nat) : Option Nat :=
  let first? :=
    if e.result = kind then some 0
    else if e.result = .matchType ∧ kind ≠ .control then some 2
    else none
  first?.bind fun first =>
    if (e.argumentKinds count).isNone then none
    else some (if e.isVariadic then first + 1 else first)

inductive Registration (σ φ : Type) where
  | entry (e : Entry σ)
  | composite (composite : Composite)
  | filter (name : String) (filter : φ)

namespace IndexedCatalog

def empty : IndexedCatalog σ φ := ⟨.empty, ∅⟩

def numbers (c : IndexedCatalog σ φ) (name : String) : List Nat :=
  c.byName.getD name []

/-- Whether a number stands for an entry with the result and the arguments of another one. -/
def clashes (c : IndexedCatalog σ φ) (e : Entry σ) (id : Nat) : Bool :=
  c.entries[id]?.any fun other => other.result == e.result && other.arguments == e.arguments

/-- Adds an entry, first its number to the index and then itself. Only entries of its own name are looked at. -/
def register (e : Entry σ) : EStateM CatalogError (IndexedCatalog σ φ) Nat := do
  if let some reason := e.defect? then throw (.invalidDefinition e.name reason)
  let c ← get
  if (c.numbers e.name).any (c.clashes e) then throw (.alreadyRegistered e.name e.signature)
  let id := c.entries.length
  modify fun c => { c with byName := c.byName.insert e.name (c.numbers e.name ++ [id]) }
  modify fun c => { c with entries := c.entries ++ [e] }
  return id

def registerComposite (composite : Composite) : EStateM CatalogError (IndexedCatalog σ φ) Unit := do
  let c ← get
  if (c.composite? composite.name).isSome then throw (.alreadyRegistered composite.name "composite")
  if composite.definition matches .null then throw (.invalidDefinition composite.name "definition must not be null")
  modify fun c => { c with composites := c.composites ++ [composite] }

def registerFilter (name : String) (filter : φ) : EStateM CatalogError (IndexedCatalog σ φ) Unit := do
  let c ← get
  if (c.filter? name).isSome then throw (.alreadyRegistered name "filter")
  modify fun c => { c with filters := c.filters ++ [(name, filter)] }

def place (c : IndexedCatalog σ φ) (kind : Kind) (count : Nat) (groups : List (List Nat)) (id : Nat) : List (List Nat) :=
  match c.entries[id]?.bind (·.group? kind count) with
  | some group => groups.modify group (· ++ [id])
  | none => groups

/-- The numbers of the entries that may give `kind` from `count` arguments, collected in four groups. -/
def find (c : IndexedCatalog σ φ) (name : String) (kind : Kind) (count : Nat) : List Nat :=
  match c.byName[name]? with
  | some ids => (ids.foldl (c.place kind count) [[], [], [], []]).flatten
  | none => []

end IndexedCatalog

namespace Registration

open IndexedCatalog

/-- A registration in a catalog with an index. It answers the number of a new entry. -/
def perform : Registration σ φ → EStateM CatalogError (IndexedCatalog σ φ) (Option Nat)
  | .entry e => do return some (← register e)
  | .composite c => do
    registerComposite c
    return none
  | .filter name allows => do
    registerFilter name allows
    return none

def performPlain (catalog : Catalog σ φ) : Registration σ φ → Except CatalogError (Catalog σ φ × Option Nat)
  | .entry e => (catalog.register e).map fun (catalog, id) => (catalog, some id)
  | .composite c => (catalog.registerComposite c).map (·, none)
  | .filter name allows => (catalog.registerFilter name allows).map (·, none)

end Registration

namespace Catalog

def named (c : Catalog σ φ) (name : String) : List Nat :=
  (c.registered.filter (·.entry.name == name)).map (·.id)

theorem mem_registered {c : Catalog σ φ} {r : Registered σ} : r ∈ c.registered ↔ c.entries[r.id]? = some r.entry := by
  refine ⟨entries_getElem?, fun found => ?_⟩
  exact List.mem_map.mpr ⟨(r.entry, r.id), List.mem_zipIdx_iff_getElem?.mpr found, rfl⟩

theorem registered_append (c : Catalog σ φ) (e : Entry σ) :
    ({ c with entries := c.entries ++ [e] } : Catalog σ φ).registered = c.registered ++ [⟨c.entries.length, e⟩] := by
  simp [registered, List.zipIdx_append]

theorem ids_registered (c : Catalog σ φ) : c.registered.map (·.id) = List.range c.entries.length := by
  rw [registered, List.map_map, List.range_eq_range']
  exact List.zipIdx_map_snd 0 c.entries

theorem named_append (c : Catalog σ φ) (e : Entry σ) (name : String) :
    ({ c with entries := c.entries ++ [e] } : Catalog σ φ).named name =
      if e.name = name then c.named name ++ [c.entries.length] else c.named name := by
  rw [named, registered_append, List.filter_append, List.map_append]
  by_cases same : e.name = name <;> simp [same, named]

theorem mem_named {c : Catalog σ φ} {name : String} {id : Nat} :
    id ∈ c.named name ↔ ∃ e, c.entries[id]? = some e ∧ e.name = name := by
  simp only [named, List.mem_map, List.mem_filter, mem_registered, beq_iff_eq]
  exact ⟨fun ⟨r, ⟨found, same⟩, number⟩ => ⟨r.entry, number ▸ found, same⟩,
    fun ⟨e, found, same⟩ => ⟨⟨id, e⟩, ⟨found, same⟩, rfl⟩⟩

theorem named_ascending (c : Catalog σ φ) (name : String) : (c.named name).Pairwise (· < ·) := by
  have whole : (c.registered.map (·.id)).Pairwise (· < ·) := by
    rw [ids_registered]
    exact List.pairwise_lt_range
  exact whole.sublist (List.filter_sublist.map _)

end Catalog

namespace IndexedCatalog

def plain {α : Type} : EStateM.Result CatalogError (IndexedCatalog σ φ) α → Except CatalogError (Catalog σ φ × α)
  | .ok answer c => .ok (c.toCatalog, answer)
  | .error problem _ => .error problem

def enter (c : IndexedCatalog σ φ) (e : Entry σ) : IndexedCatalog σ φ where
  toCatalog := { c.toCatalog with entries := c.entries ++ [e] }
  byName := c.byName.insert e.name (c.numbers e.name ++ [c.entries.length])

theorem register_run (c : IndexedCatalog σ φ) (e : Entry σ) : (register e).run c =
    match e.defect? with
    | some reason => .error (.invalidDefinition e.name reason) c
    | none =>
      if (c.numbers e.name).any (c.clashes e) then .error (.alreadyRegistered e.name e.signature) c
      else .ok c.entries.length (c.enter e) := by
  unfold register
  cases e.defect? with
  | some reason => rfl
  | none =>
    cases clash : (c.numbers e.name).any (c.clashes e) with
    | true => simp [clash, -List.any_eq_true]
    | false =>
      simp [clash, -List.any_eq_true, -List.any_eq_false]
      rfl

theorem registerComposite_run (c : IndexedCatalog σ φ) (composite : Composite) :
    (registerComposite composite).run c =
      match c.toCatalog.registerComposite composite with
      | .ok catalog => .ok () { c with toCatalog := catalog }
      | .error problem => .error problem c := by
  unfold registerComposite Catalog.registerComposite
  cases known : (c.composite? composite.name).isSome <;> cases composite.definition <;> simp [known]

theorem registerFilter_run (c : IndexedCatalog σ φ) (name : String) (filter : φ) :
    (registerFilter name filter).run c =
      match c.toCatalog.registerFilter name filter with
      | .ok catalog => .ok () { c with toCatalog := catalog }
      | .error problem => .error problem c := by
  unfold registerFilter Catalog.registerFilter
  cases known : (c.filter? name).isSome <;> simp [known]

inductive Step (c : IndexedCatalog σ φ) :
    Registration σ φ → EStateM.Result CatalogError (IndexedCatalog σ φ) (Option Nat) → Prop
  | entered {e : Entry σ} (fresh : (c.numbers e.name).any (c.clashes e) = false) :
    Step c (.entry e) (.ok (some c.entries.length) (c.enter e))
  | beside {call : Registration σ φ} {catalog : Catalog σ φ} (kept : catalog.entries = c.entries) :
    Step c call (.ok none { c with toCatalog := catalog })
  | refused {call : Registration σ φ} {problem : CatalogError} : Step c call (.error problem c)

theorem step (c : IndexedCatalog σ φ) (call : Registration σ φ) : Step c call (call.perform.run c) := by
  cases call with
  | entry e =>
    rw [Registration.perform, EStateM.run_bind, register_run]
    cases e.defect? with
    | some reason => exact .refused
    | none =>
      cases clash : (c.numbers e.name).any (c.clashes e) with
      | true => exact .refused
      | false => exact .entered clash
  | composite composite =>
    rw [Registration.perform, EStateM.run_bind, registerComposite_run]
    cases done : c.toCatalog.registerComposite composite with
    | error problem => exact .refused
    | ok catalog => exact .beside (Catalog.registerComposite_entries done)
  | filter name filter =>
    rw [Registration.perform, EStateM.run_bind, registerFilter_run]
    cases done : c.toCatalog.registerFilter name filter with
    | error problem => exact .refused
    | ok catalog => exact .beside (Catalog.registerFilter_entries done)

def after (c : IndexedCatalog σ φ) (call : Registration σ φ) : IndexedCatalog σ φ :=
  match call.perform.run c with
  | .ok _ c => c
  | .error _ c => c

def afterAll (c : IndexedCatalog σ φ) (calls : List (Registration σ φ)) : IndexedCatalog σ φ :=
  calls.foldl after c

def issued? (c : IndexedCatalog σ φ) (call : Registration σ φ) : Option (Registered σ) :=
  match call.perform.run c with
  | .ok answer _ =>
    match call with
    | .entry e => answer.map (⟨·, e⟩)
    | _ => none
  | .error _ _ => none

def issued (c : IndexedCatalog σ φ) : List (Registration σ φ) → List (Registered σ)
  | [] => []
  | call :: calls => (c.issued? call).toList ++ issued (c.after call) calls

theorem registered_after (c : IndexedCatalog σ φ) (call : Registration σ φ) :
    (c.after call).registered = c.registered ++ (c.issued? call).toList := by
  have step := c.step call
  rw [after, issued?]
  generalize call.perform.run c = result at step
  cases step with
  | entered => exact c.registered_append _
  | beside kept =>
    rw [Catalog.registered, kept]
    cases call <;> exact (List.append_nil _).symm
  | refused => exact (List.append_nil _).symm

theorem registered_afterAll (c : IndexedCatalog σ φ) (calls : List (Registration σ φ)) :
    (c.afterAll calls).registered = c.registered ++ c.issued calls := by
  induction calls generalizing c with
  | nil => exact (List.append_nil _).symm
  | cons call calls ih =>
    rw [afterAll, List.foldl_cons, ← afterAll, ih, registered_after, issued, List.append_assoc]

/-- The index lists under each name the numbers of its entries, and has no other names. -/
def Indexed (c : IndexedCatalog σ φ) : Prop :=
  ∀ name, c.byName[name]? = if c.named name = [] then none else some (c.named name)

variable {c : IndexedCatalog σ φ}

private theorem Indexed.numbers (indexed : c.Indexed) (name : String) : c.numbers name = c.named name := by
  rw [IndexedCatalog.numbers, Std.HashMap.getD_eq_getD_getElem?, indexed]
  split
  next none => exact none.symm
  next => rfl

private theorem Indexed.enter (indexed : c.Indexed) (e : Entry σ) : (c.enter e).Indexed := by
  intro name
  rw [IndexedCatalog.enter, Std.HashMap.getElem?_insert, indexed.numbers, Catalog.named_append]
  by_cases same : e.name = name
  · simp [same]
  · simp [same, indexed name]

private theorem Indexed.clash (indexed : c.Indexed) (e : Entry σ) :
    (c.numbers e.name).any (c.clashes e) = true ↔ ∃ other ∈ c.entries, e.Repeats other := by
  simp only [List.any_eq_true, indexed.numbers, Catalog.mem_named, clashes, Option.any_eq_true, Bool.and_eq_true, beq_iff_eq]
  constructor
  · rintro ⟨id, ⟨_, found, named⟩, other, found', same⟩
    obtain rfl := Option.some.inj (found.symm.trans found')
    exact ⟨_, List.mem_of_getElem? found, named, same⟩
  · rintro ⟨other, held, named, same⟩
    obtain ⟨id, found⟩ := List.mem_iff_getElem?.mp held
    exact ⟨id, ⟨other, found, named⟩, other, found, same⟩

private theorem Indexed.plain_register (indexed : c.Indexed) (e : Entry σ) :
    plain ((register e).run c) = c.toCatalog.register e := by
  have known : (c.numbers e.name).any (c.clashes e) = c.entries.any fun other =>
      other.name == e.name && other.result == e.result && other.arguments == e.arguments := by
    rw [Bool.eq_iff_iff, indexed.clash]
    simp [Entry.Repeats, and_assoc]
  rw [register_run, Catalog.register, known]
  cases e.defect? with
  | some reason => rfl
  | none =>
    dsimp only
    split <;> rfl

private theorem Indexed.plain_perform (indexed : c.Indexed) (call : Registration σ φ) :
    plain (call.perform.run c) = call.performPlain c.toCatalog := by
  cases call with
  | entry e =>
    rw [Registration.perform, Registration.performPlain, EStateM.run_bind, ← indexed.plain_register]
    cases (register e).run c <;> rfl
  | composite composite =>
    rw [Registration.perform, Registration.performPlain, EStateM.run_bind, registerComposite_run]
    cases c.toCatalog.registerComposite composite <;> rfl
  | filter name filter =>
    rw [Registration.perform, Registration.performPlain, EStateM.run_bind, registerFilter_run]
    cases c.toCatalog.registerFilter name filter <;> rfl

/-- The index agrees with the entries, and no entry repeats an earlier one. -/
structure Consistent (c : IndexedCatalog σ φ) : Prop where
  indexed : c.Indexed
  distinct : c.entries.Pairwise fun other e => ¬e.Repeats other

private theorem Consistent.after (consistent : c.Consistent) (call : Registration σ φ) : (c.after call).Consistent := by
  have step := c.step call
  rw [IndexedCatalog.after]
  generalize call.perform.run c = result at step
  cases step with
  | @entered e fresh =>
    refine ⟨consistent.indexed.enter e, List.pairwise_append.mpr ⟨consistent.distinct, List.pairwise_singleton _ _, ?_⟩⟩
    intro other held repeated member same
    rw [List.mem_singleton.mp member] at same
    have clash := (consistent.indexed.clash e).mpr ⟨other, held, same⟩
    rw [fresh] at clash
    cases clash
  | beside kept =>
    refine ⟨?_, by rw [kept]; exact consistent.distinct⟩
    intro name
    rw [Catalog.named, Catalog.registered, kept]
    exact consistent.indexed name
  | refused => exact consistent

private theorem Consistent.afterAll (consistent : c.Consistent) (calls : List (Registration σ φ)) :
    (c.afterAll calls).Consistent := by
  induction calls generalizing c with
  | nil => exact consistent
  | cons call calls ih => exact ih (consistent.after call)

theorem consistent_empty : (empty : IndexedCatalog σ φ).Consistent := by
  refine ⟨fun name => ?_, List.Pairwise.nil⟩
  simp [empty, Catalog.named, Catalog.registered, Catalog.empty]

end IndexedCatalog

namespace Entry

def Fits (e : Entry σ) (kind : Kind) (count : Nat) : Prop :=
  (e.argumentKinds count).isSome ∧ (e.result = kind ∨ e.result = .matchType ∧ kind ≠ .control)

/-- How far back an entry stands among the candidates for a kind: entries of exactly the kind come before those of the
kind that the context asks for, and a fixed number of arguments before a variable one. -/
def rank (e : Entry σ) (kind : Kind) : Nat :=
  match decide (e.result = kind), e.isVariadic with
  | true, false => 0
  | true, true => 1
  | false, false => 2
  | false, true => 3

theorem group?_eq_some {e : Entry σ} {kind : Kind} {count g : Nat} :
    e.group? kind count = some g ↔ e.Fits kind count ∧ e.rank kind = g := by
  unfold group? Fits rank
  by_cases same : e.result = kind
  · cases e.argumentKinds count <;> cases e.isVariadic <;> simp [same]
  · by_cases matching : e.result = .matchType ∧ kind ≠ .control
    · obtain ⟨matching, uncontrolled⟩ := matching
      rw [matching] at same
      cases e.argumentKinds count <;> cases e.isVariadic <;> simp [matching, same, uncontrolled]
    · simp [same, matching]

theorem rank_lt (e : Entry σ) (kind : Kind) : e.rank kind < 4 := by
  unfold rank
  split <;> decide

end Entry

namespace IndexedCatalog

variable {c : IndexedCatalog σ φ}

def grouped (c : IndexedCatalog σ φ) (kind : Kind) (count : Nat) (ids : List Nat) (g : Nat) : List Nat :=
  ids.filter fun id => c.entries[id]?.bind (·.group? kind count) == some g

/-- Placed one after the other, candidates end up in their groups. -/
theorem foldl_place (c : IndexedCatalog σ φ) (kind : Kind) (count : Nat) (ids : List Nat) :
    ids.foldl (c.place kind count) [[], [], [], []] = (List.range 4).map (c.grouped kind count ids) := by
  induction ids using List.reverseRecOn with
  | nil => rfl
  | append_singleton ids id ih =>
    rw [List.foldl_append, ih, List.foldl_cons, List.foldl_nil, place]
    apply List.ext_getElem?
    intro g
    cases group : c.entries[id]?.bind (·.group? kind count) with
    | none => by_cases inside : g < 4 <;> simp [grouped, group, inside]
    | some h => by_cases here : h = g <;> by_cases inside : g < 4 <;> simp [grouped, group, here, inside]

private theorem Indexed.find_eq (indexed : c.Indexed) (name : String) (kind : Kind) (count : Nat) :
    c.find name kind count = (List.range 4).flatMap (c.grouped kind count (c.named name)) := by
  rw [find, indexed]
  by_cases none : c.named name = []
  · simp [none, grouped]
  · rw [if_neg none, List.flatMap, ← foldl_place]

theorem mem_grouped {kind : Kind} {count g id : Nat} {name : String} : id ∈ c.grouped kind count (c.named name) g ↔
    ∃ e, c.entries[id]? = some e ∧ e.name = name ∧ e.Fits kind count ∧ e.rank kind = g := by
  simp only [grouped, List.mem_filter, Catalog.mem_named, beq_iff_eq, Option.bind_eq_some_iff, Entry.group?_eq_some]
  constructor
  · rintro ⟨⟨e, found, named⟩, other, found', fits⟩
    obtain rfl := Option.some.inj (found.symm.trans found')
    exact ⟨e, found, named, fits⟩
  · rintro ⟨e, found, named, fits⟩
    exact ⟨⟨e, found, named⟩, e, found, fits⟩

private theorem Indexed.mem_find (indexed : c.Indexed) {name : String} {kind : Kind} {count id : Nat} :
    id ∈ c.find name kind count ↔ ∃ e, c.entries[id]? = some e ∧ e.name = name ∧ e.Fits kind count := by
  simp only [indexed.find_eq, List.mem_flatMap, List.mem_range, mem_grouped]
  constructor
  · rintro ⟨g, -, e, found, named, fits, -⟩
    exact ⟨e, found, named, fits⟩
  · rintro ⟨e, found, named, fits⟩
    exact ⟨e.rank kind, e.rank_lt kind, e, found, named, fits, rfl⟩

/-- One candidate is preferred to another one: its rank is lower, or it has the same rank and was registered earlier. -/
def Precedes (c : IndexedCatalog σ φ) (kind : Kind) (id other : Nat) : Prop :=
  ∃ e f, c.entries[id]? = some e ∧ c.entries[other]? = some f ∧
    (e.rank kind < f.rank kind ∨ e.rank kind = f.rank kind ∧ id < other)

private theorem Indexed.find_ordered (indexed : c.Indexed) (name : String) (kind : Kind) (count : Nat) :
    (c.find name kind count).Pairwise (c.Precedes kind) := by
  rw [indexed.find_eq, List.pairwise_flatMap]
  constructor
  · intro g _
    have ascending : (c.grouped kind count (c.named name) g).Pairwise (· < ·) := (c.named_ascending name).filter _
    refine ascending.imp_of_mem fun {id other} member member' earlier => ?_
    obtain ⟨e, found, -, -, first⟩ := mem_grouped.mp member
    obtain ⟨f, found', -, -, second⟩ := mem_grouped.mp member'
    exact ⟨e, f, found, found', .inr ⟨first.trans second.symm, earlier⟩⟩
  · refine List.pairwise_lt_range.imp fun {g h} lower id member other member' => ?_
    obtain ⟨e, found, -, -, rfl⟩ := mem_grouped.mp member
    obtain ⟨f, found', -, -, rfl⟩ := mem_grouped.mp member'
    exact ⟨e, f, found, found', .inl lower⟩

theorem precedes_irrefl {kind : Kind} {id : Nat} : ¬c.Precedes kind id id := by
  rintro ⟨e, f, found, found', lower⟩
  obtain rfl := Option.some.inj (found.symm.trans found')
  omega

private theorem Indexed.find_nodup (indexed : c.Indexed) (name : String) (kind : Kind) (count : Nat) :
    (c.find name kind count).Nodup := by
  refine (indexed.find_ordered name kind count).imp fun {id other} before same => ?_
  subst same
  exact precedes_irrefl before

private theorem Indexed.find_plain (indexed : c.Indexed) (name : String) (kind : Kind) (count : Nat) :
    (c.toCatalog.find name kind count).map (·.id) = c.find name kind count := by
  have group (g : Nat) : c.grouped kind count (c.named name) g =
      (c.registered.filter fun r => r.entry.name == name && r.entry.group? kind count == some g).map (·.id) := by
    rw [grouped, Catalog.named, List.filter_map, List.filter_filter]
    congr 1
    refine List.filter_congr fun r member => ?_
    rw [Function.comp_apply, Catalog.mem_registered.mp member, Option.bind_some, Bool.and_comm]
  have split : List.range 4 = [0, 1, 2, 3] := rfl
  rw [indexed.find_eq, split]
  simp only [List.flatMap_cons, List.flatMap_nil, List.append_nil, group, Catalog.find, List.filter_filter,
    ← List.map_append, ← List.append_assoc]
  refine congrArg (List.map _) (congrArg₂ (· ++ ·) (congrArg₂ (· ++ ·) (congrArg₂ (· ++ ·) ?_ ?_) ?_) ?_) <;>
    refine List.filter_congr fun r _ => ?_ <;> rw [Bool.eq_iff_iff]
  all_goals
    simp only [Bool.and_eq_true, Bool.not_eq_true', beq_iff_eq, bne_iff_ne, Entry.group?_eq_some, Entry.Fits, Entry.rank]
    by_cases same : r.entry.result = kind <;> cases arity : r.entry.isVariadic <;> grind

private theorem Consistent.number_inj (consistent : c.Consistent) {i j : Nat} {e f : Entry σ} (found : c.entries[i]? = some e)
    (found' : c.entries[j]? = some f) (same : f.Repeats e) : i = j := by
  have apart {k l : Nat} {g h : Entry σ} (first : c.entries[k]? = some g) (second : c.entries[l]? = some h)
      (same : h.Repeats g) : ¬k < l := by
    intro before
    obtain ⟨inside, rfl⟩ := List.getElem?_eq_some_iff.mp first
    obtain ⟨inside', rfl⟩ := List.getElem?_eq_some_iff.mp second
    exact List.pairwise_iff_getElem.mp consistent.distinct k l inside inside' before same
  have back : e.Repeats f := ⟨same.1.symm, same.2.1.symm, same.2.2.symm⟩
  exact Nat.le_antisymm (Nat.not_lt.mp (apart found' found back)) (Nat.not_lt.mp (apart found found' same))

/-- What calls on a catalog that starts empty come to. -/
structure Accurate (calls : List (Registration σ φ)) (c : IndexedCatalog σ φ) : Prop where
  /-- A call that fails leaves the catalog as it was. -/
  unchanged : ∀ (call : Registration σ φ) problem c', call.perform.run c = .error problem c' → c' = c
  /-- The entries are those that calls have added, under the numbers that these calls have answered. -/
  issued : empty.issued calls = c.registered
  /-- The numbers count the additions from zero. -/
  numbered : (empty.issued calls).map (·.id) = List.range c.entries.length
  /-- No later call takes an entry away or moves it to another number. -/
  lasting : ∀ more, c.registered <+: (c.afterAll more).registered
  /-- No two entries agree in name, result and arguments. -/
  distinct : ∀ (i j : Nat) (e f : Entry σ), c.entries[i]? = some e → c.entries[j]? = some f → e.name = f.name →
    e.result = f.result → e.arguments = f.arguments → i = j
  /-- The index lists under each name the numbers of its entries in the order of registration. -/
  indexed : ∀ name, c.byName[name]? = if c.named name = [] then none else some (c.named name)
  /-- The catalog without the index answers every call alike. -/
  plain : ∀ call : Registration σ φ, IndexedCatalog.plain (call.perform.run c) = call.performPlain c.toCatalog
  /-- A lookup finds the entries of the name that fit. -/
  found : ∀ name kind count id, id ∈ c.find name kind count ↔
    ∃ e, c.entries[id]? = some e ∧ e.name = name ∧ (e.argumentKinds count).isSome ∧
      (e.result = kind ∨ e.result = .matchType ∧ kind ≠ .control)
  nodup : ∀ name kind count, (c.find name kind count).Nodup
  /-- It lists the preferred ones first. -/
  ordered : ∀ name kind count, (c.find name kind count).Pairwise (c.Precedes kind)
  plain_found : ∀ name kind count, (c.toCatalog.find name kind count).map (·.id) = c.find name kind count

/-- Registrations keep the index, the numbers and the entries in step, and lookups through the index are exact. -/
theorem afterAll_accurate (calls : List (Registration σ φ)) : Accurate calls (empty.afterAll calls) := by
  have consistent : (empty.afterAll calls : IndexedCatalog σ φ).Consistent := consistent_empty.afterAll calls
  have issued : empty.issued calls = (empty.afterAll calls).registered := (registered_afterAll empty calls).symm
  refine ⟨?_, issued, ?_, ?_, ?_, consistent.indexed, consistent.indexed.plain_perform,
    fun _ _ _ _ => consistent.indexed.mem_find, consistent.indexed.find_nodup, consistent.indexed.find_ordered,
    consistent.indexed.find_plain⟩
  · intro call problem c' failed
    have step := (empty.afterAll calls).step call
    rw [failed] at step
    cases step
    rfl
  · rw [issued, Catalog.ids_registered]
  · intro more
    exact ⟨_, (registered_afterAll _ more).symm⟩
  · intro i j e f found found' named gives takes
    exact consistent.number_inj found found' ⟨named, gives, takes⟩

-- Exact kinds before the kind of the context, fixed numbers of arguments before variable ones, then the order of
-- registration; an entry that gives another kind is not found.
example :
    let mean (result : Kind) (arguments : List Kind) : Entry Unit :=
      ⟨"mean", result, arguments, .untyped, some fun _ => (), false⟩
    let entries := [mean .matchType [.matchType, .ellipsis], mean .matchType [.matchType],
      mean .flowFeature [.constant], mean .flowFeature [.packetFeature, .ellipsis],
      mean .flowFeature [.packetFeature], mean .packetFeature [.packetFeature]]
    ((⟨entries, [], []⟩ : Catalog Unit Unit).find "mean" .flowFeature 1).map (·.id) = [2, 4, 3, 1, 0] := by
  decide

end IndexedCatalog

end FlowMetering
