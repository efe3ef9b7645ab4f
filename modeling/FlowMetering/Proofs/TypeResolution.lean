import FlowMetering.Library.Catalog
import FlowMetering.Proofs.LoweredTrees
import FlowMetering.Proofs.TypeCombination

/-! Typing tries no more choices than it has to, and finds what trying all of them would find. A choice fixes one
alternative for every source in the specification; under it each expression has a type from its leaves up. -/

namespace FlowMetering

open TypeTree (Choice Consistent choices combine combinedUnder)

namespace Bound

variable {σ φ : Type} {catalog : Catalog σ φ}

/-- The source that a tree is by itself: a call of an entry with several types. -/
def ownSource : Bound σ → List (String × Nat)
  | .call binding args =>
    match binding.chosen.entry.output with
    | .variants elements => [(signature (.call binding args), elements.length)]
    | _ => []
  | _ => []

/-- The sources in an expression, each with its number of alternatives. -/
def variantSources (tree : Bound σ) : List (String × Nat) :=
  tree.subtrees.flatMap ownSource

mutual
/-- The type of an expression under a choice, from the leaves up. -/
def typeUnder (choice : Choice) : Bound σ → TypeTree
  | .raw _ => .untyped
  | .constant value => .fixed (.unregistered value.display value.naturalType)
  | .call binding args =>
    match binding.chosen.entry.output with
    | .untyped => .untyped
    | .fixed element => .fixed element
    | .variants elements =>
      match choice.branch? (signature (.call binding args)) with
      | some i => (elements[i]?.map .fixed).getD .dead
      | none => .dead
    | .resolved resolve =>
      let leaves := typesUnder choice args
      if leaves.any (· = .dead) then .dead
      else Typed.resolvedType binding.chosen.entry.name resolve leaves
termination_by structural tree => tree

def typesUnder (choice : Choice) : List (Bound σ) → List TypeTree
  | [] => []
  | arg :: args => typeUnder choice arg :: typesUnder choice args
termination_by structural args => args
end

private theorem typesUnder_eq_map (choice : Choice) (args : List (Bound σ)) :
    typesUnder choice args = args.map (typeUnder choice) := by
  induction args with
  | nil => rfl
  | cons arg args ih => rw [typesUnder, ih, List.map_cons]

private theorem mem_ownSource {tree : Bound σ} {source : String} {count : Nat} (member : (source, count) ∈ ownSource tree) :
    ∃ binding args elements, tree = .call binding args ∧ binding.chosen.entry.output = .variants elements ∧
      source = signature tree ∧ count = elements.length := by
  cases tree with
  | raw mark => exact absurd member List.not_mem_nil
  | constant value => exact absurd member List.not_mem_nil
  | call binding args =>
    rw [ownSource] at member
    split at member
    next elements several =>
      cases List.mem_singleton.mp member
      exact ⟨binding, args, elements, rfl, several, rfl, rfl⟩
    next => exact absurd member List.not_mem_nil

theorem mem_variantSources {tree : Bound σ} {source : String} {count : Nat} :
    (source, count) ∈ variantSources tree ↔ ∃ part ∈ tree.subtrees, (source, count) ∈ ownSource part :=
  List.mem_flatMap

private theorem variantSources_arg {binding : Binding σ} {args : List (Bound σ)} {arg : Bound σ} (member : arg ∈ args) :
    variantSources arg ⊆ variantSources (.call binding args) := by
  rintro ⟨source, count⟩ inside
  obtain ⟨part, held, own⟩ := mem_variantSources.mp inside
  exact mem_variantSources.mpr ⟨part, Tree.mem_subtrees_call.mpr (.inl ⟨arg, member, held⟩), own⟩

/-- Sources of one signature have equally many alternatives, because the signature tells the entry. -/
theorem consistent_variantSources {trees : List (Bound σ)} (drawn : ∀ tree ∈ trees, Over catalog tree) :
    Consistent (trees.flatMap variantSources) := by
  intro source count count' member member'
  obtain ⟨tree, held, member⟩ := List.mem_flatMap.mp member
  obtain ⟨tree', held', member'⟩ := List.mem_flatMap.mp member'
  obtain ⟨part, inside, own⟩ := mem_variantSources.mp member
  obtain ⟨part', inside', own'⟩ := mem_variantSources.mp member'
  obtain ⟨binding, args, elements, rfl, several, same, rfl⟩ := mem_ownSource own
  obtain ⟨binding', args', elements', rfl, several', same', rfl⟩ := mem_ownSource own'
  have entries := (Over.of_signature_eq ((drawn tree held).subtree inside) ((drawn tree' held').subtree inside')
    (same.symm.trans same')).1
  rw [entries, several'] at several
  cases several
  rfl

theorem positive_variantSources {trees : List (Bound σ)} (drawn : ∀ tree ∈ trees, Over catalog tree)
    (nonempty : ∀ entry ∈ catalog.entries, ∀ elements, entry.output = .variants elements → elements ≠ []) :
    ∀ point ∈ trees.flatMap variantSources, 0 < point.2 := by
  rintro ⟨source, count⟩ member
  obtain ⟨tree, held, member⟩ := List.mem_flatMap.mp member
  obtain ⟨part, inside, own⟩ := mem_variantSources.mp member
  obtain ⟨binding, args, elements, rfl, several, -, rfl⟩ := mem_ownSource own
  have entered : binding.chosen.entry ∈ catalog.entries := Catalog.mem_entries ((drawn tree held).subtree inside).head
  exact List.length_pos_iff.mpr (nonempty _ entered elements several)

end Bound

/-- The first item of a list to which something applies. -/
def FirstWith {α β : Type} (applies : α → β → Prop) (items : List α) (item : α) (b : β) : Prop :=
  ∃ before after, items = before ++ item :: after ∧ (∀ earlier ∈ before, ∀ b, ¬applies earlier b) ∧ applies item b

namespace FirstWith

variable {α β : Type} {applies : α → β → Prop} {items : List α} {item item' : α} {b b' : β}

private theorem mem (first : FirstWith applies items item b) : item ∈ items := by
  obtain ⟨before, after, rfl, -, -⟩ := first
  exact List.mem_append_right _ List.mem_cons_self

private theorem held (first : FirstWith applies items item b) : applies item b := by
  obtain ⟨before, after, -, -, held⟩ := first
  exact held

private theorem append (first : FirstWith applies items item b) (more : List α) : FirstWith applies (items ++ more) item b := by
  obtain ⟨before, after, rfl, none, held⟩ := first
  exact ⟨before, after ++ more, by rw [List.append_assoc, List.cons_append], none, held⟩

private theorem behind {front : List α} (none : ∀ item ∈ front, ∀ b, ¬applies item b) (first : FirstWith applies items item b) :
    FirstWith applies (front ++ items) item b := by
  obtain ⟨before, after, rfl, others, held⟩ := first
  refine ⟨front ++ before, after, (List.append_assoc _ _ _).symm, ?_, held⟩
  exact List.forall_mem_append.mpr ⟨none, others⟩

private theorem map {γ : Type} {applies' : γ → β → Prop} (f : α → γ) (same : ∀ item b, applies' (f item) b ↔ applies item b)
    (first : FirstWith applies items item b) : FirstWith applies' (items.map f) (f item) b := by
  obtain ⟨before, after, rfl, none, held⟩ := first
  refine ⟨before.map f, after.map f, by rw [List.map_append, List.map_cons], ?_, (same item b).mpr held⟩
  exact List.forall_mem_map.mpr fun earlier member b applied => none earlier member b ((same earlier b).mp applied)

private theorem unique (functional : ∀ item b b', applies item b → applies item b' → b = b')
    (first : FirstWith applies items item b) (other : FirstWith applies items item' b') : item = item' ∧ b = b' := by
  obtain ⟨before, after, rfl, none, held⟩ := first
  obtain ⟨before', after', same, none', held'⟩ := other
  rcases List.append_eq_append_iff.mp same with ⟨between, rfl, rest⟩ | ⟨between, rfl, rest⟩
  · cases between with
    | nil =>
      obtain ⟨rfl, -⟩ := List.cons.inj rest
      exact ⟨rfl, functional _ _ _ held held'⟩
    | cons middle between =>
      obtain ⟨rfl, -⟩ := List.cons.inj rest
      exact absurd held (none' _ (List.mem_append_right _ List.mem_cons_self) _)
  · cases between with
    | nil =>
      obtain ⟨rfl, -⟩ := List.cons.inj rest
      exact ⟨rfl, functional _ _ _ held held'⟩
    | cons middle between =>
      obtain ⟨rfl, -⟩ := List.cons.inj rest
      exact absurd held' (none _ (List.mem_append_right _ List.mem_cons_self) _)

end FirstWith

namespace Typed

variable {σ : Type}

def erase (t : Typed σ) : Bound σ :=
  t.map id Typing.binding

/-- What typing has found at an expression is what each choice gives. -/
structure Agrees (points : List (String × Nat)) (t : Typed σ) : Prop where
  within : t.type.branchings ⊆ points
  under : ∀ choice : Choice, choice.Covers points → t.type.select choice = t.erase.typeUnder choice

def argumentPoints (args : List (Typed σ)) : List (String × Nat) :=
  (args.map type).flatMap TypeTree.branchings

/-- Why a call has no type although its arguments have: its arguments have too many choices, or no choice gives the
call a type. -/
inductive Faulty (limit : Nat) (points : List (String × Nat)) : Bound σ → Fault → Prop
  | tooMany {binding : Binding σ} {args : List (Bound σ)} {resolve : List FieldType → Option FieldType}
    {typed : List (Typed σ)} (computed : binding.chosen.entry.output = .resolved resolve)
    (done : ofBounds limit args = .ok typed) (many : limit < choices (argumentPoints typed)) :
    Faulty limit points (.call binding args)
      (.tooManyVariants (min (choices (argumentPoints typed)) Word.maxUnsigned) limit)
  | dead {binding : Binding σ} {args : List (Bound σ)} {resolve : List FieldType → Option FieldType}
    {typed : List (Typed σ)} (computed : binding.chosen.entry.output = .resolved resolve)
    (done : ofBounds limit args = .ok typed) (few : choices (argumentPoints typed) ≤ limit)
    (dead : ∀ choice : Choice, choice.Covers points → Bound.typeUnder choice (.call binding args) = .dead) :
    Faulty limit points (.call binding args) .unresolvableVariant

private theorem Faulty.unique {limit : Nat} {points : List (String × Nat)} (tree : Bound σ) (fault fault' : Fault)
    (faulty : Faulty limit points tree fault) (faulty' : Faulty limit points tree fault') : fault = fault' := by
  cases faulty with
  | tooMany computed done many =>
    cases faulty' with
    | tooMany computed' done' many' =>
      cases done.symm.trans done'
      rfl
    | dead computed' done' few dead =>
      cases done.symm.trans done'
      omega
  | dead computed done few dead =>
    cases faulty' with
    | tooMany computed' done' many =>
      cases done.symm.trans done'
      omega
    | dead computed' done' few' dead' => rfl

/-- A typed expression goes with the expression that it types. -/
structure Types (points : List (String × Nat)) (tree : Bound σ) (t : Typed σ) : Prop where
  erased : t.erase = tree
  signed : t.signature = tree.signature
  agrees : ∀ node ∈ t.subtrees, Agrees points node

private theorem Faulty.computes {limit : Nat} {points : List (String × Nat)} {binding : Binding σ} {args : List (Bound σ)}
    {fault : Fault} (faulty : Faulty limit points (.call binding args) fault) :
    ∃ resolve, binding.chosen.entry.output = .resolved resolve := by
  cases faulty with
  | tooMany computed => exact ⟨_, computed⟩
  | dead computed => exact ⟨_, computed⟩

theorem resolvedType_plain (name : String) (resolve : List FieldType → Option FieldType) (leaves : List TypeTree) :
    (resolvedType name resolve leaves).isVariant = false := by
  rw [resolvedType]
  split <;> rfl

theorem combinedUnder_types {points : List (String × Nat)} {binding : Binding σ} {args : List (Bound σ)}
    {typed : List (Typed σ)} {resolve : List FieldType → Option FieldType}
    (computed : binding.chosen.entry.output = .resolved resolve) (each : List.Forall₂ (Types points) args typed)
    {choice : Choice} (covers : choice.Covers points) :
    combinedUnder (resolvedType binding.chosen.entry.name resolve) (typed.map type) choice =
      Bound.typeUnder choice (.call binding args) := by
  have leaves : (typed.map type).map (TypeTree.select choice) = Bound.typesUnder choice args := by
    rw [Bound.typesUnder_eq_map]
    induction each with
    | nil => rfl
    | cons first rest ih =>
      have agrees := (first.agrees _ (Tree.mem_subtrees_self _)).under choice covers
      rw [first.erased] at agrees
      rw [List.map_cons, List.map_cons, List.map_cons, agrees, ih]
  rw [combinedUnder, Bound.typeUnder, computed, leaves]

theorem ofBounds_cases {limit : Nat} {points : List (String × Nat)} {args : List (Bound σ)}
    (each : ∀ arg ∈ args, (∃ t, ofBound limit arg = .ok t ∧ Types points arg t ∧
        ∀ node ∈ arg.subtrees, ∀ fault, ¬Faulty limit points node fault) ∨
      ∃ node fault, FirstWith (Faulty limit points) arg.subtrees node fault ∧
        ofBound limit arg = .error ⟨node.text, fault⟩) :
    (∃ ts, ofBounds limit args = .ok ts ∧ List.Forall₂ (Types points) args ts ∧
        ∀ node ∈ Tree.allSubtrees args, ∀ fault, ¬Faulty limit points node fault) ∨
      ∃ node fault, FirstWith (Faulty limit points) (Tree.allSubtrees args) node fault ∧
        ofBounds limit args = .error ⟨node.text, fault⟩ := by
  induction args with
  | nil => exact .inl ⟨[], rfl, .nil, fun _ member => absurd member List.not_mem_nil⟩
  | cons arg args ih =>
    rw [ofBounds, Tree.allSubtrees]
    rcases each arg List.mem_cons_self with ⟨t, done, types, sound⟩ | ⟨node, fault, first, failed⟩
    · rw [done]
      rcases ih fun other member => each other (List.mem_cons_of_mem _ member) with
        ⟨ts, rest, all, others⟩ | ⟨node, fault, first, failed⟩
      · rw [rest]
        exact .inl ⟨t :: ts, rfl, .cons types all, List.forall_mem_append.mpr ⟨sound, others⟩⟩
      · rw [failed]
        exact .inr ⟨node, fault, first.behind sound, rfl⟩
    · rw [failed]
      exact .inr ⟨node, fault, first.append _, rfl⟩

private theorem Types.erase_args {points : List (String × Nat)} {args : List (Bound σ)} {ts : List (Typed σ)}
    (each : List.Forall₂ (Types points) args ts) : ts.map erase = args := by
  induction each with
  | nil => rfl
  | cons first rest ih => rw [List.map_cons, first.erased, ih]

private theorem Types.sign_args {points : List (String × Nat)} {args : List (Bound σ)} {ts : List (Typed σ)}
    (each : List.Forall₂ (Types points) args ts) : ts.map signature = args.map Bound.signature := by
  induction each with
  | nil => rfl
  | cons first rest ih => rw [List.map_cons, List.map_cons, first.signed, ih]

theorem erase_call (typing : Typing σ) (args : List (Typed σ)) :
    erase (.call typing args) = .call typing.binding (args.map erase) :=
  Tree.map_call _ _ _ _

theorem text_eq_erase (t : Typed σ) : t.text = t.erase.text :=
  (Tree.render_map id Typing.binding Binding.name t).symm

section Calls

variable {limit : Nat} {points : List (String × Nat)} (small : limit < Word.maxUnsigned)
  (consistent : Consistent points) (positive : ∀ point ∈ points, 0 < point.2)
include small consistent positive

/-- What typing finds at a call whose arguments are typed. -/
theorem callType_cases {binding : Binding σ} {args : List (Bound σ)} {typed : List (Typed σ)}
    (own : Bound.ownSource (.call binding args) ⊆ points) (done : ofBounds limit args = .ok typed)
    (each : List.Forall₂ (Types points) args typed) :
    (∃ type, callType limit binding.chosen.entry (Bound.signature (.call binding args)) (typed.map Typed.type) = .ok type ∧
        type.branchings ⊆ points ∧
        (∀ choice : Choice, choice.Covers points →
          type.select choice = Bound.typeUnder choice (.call binding args)) ∧
        ∀ fault, ¬Faulty limit points (.call binding args) fault) ∨
      ∃ error, callType limit binding.chosen.entry (Bound.signature (.call binding args)) (typed.map Typed.type) =
          .error error ∧
        Faulty limit points (.call binding args) (faultOf limit error) := by
  have sound (fault : Fault) (faulty : Faulty limit points (.call binding args) fault) :
      ∃ resolve, binding.chosen.entry.output = .resolved resolve := faulty.computes
  have under (choice : Choice) := Bound.typeUnder.eq_3 choice binding args
  rw [callType]
  rw [Bound.ownSource] at own
  cases output : binding.chosen.entry.output with
  | untyped =>
    rw [output] at sound under
    refine .inl ⟨.untyped, rfl, List.nil_subset _, fun choice _ => (under choice).symm, fun fault faulty => ?_⟩
    obtain ⟨resolve, computed⟩ := sound fault faulty
    cases computed
  | fixed element =>
    rw [output] at sound under
    refine .inl ⟨.fixed element, rfl, List.nil_subset _, fun choice _ => (under choice).symm, fun fault faulty => ?_⟩
    obtain ⟨resolve, computed⟩ := sound fault faulty
    cases computed
  | variants elements =>
    rw [output] at sound under own
    refine .inl ⟨_, rfl, ?_, fun choice covers => ?_, fun fault faulty => ?_⟩
    · intro point inside
      rw [TypeTree.mem_branchings_variants, List.length_map] at inside
      rcases inside with rfl | ⟨_, member, inside⟩
      · exact own (List.mem_singleton_self _)
      · obtain ⟨element, -, rfl⟩ := List.mem_map.mp member
        exact absurd inside List.not_mem_nil
    · rw [under, TypeTree.select]
      cases choice.branch? (Bound.signature (.call binding args)) with
      | none => rfl
      | some i =>
        dsimp only
        rw [TypeTree.selectAt_eq, List.getElem?_map, Option.map_map]
        rfl
    · obtain ⟨resolve, computed⟩ := sound fault faulty
      cases computed
  | resolved resolve =>
    have within : argumentPoints typed ⊆ points := by
      intro point inside
      obtain ⟨_, member, inside⟩ := List.mem_flatMap.mp inside
      obtain ⟨t, held, rfl⟩ := List.mem_map.mp member
      obtain ⟨arg, -, types⟩ := forall₂_mem_right each held
      exact (types.agrees t (Tree.mem_subtrees_self t)).within inside
    have value {choice : Choice} (covers : choice.Covers points) := combinedUnder_types output each covers
    rcases TypeTree.combine_cases (typed.map type) (resolvedType_plain binding.chosen.entry.name resolve) small
        (consistent.mono within) (fun point inside => positive point (within inside)) with
      ⟨many, failed⟩ | ⟨few, dead, failed⟩ | ⟨few, ⟨choice, covers, alive⟩, tree, succeeded, inside, selects⟩
    · exact .inr ⟨_, failed, .tooMany output done many⟩
    · refine .inr ⟨_, failed, .dead output done few fun choice covers => ?_⟩
      rw [← value covers]
      exact dead choice (covers.mono within)
    · refine .inl ⟨tree, succeeded, List.Subset.trans inside within, fun choice covers => ?_, fun fault faulty => ?_⟩
      · rw [selects choice (covers.mono within), value covers]
      · obtain ⟨completed, covering, same⟩ := covers.extend within consistent positive
        cases faulty with
        | tooMany computed done' many =>
          cases done.symm.trans done'
          exact absurd many (Nat.not_lt.mpr few)
        | dead computed done' few dead =>
          refine alive ?_
          rw [← TypeTree.combinedUnder_congr _ _ same, value covering]
          exact dead completed covering

/-- Typing succeeds where no call is faulty, and otherwise reports the first call that is. -/
theorem ofBound_cases {tree : Bound σ} (within : tree.variantSources ⊆ points) :
    (∃ t, ofBound limit tree = .ok t ∧ Types points tree t ∧
        ∀ node ∈ tree.subtrees, ∀ fault, ¬Faulty limit points node fault) ∨
      ∃ node fault, FirstWith (Faulty limit points) tree.subtrees node fault ∧
        ofBound limit tree = .error ⟨node.text, fault⟩ := by
  induction tree using Tree.induct with
  | raw mark =>
    refine .inl ⟨.raw mark, rfl, ⟨rfl, rfl, fun node member => ?_⟩, fun node member fault faulty => ?_⟩
    · rw [List.mem_singleton.mp member]
      exact ⟨List.nil_subset _, fun _ _ => rfl⟩
    · rw [List.mem_singleton.mp member] at faulty
      cases faulty
  | constant value =>
    refine .inl ⟨.constant value, rfl, ⟨rfl, rfl, fun node member => ?_⟩, fun node member fault faulty => ?_⟩
    · rw [List.mem_singleton.mp member]
      exact ⟨List.nil_subset _, fun _ _ => rfl⟩
    · rw [List.mem_singleton.mp member] at faulty
      cases faulty
  | call binding args ih =>
    have own : Bound.ownSource (.call binding args) ⊆ points := fun point inside =>
      within (List.mem_flatMap.mpr ⟨_, Tree.mem_subtrees_self _, inside⟩)
    rw [ofBound, Tree.subtrees]
    rcases ofBounds_cases fun arg member => ih arg member (List.Subset.trans (Bound.variantSources_arg member) within) with
      ⟨ts, done, each, sound⟩ | ⟨node, fault, first, failed⟩
    · have key : callKey binding.chosen (ts.map signature) = Bound.signature (.call binding args) := by
        rw [Types.sign_args each, Bound.signature_call]
      rw [done]
      dsimp only [bind, Except.bind]
      rw [key]
      rcases callType_cases small consistent positive own done each with
        ⟨type, typed, inside, under, none⟩ | ⟨error, failed, faulty⟩
      · have erased : erase (.call ⟨binding, Bound.signature (.call binding args), type⟩ ts) = .call binding args := by
          rw [erase_call, Types.erase_args each]
        rw [typed]
        refine .inl ⟨_, rfl, ⟨erased, rfl, fun node member => ?_⟩, ?_⟩
        · rcases Tree.mem_subtrees_call.mp member with ⟨t, held, member⟩ | rfl
          · obtain ⟨arg, -, types⟩ := forall₂_mem_right each held
            exact types.agrees node member
          · exact ⟨inside, fun choice covers => erased ▸ under choice covers⟩
        · exact List.forall_mem_append.mpr ⟨sound, fun node member => List.mem_singleton.mp member ▸ none⟩
      · have alone : FirstWith (Faulty limit points) [.call binding args] (.call binding args) (faultOf limit error) :=
          ⟨[], [], rfl, fun _ member => absurd member List.not_mem_nil, faulty⟩
        rw [failed]
        refine .inr ⟨_, _, alone.behind sound, ?_⟩
        rw [text_eq_erase, erase_call, Types.erase_args each]
    · rw [failed]
      exact .inr ⟨node, fault, first.append _, rfl⟩

end Calls

end Typed

namespace Specification

variable {σ φ : Type}

def sources (fields : List (Field (Bound σ))) : List (String × Nat) :=
  (fields.map Field.tree).flatMap Bound.variantSources

/-- All parts of some features, each with the position of its feature: the arguments of a call before the call. -/
def parts (fields : List (Field (Bound σ) × Nat)) : List (Nat × Bound σ) :=
  fields.flatMap fun item => item.1.tree.subtrees.map fun part => (item.2 + 1, part)

def erased (field : Field (Typed σ)) : Field (Bound σ) :=
  ⟨field.name, field.declared, field.tree.erase⟩

structure TypesField (points : List (String × Nat)) (field : Field (Bound σ)) (typed : Field (Typed σ)) : Prop where
  name : typed.name = field.name
  declared : typed.declared = field.declared
  tree : Typed.Types points field.tree typed.tree

private theorem TypesField.erased_all {points : List (String × Nat)} {fields : List (Field (Bound σ))}
    {typed : List (Field (Typed σ))} (each : List.Forall₂ (TypesField points) fields typed) :
    typed.map erased = fields := by
  induction each with
  | nil => rfl
  | cons first rest ih => rw [List.map_cons, ih, erased, first.name, first.declared, first.tree.erased]

private theorem typeFields_cases {limit : Nat} {points : List (String × Nat)} (small : limit < Word.maxUnsigned)
    (consistent : Consistent points) (positive : ∀ point ∈ points, 0 < point.2)
    {items : List (Field (Bound σ) × Nat)} (within : ∀ item ∈ items, item.1.tree.variantSources ⊆ points) :
    (∃ typed, items.mapM (fun item => located (item.2 + 1) (typeField limit item.1)) = .ok typed ∧
        List.Forall₂ (TypesField points) (items.map (·.1)) typed ∧
        ∀ part ∈ parts items, ∀ fault, ¬Typed.Faulty limit points part.2 fault) ∨
      ∃ position node fault,
        FirstWith (fun part => Typed.Faulty limit points part.2) (parts items) (position, node) fault ∧
        items.mapM (fun item => located (item.2 + 1) (typeField limit item.1)) =
          .error ((Problem.mk node.text fault).located position) := by
  induction items with
  | nil => exact .inl ⟨[], rfl, .nil, fun _ member => absurd member List.not_mem_nil⟩
  | cons item items ih =>
    rw [List.mapM_cons, parts, List.flatMap_cons, ← parts]
    rcases Typed.ofBound_cases small consistent positive (within item List.mem_cons_self) with
      ⟨t, done, types, sound⟩ | ⟨node, fault, first, failed⟩
    · have typed : typeField limit item.1 = .ok ⟨item.1.name, item.1.declared, t⟩ := by
        rw [typeField, done]
        rfl
      rw [typed, located]
      rcases ih fun other member => within other (List.mem_cons_of_mem _ member) with
        ⟨ts, rest, all, others⟩ | ⟨position, node, fault, first, failed⟩
      · rw [rest]
        refine .inl ⟨_, rfl, .cons ⟨rfl, rfl, types⟩ all, List.forall_mem_append.mpr ⟨?_, others⟩⟩
        exact List.forall_mem_map.mpr sound
      · rw [failed]
        exact .inr ⟨position, node, fault, first.behind (List.forall_mem_map.mpr sound), rfl⟩
    · have failed : typeField limit item.1 = .error ⟨node.text, fault⟩ := by
        rw [typeField, failed]
        rfl
      have placed : FirstWith (fun part => Typed.Faulty limit points part.2)
          (item.1.tree.subtrees.map fun part => (item.2 + 1, part)) (item.2 + 1, node) fault :=
        first.map _ fun _ _ => Iff.rfl
      rw [failed, located]
      exact .inr ⟨item.2 + 1, node, fault, placed.append _, rfl⟩

/-- Typing a specification succeeds with the types that each choice gives, or it fails at the first part that is
faulty. -/
theorem typing_matches_choices {catalog : Catalog σ φ}
    (nonempty : ∀ entry ∈ catalog.entries, ∀ elements, entry.output = .variants elements → elements ≠ [])
    {limit : Nat} (small : limit < Word.maxUnsigned) {s : Specification} {fields : List (Field (Bound σ))}
    (lowered : s.lowered catalog = .ok fields) :
    (∀ typed, stage (typeField limit) fields = .ok typed →
        typed.map erased = fields ∧
        ∀ field ∈ typed, ∀ node : Typed σ, node ∈ field.tree.subtrees →
          ∀ choice : Choice, choice.Covers (sources fields) →
            node.type.select choice = node.erase.typeUnder choice) ∧
      ∀ problem, stage (typeField limit) fields = .error problem ↔
        ∃ position node fault,
          FirstWith (fun part => Typed.Faulty limit (sources fields) part.2) (parts fields.zipIdx) (position, node)
            fault ∧
          problem = (Problem.mk node.text fault).located position := by
  have drawn := lowered_over lowered
  have each : ∀ tree ∈ fields.map Field.tree, Bound.Over catalog tree := List.forall_mem_map.mpr drawn
  have consistent := Bound.consistent_variantSources each
  have positive := Bound.positive_variantSources each nonempty
  have within : ∀ item ∈ fields.zipIdx, item.1.tree.variantSources ⊆ sources fields := by
    intro item member point inside
    have held : item.1 ∈ fields := List.mem_of_getElem? (List.mem_zipIdx_iff_getElem?.mp member)
    exact List.mem_flatMap.mpr ⟨_, List.mem_map_of_mem held, inside⟩
  rcases typeFields_cases small consistent positive within with
    ⟨typed, done, all, sound⟩ | ⟨position, node, fault, first, failed⟩
  · rw [stage, done]
    constructor
    · rintro _ ⟨rfl⟩
      rw [List.zipIdx_map_fst] at all
      refine ⟨?_, fun field member node inside choice covers => ?_⟩
      · exact TypesField.erased_all all
      · obtain ⟨field', -, types⟩ := forall₂_mem_right all member
        exact (types.tree.agrees node inside).under choice covers
    · intro problem
      refine ⟨nofun, ?_⟩
      rintro ⟨position, node, fault, first, -⟩
      exact absurd first.held (sound _ first.mem fault)
  · rw [stage, failed]
    refine ⟨nofun, fun problem => ⟨?_, ?_⟩⟩
    · rintro ⟨rfl⟩
      exact ⟨position, node, fault, first, rfl⟩
    · rintro ⟨position', node', fault', first', rfl⟩
      obtain ⟨same, rfl⟩ := first.unique (fun part => Typed.Faulty.unique part.2) first'
      cases same
      rfl

/-- A comparison of the two ends of a flow: of the four choices of families only two have a type. -/
def comparedEnds : Specification :=
  .ofFeatures [.array [.string "equal", .string "sourceIPAddress", .string "destinationIPAddress"]]

theorem library_variants_nonempty :
    ∀ entry ∈ Library.catalog.entries, ∀ elements, entry.output = .variants elements → elements ≠ [] := by
  have all : (Library.catalog.entries.all fun entry =>
      match entry.output with
      | .variants elements => !elements.isEmpty
      | _ => true) = true := by decide +kernel
  rintro entry member _ several rfl
  have held := List.all_eq_true.mp all entry member
  rw [several] at held
  cases held

theorem typing_matches_choices_of_ends :
    ∃ fields, comparedEnds.lowered Library.catalog = .ok fields ∧
      (∃ typed, stage (typeField 4) fields = .ok typed ∧
        ∀ field ∈ typed, ∀ node : Typed Library.Instance, node ∈ field.tree.subtrees →
          ∀ choice : Choice, choice.Covers (sources fields) → node.type.select choice = node.erase.typeUnder choice) ∧
      ∃ position node fault,
        FirstWith (fun part => Typed.Faulty 3 (sources fields) part.2) (parts fields.zipIdx) (position, node) fault ∧
        stage (typeField 3) fields = .error ((Problem.mk node.text fault).located position) := by
  have enough : (comparedEnds.lowered Library.catalog >>= stage (typeField 4)).isOk = true := by decide +kernel
  have scarce : (comparedEnds.lowered Library.catalog >>= stage (typeField 3)).isOk = false := by decide +kernel
  obtain ⟨result, succeeded⟩ := ok_of_isOk enough
  obtain ⟨fields, lowered, done⟩ := bind_eq_ok.mp succeeded
  refine ⟨fields, lowered, ⟨result, done, ?_⟩, ?_⟩
  · exact ((typing_matches_choices library_variants_nonempty (by decide) lowered).1 result done).2
  · rw [lowered] at scarce
    cases failed : stage (typeField 3) fields with
    | ok typed =>
      rw [show (Except.ok fields >>= stage (typeField 3)) = stage (typeField 3) fields from rfl, failed] at scarce
      cases scarce
    | error problem =>
      obtain ⟨position, node, fault, first, rfl⟩ :=
        ((typing_matches_choices library_variants_nonempty (by decide) lowered).2 problem).mp failed
      exact ⟨position, node, fault, first, rfl⟩

end Specification

end FlowMetering
