import FlowMetering.Proofs.ReportedTypes

/-! Types under one address family. What has a type under some choice of families has one when all sources choose the same
family, for no entry tells the families apart. -/

namespace FlowMetering

def FieldType.inFamily (n : Nat) : FieldType → FieldType
  | .ipv4Address | .ipv6Address => if n = 0 then .ipv4Address else .ipv6Address
  | type => type

theorem FieldType.inFamily_of_isNumeric {type : FieldType} (numeric : type.isNumeric = true) (n : Nat) :
    type.inFamily n = type := by
  cases type with
  | ipv4Address | ipv6Address => cases numeric
  | _ => rfl

theorem FieldType.isNumeric_common {a b common : FieldType} (found : a.upconvert b = some common) :
    common.isNumeric = true := by
  rcases upconvert_cases found with ⟨-, -, rfl⟩ | ⟨-, rfl⟩ | ⟨-, -, -, rfl⟩ <;> rfl

/-- The type that is found does not depend on the family, but for being an address of this family. -/
private def Unfamiliar (resolve : List FieldType → Option FieldType) : Prop :=
  ∀ n types type, resolve types = some type → resolve (types.map (FieldType.inFamily n)) = some (type.inFamily n)

/-- A type without branches is another one with its addresses in a given family. -/
inductive TypeTree.Moves (n : Nat) : TypeTree → TypeTree → Prop
  | untyped : Moves n .untyped .untyped
  | fixed {element moved : Element} (same : moved.type = element.type.inFamily n) : Moves n (.fixed element) (.fixed moved)

theorem Typed.fieldTypes_moves {n : Nat} {leaves moved : List TypeTree} (each : List.Forall₂ (TypeTree.Moves n) leaves moved) :
    fieldTypes moved = (fieldTypes leaves).map (FieldType.inFamily n) := by
  induction each with
  | nil => rfl
  | cons first rest ih =>
    cases first with
    | untyped => exact ih
    | fixed same => exact List.cons_eq_cons.mpr ⟨same, ih⟩

/-- A call that has been given a type has one under some choice. -/
theorem Typed.alive_of_combine {limit : Nat} {eval : List TypeTree → TypeTree} {arguments : List TypeTree} {tree : TypeTree}
    (plain : ∀ leaves, (eval leaves).isVariant = false)
    (consistent : TypeTree.Consistent (arguments.flatMap TypeTree.branchings))
    (combined : TypeTree.combine limit eval arguments = .ok tree) :
    ∃ choice : TypeTree.Choice, choice.Covers (arguments.flatMap TypeTree.branchings) ∧
      TypeTree.combinedUnder eval arguments choice ≠ .dead := by
  have alive : ¬tree.isDead = true := by
    rw [TypeTree.combine] at combined
    dsimp only at combined
    split at combined
    · cases combined
    · split at combined
      next => cases combined
      next alive => rwa [← Except.ok.inj combined]
  rw [combine_eq_ok combined, TypeTree.isDead_collapse] at alive
  have collected := TypeTree.collected_sources arguments
  have members : arguments.flatMap TypeTree.branchings ⊆ TypeTree.sources arguments := fun point member =>
    (TypeTree.sources_perm consistent).mem_iff.mpr (List.mem_dedup.mpr member)
  obtain ⟨taken, each, typed⟩ := TypeTree.exists_leaf (TypeTree.combinedUnder_plain arguments plain) alive
  exact ⟨taken, ((consistent.mono collected.subset).covers each).mono members, typed⟩

private theorem TypeTree.Moves.ne_dead {n : Nat} {leaf moved : TypeTree} (moves : Moves n leaf moved) : moved ≠ .dead := by
  cases moves <;> simp

namespace Library

open TypeTree (Choice Moves combinedUnder)

section Resolvers

private theorem foldlM_isNumeric {rest : List FieldType} {first type : FieldType} (numeric : first.isNumeric = true)
    (resolved : rest.foldlM FieldType.upconvert first = some type) :
    (∀ other ∈ rest, other.isNumeric = true) ∧ type.isNumeric = true := by
  induction rest generalizing first with
  | nil =>
    cases resolved
    exact ⟨List.forall_mem_nil _, numeric⟩
  | cons second rest ih =>
    rw [List.foldlM_cons] at resolved
    obtain ⟨common, found, resolved⟩ := Option.bind_eq_some_iff.mp resolved
    obtain ⟨others, last⟩ := ih (FieldType.isNumeric_common found) resolved
    exact ⟨List.forall_mem_cons.mpr ⟨(FieldType.isNumeric_of_upconvert found).2, others⟩, last⟩

private theorem map_inFamily {types : List FieldType} (numeric : ∀ type ∈ types, type.isNumeric = true) (n : Nat) :
    types.map (FieldType.inFamily n) = types := by
  rw [List.map_congr_left fun type member => FieldType.inFamily_of_isNumeric (numeric type member) n]
  exact List.map_id' types

private theorem unfamiliar_commonType : Unfamiliar commonType := by
  intro n types type resolved
  cases types with
  | nil => cases resolved
  | cons first rest =>
    obtain ⟨common, found, folded⟩ := Option.bind_eq_some_iff.mp resolved
    obtain ⟨others, last⟩ := foldlM_isNumeric (FieldType.isNumeric_common found) folded
    rw [map_inFamily (List.forall_mem_cons.mpr ⟨(FieldType.isNumeric_of_upconvert found).1, others⟩),
      FieldType.inFamily_of_isNumeric last]
    exact resolved

private theorem unfamiliar_quotientType : Unfamiliar quotientType := by
  intro n types type resolved
  unfold quotientType at resolved
  split at resolved
  next a b =>
    split at resolved
    next numeric =>
      cases resolved
      rw [Bool.and_eq_true] at numeric
      rw [map_inFamily (List.forall_mem_cons.mpr ⟨numeric.1, List.forall_mem_singleton.mpr numeric.2⟩), quotientType,
        numeric.1, numeric.2]
      rfl
    next => cases resolved
  next => cases resolved

private theorem unfamiliar_comparisonType : Unfamiliar comparisonType := by
  intro n types type resolved
  unfold comparisonType at resolved
  split at resolved
  next a b =>
    split at resolved
    next comparable =>
      cases resolved
      rw [Bool.or_eq_true, Bool.and_eq_true, beq_iff_eq] at comparable
      rw [List.map_cons, List.map_singleton, comparisonType, if_pos]
      · rfl
      · rw [Bool.or_eq_true, Bool.and_eq_true, beq_iff_eq]
        rcases comparable with ⟨first, second⟩ | rfl
        · rw [FieldType.inFamily_of_isNumeric first, FieldType.inFamily_of_isNumeric second]
          exact .inl ⟨first, second⟩
        · exact .inr rfl
    next => cases resolved
  next => cases resolved

private theorem unfamiliar_argumentType : Unfamiliar argumentType := by
  intro n types type resolved
  rw [argumentType, List.head?_map]
  exact congrArg (Option.map _) resolved

private theorem unfamiliar_sumType : Unfamiliar sumType := by
  intro n types type resolved
  cases types with
  | nil => cases resolved
  | cons first rest =>
    change first.upconvert first = some type at resolved
    change (first.inFamily n).upconvert (first.inFamily n) = _
    rw [FieldType.inFamily_of_isNumeric (FieldType.isNumeric_of_upconvert resolved).1,
      FieldType.inFamily_of_isNumeric (FieldType.isNumeric_common resolved)]
    exact resolved

private theorem unfamiliar_meanType : Unfamiliar meanType := by
  intro n types type resolved
  obtain ⟨first, found, rfl⟩ := Option.map_eq_some_iff.mp resolved
  obtain ⟨head, numeric⟩ := Option.filter_eq_some_iff.mp found
  rw [meanType, List.head?_map, head, Option.map_some, FieldType.inFamily_of_isNumeric numeric, ← head, found]
  rfl

private theorem unfamiliar_entries : ∀ entry ∈ entries, ∀ resolve, entry.output = .resolved resolve → Unfamiliar resolve := by
  have fixed (entry : Entry Instance) (element : Element) (same : entry.output = .fixed element) :
      ∀ resolve, entry.output = .resolved resolve → Unfamiliar resolve := by
    intro resolve computed
    rw [same] at computed
    cases computed
  have operator (op : Operator) : ∀ resolve, (operatorEntry op).output = .resolved resolve → Unfamiliar resolve := by
    rintro _ ⟨⟩
    cases op with
    | add | subtract | multiply => exact unfamiliar_commonType
    | divide => exact unfamiliar_quotientType
    | less | greater | equal => exact unfamiliar_comparisonType
  have aggregate (rule : Aggregate) : Unfamiliar rule.resolve := by
    cases rule with
    | sum => exact unfamiliar_sumType
    | min | max | first | last => exact unfamiliar_argumentType
  simp only [entries, List.forall_mem_append, List.forall_mem_map, List.forall_mem_cons]
  refine ⟨⟨⟨⟨?_, ?_⟩, ?_⟩, ?_⟩, ?_⟩
  · refine ⟨fixed _ _ rfl, fixed _ _ rfl, fixed _ _ rfl, fixed _ _ rfl, fixed _ _ rfl, fixed _ _ rfl, fixed _ _ rfl, ?_⟩
    refine ⟨by rintro _ ⟨⟩, by rintro _ ⟨⟩, fixed _ _ rfl, fixed _ _ rfl, fixed _ _ rfl, fixed _ _ rfl, fixed _ _ rfl, ?_⟩
    exact ⟨fixed _ _ rfl, by rintro _ ⟨⟩, by rintro _ ⟨⟩, fixed _ _ rfl, List.forall_mem_nil _⟩
  · refine ⟨?_, ?_, ?_, ?_, ?_, List.forall_mem_nil _⟩ <;> rintro _ ⟨⟩ <;> exact aggregate _
  · exact ⟨by rintro _ ⟨⟩; exact unfamiliar_meanType, fixed _ _ rfl, List.forall_mem_nil _⟩
  · exact ⟨operator _, operator _, operator _, operator _, operator _, operator _, operator _, List.forall_mem_nil _⟩
  · refine ⟨?_, ?_, ?_, ?_, ?_, ?_, ?_, ?_, List.forall_mem_nil _⟩ <;> rintro _ ⟨⟩

end Resolvers

/-- An entry with several types is that of an address. -/
theorem address_of_variants {entry : Entry Instance} (member : entry ∈ entries) {elements : List Element}
    (output : entry.output = .variants elements) :
    ∃ endpoint, elements = endpoint.elements ∧ (entry = packetAddressEntry endpoint ∨ entry = flowAddressEntry endpoint) := by
  have listed : entries.filter (fun entry => (alternatives? entry).isSome) =
      [packetAddressEntry .source, packetAddressEntry .destination, flowAddressEntry .source,
        flowAddressEntry .destination] := rfl
  have inside : entry ∈ entries.filter fun entry => (alternatives? entry).isSome :=
    List.mem_filter.mpr ⟨member, by rw [alternatives?, output]; rfl⟩
  rw [listed] at inside
  simp only [List.mem_cons, List.not_mem_nil, or_false] at inside
  rcases inside with rfl | rfl | rfl | rfl <;> cases output
  · exact ⟨.source, rfl, .inl rfl⟩
  · exact ⟨.destination, rfl, .inl rfl⟩
  · exact ⟨.source, rfl, .inr rfl⟩
  · exact ⟨.destination, rfl, .inr rfl⟩

private def fixedType? (entry : Entry Instance) : Option FieldType :=
  match entry.output with
  | .fixed element => some element.type
  | _ => none

private theorem inFamily_of_fixed {entry : Entry Instance} (member : entry ∈ entries) {element : Element}
    (output : entry.output = .fixed element) (n : Nat) : element.type.inFamily n = element.type := by
  have inside : element.type ∈ entries.filterMap fixedType? :=
    List.mem_filterMap.mpr ⟨entry, member, by rw [fixedType?, output]⟩
  have plain : ∀ type ∈ entries.filterMap fixedType?, type ≠ .ipv4Address ∧ type ≠ .ipv6Address := by decide
  obtain ⟨other, other'⟩ := plain _ inside
  cases same : element.type with
  | ipv4Address => exact absurd same other
  | ipv6Address => exact absurd same other'
  | _ => rfl

private theorem inFamily_of_elements {endpoint : Endpoint} {i n : Nat} {element moved : Element}
    (found : endpoint.elements[i]? = some element) (found' : endpoint.elements[n]? = some moved) :
    moved.type = element.type.inFamily n := by
  cases endpoint <;> rcases i with _ | _ | i <;> rcases n with _ | _ | n <;> cases found <;> cases found' <;> rfl

private theorem inFamily_of_scalar {v : Value} (scalar : v.IsScalar) (n : Nat) : v.naturalType.inFamily n = v.naturalType := by
  cases v with
  | address a => cases scalar
  | _ => rfl

private theorem moves_combined {n : Nat} {name : String} {resolve : List FieldType → Option FieldType}
    (unfamiliar : Unfamiliar resolve) {choice uniform : Choice} {args : List TypeTree}
    (alive : combinedUnder (Typed.resolvedType name resolve) args choice ≠ .dead)
    (each : ∀ arg ∈ args, arg.select choice ≠ .dead → Moves n (arg.select choice) (arg.select uniform)) :
    Moves n (combinedUnder (Typed.resolvedType name resolve) args choice)
      (combinedUnder (Typed.resolvedType name resolve) args uniform) := by
  rw [combinedUnder] at alive ⊢
  split at alive
  next => exact absurd rfl alive
  next living =>
    have leaves : List.Forall₂ (Moves n) (args.map (TypeTree.select choice)) (args.map (TypeTree.select uniform)) := by
      refine List.forall₂_map_left_iff.mpr (List.forall₂_map_right_iff.mpr (List.forall₂_same.mpr fun arg member => ?_))
      refine each arg member fun dead => living ?_
      exact List.any_eq_true.mpr ⟨_, List.mem_map_of_mem member, decide_eq_true dead⟩
    have moved : ¬((args.map (TypeTree.select uniform)).any (· = .dead)) = true := by
      intro dead
      obtain ⟨leaf, member, same⟩ := List.any_eq_true.mp dead
      obtain ⟨leaf', -, moves⟩ := forall₂_mem_right leaves member
      exact moves.ne_dead (of_decide_eq_true same)
    rw [if_neg living, combinedUnder, if_neg moved]
    rw [Typed.resolvedType] at alive ⊢
    split at alive
    next type resolved =>
      rw [Typed.resolvedType, Typed.fieldTypes_moves leaves, unfamiliar n _ _ resolved]
      exact .fixed rfl
    next => exact absurd rfl alive

section Stages

variable {limit : Nat} {fields : List (Field (Typed Instance))}
variable {controls : List (Registered Instance)} {p : Program Instance PacketFilter}

private theorem part_arg {typing : Typing Instance} {args : List (Typed Instance)} {arg : Typed Instance}
    (part : .call typing args ∈ fields.flatMap (·.tree.subtrees)) (member : arg ∈ args) :
    arg ∈ fields.flatMap (·.tree.subtrees) := by
  obtain ⟨field, held, within⟩ := List.mem_flatMap.mp part
  exact List.mem_flatMap.mpr ⟨field, held, Tree.subtrees_trans (Tree.mem_subtrees_arg member) within⟩

variable (layout : Layout catalog limit fields controls p)
include layout

private theorem branchings_part {tree : Typed Instance} (part : tree ∈ fields.flatMap (·.tree.subtrees)) :
    (Typed.type tree).branchings ⊆ p.points := by
  have typed := layout.wellTyped part
  rw [← layout.trees] at part
  obtain ⟨visit, member, rfl⟩ := List.mem_map.mp part
  rw [← layout.typeOf_eq typed (layout.visited.denotes visit member)]
  exact p.branchings_typeOf visit.2

private theorem points_args {typing : Typing Instance} {args : List (Typed Instance)}
    (part : .call typing args ∈ fields.flatMap (·.tree.subtrees)) :
    (args.map Typed.type).flatMap TypeTree.branchings ⊆ p.points := by
  intro point member
  obtain ⟨_, held, inside⟩ := List.mem_flatMap.mp member
  obtain ⟨arg, listed, rfl⟩ := List.mem_map.mp held
  exact branchings_part layout (part_arg part listed) inside

private theorem select_computed {typing : Typing Instance} {args : List (Typed Instance)}
    (part : .call typing args ∈ fields.flatMap (·.tree.subtrees)) {resolve : List FieldType → Option FieldType}
    (computed : typing.binding.chosen.entry.output = .resolved resolve) {choice : Choice} (covers : choice.Covers p.points) :
    typing.type.select choice =
      combinedUnder (Typed.resolvedType typing.binding.chosen.entry.name resolve) (args.map Typed.type) choice := by
  have within := points_args layout part
  cases layout.wellTyped part with
  | call registered key typed each =>
    rw [Typed.callType, computed] at typed
    rw [Typed.combine_eq_ok typed]
    exact TypeTree.select_combined _ (Typed.resolvedType_plain _ resolve) (layout.consistent.mono within) (covers.mono within)

variable {n : Nat} (inside : n < 2) {choice uniform : Choice} (covers : choice.Covers p.points)
variable (same : ∀ source count, (source, count) ∈ p.points → uniform.branch? source = some n)
variable (covers' : uniform.Covers p.points)
include inside covers same covers'

/-- What has a type under some choice has it under one family, but for being an address of this family. -/
theorem moves_part {tree : Typed Instance} (part : tree ∈ fields.flatMap (·.tree.subtrees))
    (alive : (Typed.type tree).select choice ≠ .dead) :
    Moves n ((Typed.type tree).select choice) ((Typed.type tree).select uniform) := by
  induction tree using Tree.induct with
  | raw mark => exact .untyped
  | constant value =>
    cases layout.wellTyped part with
    | constant scalar => exact .fixed (inFamily_of_scalar scalar n).symm
  | call typing args ih =>
    have well := layout.wellTyped part
    have within := branchings_part layout part
    change typing.type.select choice ≠ .dead at alive
    change typing.type.branchings ⊆ p.points at within
    change Moves n (typing.type.select choice) (typing.type.select uniform)
    cases well with
    | call registered key typed each =>
      have listed := Catalog.mem_entries registered
      have computes := @select_computed limit fields controls p layout typing args part
      rw [Typed.callType] at typed
      cases output : typing.binding.chosen.entry.output with
      | untyped =>
        rw [output] at typed
        rw [← Except.ok.inj typed]
        exact .untyped
      | fixed element =>
        rw [output] at typed
        rw [← Except.ok.inj typed]
        exact .fixed (inFamily_of_fixed listed output n).symm
      | variants elements =>
        rw [output] at typed
        rw [← Except.ok.inj typed] at within ⊢
        obtain ⟨branch, -, -, i, found, -, selected⟩ := TypeTree.select_variants (covers.mono within)
        obtain ⟨branch', -, -, i', found', taken, selected'⟩ := TypeTree.select_variants (covers'.mono within)
        obtain rfl : i' = n := Option.some.inj (taken.symm.trans
          (same _ _ (within (TypeTree.mem_branchings_variants.mpr (.inl rfl)))))
        obtain ⟨endpoint, rfl, -⟩ := address_of_variants listed output
        rw [List.getElem?_map] at found found'
        obtain ⟨element, held, rfl⟩ := Option.map_eq_some_iff.mp found
        obtain ⟨element', held', rfl⟩ := Option.map_eq_some_iff.mp found'
        rw [selected, selected']
        exact .fixed (inFamily_of_elements held held')
      | resolved resolve =>
        rw [computes output covers] at alive ⊢
        rw [computes output covers']
        refine moves_combined (unfamiliar_entries _ listed resolve output) alive (List.forall_mem_map.mpr fun arg member => ?_)
        exact ih arg member (part_arg part member)

omit inside covers same covers' in
/-- Every part of a feature has a type under some choice. -/
theorem alive_part {tree : Typed Instance} (part : tree ∈ fields.flatMap (·.tree.subtrees))
    (positive : ∀ point ∈ p.points, 0 < point.2) (covers : uniform.Covers p.points) :
    ∃ choice : Choice, choice.Covers p.points ∧ (Typed.type tree).select choice ≠ .dead := by
  cases tree with
  | raw mark | constant value => exact ⟨uniform, covers, by simp [Typed.type, TypeTree.select]⟩
  | call typing args =>
    change ∃ choice : Choice, choice.Covers p.points ∧ typing.type.select choice ≠ .dead
    have within : typing.type.branchings ⊆ p.points := branchings_part layout part
    cases layout.wellTyped part with
    | call registered key typed each =>
      have computes := @select_computed limit fields controls p layout typing args part
      rw [Typed.callType] at typed
      split at typed
      next =>
        rw [← Except.ok.inj typed]
        exact ⟨uniform, covers, by simp [TypeTree.select]⟩
      next element _ =>
        rw [← Except.ok.inj typed]
        exact ⟨uniform, covers, by simp [TypeTree.select]⟩
      next elements output =>
        rw [← Except.ok.inj typed] at within ⊢
        obtain ⟨branch, member, -, -, -, -, selected⟩ := TypeTree.select_variants (covers.mono within)
        obtain ⟨element, -, rfl⟩ := List.mem_map.mp member
        refine ⟨uniform, covers, ?_⟩
        rw [selected]
        simp [TypeTree.select]
      next resolve output =>
        have below := points_args layout part
        obtain ⟨choice, taken, alive⟩ := Typed.alive_of_combine (Typed.resolvedType_plain _ resolve)
          (layout.consistent.mono below) typed
        obtain ⟨completed, covering, alike⟩ := taken.extend below layout.consistent positive
        refine ⟨completed, covering, ?_⟩
        rwa [computes output covering, TypeTree.combinedUnder_congr _ _ alike]

omit inside same covers' in
private theorem ne_untyped {typing : Typing Instance} {args : List (Typed Instance)}
    (part : .call typing args ∈ fields.flatMap (·.tree.subtrees)) (output : typing.binding.chosen.entry.output ≠ .untyped) :
    typing.type.select choice ≠ .untyped := by
  have within : typing.type.branchings ⊆ p.points := branchings_part layout part
  cases layout.wellTyped part with
  | call registered key typed each =>
    have computes := @select_computed limit fields controls p layout typing args part
    rw [Typed.callType] at typed
    split at typed
    next none => exact absurd none output
    next element _ =>
      rw [← Except.ok.inj typed]
      simp [TypeTree.select]
    next elements _ =>
      rw [← Except.ok.inj typed] at within ⊢
      obtain ⟨branch, member, -, -, -, -, selected⟩ := TypeTree.select_variants (covers.mono within)
      obtain ⟨element, -, rfl⟩ := List.mem_map.mp member
      rw [selected]
      simp [TypeTree.select]
    next resolve computed =>
      rw [computes computed covers, combinedUnder]
      split
      · simp
      · rw [Typed.resolvedType]
        split <;> simp

end Stages

private theorem untyped_cases : ∀ entry ∈ entries, entry.output = .untyped →
    entry.result = .selection ∨ entry.result = .control ∨ entry.build = none := by
  have listed : (entries.all fun entry =>
      match entry.output with
      | .untyped => entry.result == .selection || entry.result == .control || entry.build.isNone
      | _ => true) = true := by decide
  intro entry member output
  have held := List.all_eq_true.mp listed entry member
  rw [output] at held
  simpa [or_assoc] using held

section Templates

variable {limit : Nat} {s : Specification} {p : Program Instance PacketFilter}
variable (stages : Specification.Stages catalog limit s p)
variable (layout : Layout catalog limit stages.typed stages.controls p)
include layout

theorem positive_points : ∀ point ∈ p.points, 0 < point.2 := by
  intro point member
  rw [count_of_point stages layout member]
  exact Nat.zero_lt_two

variable {n : Nat} (inside : n < 2) {uniform : Choice}
variable (same : ∀ source count, (source, count) ∈ p.points → uniform.branch? source = some n)
include inside same

private theorem fixed_field {field : Field (Typed Instance)} (member : field ∈ stages.typed) :
    ∃ element, (Typed.type field.tree).select uniform = .fixed element := by
  have covers : uniform.Covers p.points := fun source count point =>
    ⟨n, count_of_point stages layout point ▸ inside, same source count point⟩
  have part : field.tree ∈ stages.typed.flatMap (·.tree.subtrees) :=
    List.mem_flatMap.mpr ⟨field, member, Tree.mem_subtrees_self _⟩
  obtain ⟨choice, covering, alive⟩ := alive_part layout part (positive_points stages layout) covers
  have moves := moves_part layout inside covering same covers part alive
  have typed : (Typed.type field.tree).select choice ≠ .untyped := by
    obtain ⟨json, -, e, bound, resolved⟩ := forall₂_mem_right (resolved_of_stages stages) member
    have erased := resolved.erased
    have built := settled_built (by decide) resolved.takes
    obtain ⟨regular, suits⟩ := resolved.regular
    rw [← erased] at built regular suits
    generalize field.tree = tree at part built regular suits
    cases tree with
    | raw mark => exact suits.elim
    | constant value => exact nofun
    | call typing args =>
      rw [Typed.erase_call] at built regular suits
      refine ne_untyped layout covering part fun output => ?_
      have listed : typing.binding.chosen.entry ∈ entries := by
        cases layout.wellTyped part with
        | call registered key typed each => exact Catalog.mem_entries registered
      have known := untyped_cases _ listed output
      cases regular with
      | own each fixed working kind =>
        rw [kind, show typing.binding.kind = .flowFeature from suits] at known
        rcases known with selection | control | missing
        · cases selection
        · cases control
        · exact built.head missing
      | taken each taken suits =>
        rw [taken] at known
        rcases known with selection | control | missing
        · cases selection
        · cases control
        · exact built.head missing
  cases moved : (Typed.type field.tree).select uniform with
  | fixed element => exact ⟨element, rfl⟩
  | untyped | dead | variants source branches =>
    rw [moved] at moves
    generalize (Typed.type field.tree).select choice = leaf at moves typed
    cases moves <;> exact absurd rfl typed

omit same in
/-- Where all sources choose the same family there is a template. -/
theorem select_of_family : ∃ template, p.template.select (fun _ => n) = some template := by
  have selected := layout.select_template (fun _ => n) fun source count point =>
    count_of_point stages layout point ▸ inside
  have picks : ∀ source count, (source, count) ∈ p.points →
      (TemplateTree.chosen layout.whole.registerOf (fun _ => n) p.points).branch? source = some n :=
    fun source count point => TemplateTree.chosen_branch? point
  have each : ∀ slot ∈ layout.whole.exports.map layout.whole.slot, ∃ element,
      slot.element? (slot.type.select (TemplateTree.chosen layout.whole.registerOf (fun _ => n) p.points)) = some element := by
    refine List.forall_mem_map.mpr fun e member => ?_
    obtain ⟨field, -, held, node, -, made, slotted⟩ := forall₂_mem_left layout.slots member
    obtain ⟨own, fixed⟩ := fixed_field stages layout inside picks held
    rw [slotted, made.type_eq, fixed, TemplateTree.Slot.element?]
    dsimp only
    split <;> exact ⟨_, rfl⟩
  obtain ⟨elements, listed⟩ := exists_mapM each
  rw [TemplateTree.template?, listed] at selected
  obtain ⟨template, found, -⟩ := Option.map_eq_some_iff.mp selected
  exact ⟨template, found⟩

omit inside same in
/-- The type of a register does not branch if its entry has a type of its own. -/
theorem unbranched_of_fixed {r : Nat} {node : Node Instance} {chosen : Registered Instance} {element : Element}
    (found : p.nodes[r]? = some node) (entered : node.entry = some chosen) (output : chosen.entry.output = .fixed element) :
    node.type.branchings = [] := by
  rcases layout.node_cases found with ⟨position, control, -, rfl⟩ | ⟨tree, part, -, made⟩
  · rfl
  · cases tree with
    | raw mark => cases made
    | constant value =>
      cases made with
      | constant plain type known args entry key => cases entry.symm.trans entered
    | call typing args =>
      have typed := layout.callType_eq part made
      cases made with
      | call plain type varies entry key each =>
        obtain rfl := Option.some.inj (entry.symm.trans entered)
        rw [Typed.callType, output] at typed
        rw [← Except.ok.inj typed]
        rfl

omit inside same in
/-- There is a template whatever the variants are if no type of what is exported branches. -/
theorem select_of_unbranched (unbranched : ∀ r ∈ p.exports, ∀ node, p.nodes[r]? = some node → node.type.branchings = [])
    (variant : Nat → Nat) : ∃ template, p.template.select variant = some template := by
  have nothing (r : Nat) : r ∉ p.template.branchings := by
    intro member
    obtain ⟨source, count, point, -⟩ := TemplateTree.registers_ofSlots layout.template (TemplateTree.mem_registers.mpr member)
    obtain ⟨slot, held, point⟩ := List.mem_flatMap.mp point
    obtain ⟨e, listed, rfl⟩ := List.mem_map.mp held
    obtain ⟨field, -, -, node, found, -, slotted⟩ := forall₂_mem_left layout.slots listed
    have exported : e.register ∈ p.exports := layout.exports ▸ List.mem_map_of_mem listed
    rw [slotted, unbranched _ exported node found] at point
    cases point
  obtain ⟨template, selected⟩ := select_of_family stages layout Nat.zero_lt_two
  exact ⟨template, (TemplateTree.select_congr fun r member => absurd member (nothing r)).trans selected⟩

end Templates

end Library

end FlowMetering
