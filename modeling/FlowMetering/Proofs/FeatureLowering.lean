import FlowMetering.Proofs.BoundFeatures
import FlowMetering.Proofs.TreeEvaluation
import FlowMetering.Proofs.TypeResolution

/-! Features whose operators have something to wait for are lowered to what they say. Typing takes no operator for a
selection, and a selection that typing never sees stands in front of what reads no packets. -/

namespace FlowMetering

namespace Tree

variable {ρ ι ρ' ι' : Type} {onValue : Value → Prop} {onHead : ι → Prop}

private theorem All.of_fedBy {input tree : Tree ρ ι} (all : All onValue onHead (fedBy input tree)) : All onValue onHead tree := by
  induction tree using Tree.induct with
  | raw mark => exact .raw mark
  | constant value => exact all
  | call head args ih =>
    rw [fedBy_call] at all
    exact .call all.head fun arg member => ih arg member (all.arg (List.mem_map_of_mem member))

private theorem All.input_of_fedBy {input tree : Tree ρ ι} (all : All onValue onHead (fedBy input tree)) {mark : ρ}
    (reads : .raw mark ∈ tree.subtrees) : All onValue onHead input := by
  induction tree using Tree.induct with
  | raw mark => exact all
  | constant value => cases List.mem_singleton.mp reads
  | call head args ih =>
    rw [fedBy_call] at all
    rcases mem_subtrees_call.mp reads with ⟨arg, member, inside⟩ | same
    · exact ih arg member (all.arg (List.mem_map_of_mem member)) inside
    · cases same

theorem map_fedBy (f : ρ → ρ') (g : ι → ι') (input tree : Tree ρ ι) :
    map f g (fedBy input tree) = fedBy (map f g input) (map f g tree) := by
  induction tree using Tree.induct with
  | raw mark => rfl
  | constant value => rfl
  | call head args ih =>
    rw [fedBy_call, map_call, map_call, fedBy_call, List.map_map, List.map_map]
    exact congrArg _ (List.map_congr_left ih)

theorem fedBy_eq_self {input tree : Tree ρ ι} (grounded : ∀ mark, .raw mark ∉ tree.subtrees) : fedBy input tree = tree := by
  induction tree using Tree.induct with
  | raw mark => exact absurd (mem_subtrees_self _) (grounded mark)
  | constant value => rfl
  | call head args ih =>
    have same : ∀ arg ∈ args, fedBy input arg = arg := fun arg member =>
      ih arg member fun mark inside => grounded mark (mem_subtrees_call.mpr (.inl ⟨arg, member, inside⟩))
    rw [fedBy_call, List.map_congr_left same, List.map_id']

end Tree

namespace TypeTree

/-- Nothing can be computed from arguments without a type. -/
theorem combine_untyped {limit : Nat} {eval : List TypeTree → TypeTree} {arguments : List TypeTree}
    (untyped : ∀ argument ∈ arguments, argument = .untyped) (dead : eval arguments = .dead) (type : TypeTree) :
    combine limit eval arguments ≠ .ok type := by
  have sourceless : sources arguments = [] := by
    rw [sources_eq_foldl, List.flatMap_eq_nil_iff.mpr fun argument member => by rw [untyped argument member]; rfl]
    rfl
  have selected (choice : Choice) : arguments.map (select choice) = arguments := by
    refine (List.map_congr_left fun argument member => ?_).trans (List.map_id _)
    rw [untyped argument member]
    rfl
  intro combined
  rw [combine, sourceless] at combined
  simp only [enumerate, selected, dead, ite_self] at combined
  split at combined <;> cases combined

end TypeTree

theorem Typed.ofBounds_eq_mapM {σ : Type} (limit : Nat) (args : List (Bound σ)) :
    ofBounds limit args = args.mapM (ofBound limit) := by
  induction args with
  | nil => rfl
  | cons arg args ih => rw [ofBounds, List.mapM_cons, ih]

theorem Typed.ofBounds_eq_ok {σ : Type} {limit : Nat} {args : List (Bound σ)} {types : List (Typed σ)} :
    ofBounds limit args = .ok types ↔ List.Forall₂ (fun arg t => ofBound limit arg = .ok t) args types := by
  rw [ofBounds_eq_mapM]
  exact mapM_eq_ok

namespace Library

open Allocation (Regular Suits)

def Sound (binding : Binding Instance) : Prop :=
  ¬(binding.chosen.entry.result = .matchType ∧ binding.kind = .selection)

/-- A call of an operator has an argument that does not amount to a constant. -/
def Varies : Expression → Prop
  | .call name args => (operator? name).isSome → ∃ arg ∈ args, (Meaning.ofExpression arg).constant = none
  | .raw _ | .constant _ => True

instance : DecidablePred Varies
  | .call name args =>
    inferInstanceAs (Decidable ((operator? name).isSome → ∃ arg ∈ args, (Meaning.ofExpression arg).constant = none))
  | .raw _ | .constant _ => inferInstanceAs (Decidable True)

/-- No operator in an expression has constants only. -/
def Free (e : Expression) : Prop :=
  ∀ part ∈ e.subtrees, Varies part

instance : DecidablePred Free := fun e => inferInstanceAs (Decidable (∀ part ∈ e.subtrees, Varies part))

private theorem Free.arg {name : String} {args : List Expression} (free : Free (.call name args)) {arg : Expression}
    (member : arg ∈ args) : Free arg := fun part inside =>
  free part (Tree.mem_subtrees_call.mpr (.inl ⟨arg, member, inside⟩))

private theorem operator?_name (op : Operator) : operator? op.name = some op := by
  cases op <;> rfl

private theorem takes_constant {e : Expression} (written : e.Written) (free : Free e) {bound : Bound Instance}
    (takes : Takes .constant e bound) : ∃ value, e = .constant value ∧ bound = .constant value := by
  induction e using Tree.induct generalizing bound with
  | raw mark => cases written
  | constant value => exact ⟨value, rfl, (takes_constant_iff.mp takes).2⟩
  | call name args ih =>
    obtain ⟨candidate, bounds, rfl, binds⟩ := takes_call takes
    obtain ⟨op, same⟩ := binds.exists_operator rfl
    obtain ⟨several, each⟩ := binds.each same
    have named : operator? name = some op := by
      rw [← binds.name, same]
      exact operator?_name op
    obtain ⟨arg, member, unknown⟩ := free _ (Tree.mem_subtrees_self _) (Option.isSome_of_eq_some named)
    obtain ⟨bound, -, held⟩ := forall₂_mem_left each member
    rcases written.args with rfl | written
    · exact absurd several (by decide)
    · obtain ⟨value, rfl, -⟩ := ih arg member (written arg member) (free.arg member) held
      cases unknown

private theorem Lowers.fedBy {role : Role} {e : Expression} {input tree : Plain} (lowers : Lowers role e input tree)
    {selection : Plain} (unknown : constant? selection = none) :
    Lowers role e (Tree.fedBy selection input) (Tree.fedBy selection tree) := by
  induction lowers with
  | constant other => exact .constant other
  | packetSource found built reads own =>
    rw [Tree.fedBy_call]
    exact .packetSource found built reads own
  | flowSource found built sums own =>
    rw [Tree.fedBy_call]
    exact .flowSource found built sums own
  | aggregate found built collects lowers own ih =>
    rw [Tree.fedBy_call]
    exact .aggregate found built collects ih own
  | operator other built count lowers varies result kind ih =>
    rw [Tree.fedBy_call]
    refine .operator other built (count.trans (List.length_map _).symm) (fun pair paired => ?_) ?_ result kind
    · rw [List.zip_map_right] at paired
      obtain ⟨⟨arg, tree⟩, member, rfl⟩ := List.mem_map.mp paired
      exact ih _ member
    · obtain ⟨tree, member, varying⟩ := varies
      refine ⟨_, List.mem_map_of_mem member, ?_⟩
      cases tree with
      | raw mark => exact unknown
      | constant value => cases varying
      | call head args => rfl
  | map selects lowers ihs ih => exact .map ihs ih
  | mapConstant lowers ih => exact .mapConstant lowers
  | apply selects lowers ihs ih => exact .apply ihs ih
  | applyGrounded grounded lowers ih =>
    rw [Tree.fedBy_eq_self grounded]
    exact .applyGrounded grounded lowers
  | direction built own =>
    rw [Tree.fedBy_call]
    exact .direction built own
  | select built lowers own ih =>
    rw [Tree.fedBy_call]
    exact .select built ih own
  | sliceFrom built own =>
    rw [Tree.fedBy_call]
    exact .sliceFrom built own
  | sliceBetween built own =>
    rw [Tree.fedBy_call]
    exact .sliceBetween built own

private theorem Stock.untyped_of_selection {entry : Entry Instance} (stock : Stock entry) (selects : entry.result = .selection) :
    entry.output = .untyped := by
  cases stock with
  | packetSource found result => cases result.symm.trans selects
  | flowSource found result => cases result.symm.trans selects
  | aggregate found result => cases result.symm.trans selects
  | operator op => cases selects
  | _ => rfl

private theorem resolvedType_untyped (op : Operator) {types : List TypeTree} (untyped : ∀ type ∈ types, type = .untyped) :
    Typed.resolvedType op.name op.resolve types = .dead := by
  have nothing : Typed.fieldTypes types = [] := by
    rw [Typed.fieldTypes, List.filterMap_eq_nil_iff]
    intro type member
    rw [untyped type member]
  rw [Typed.resolvedType, nothing]
  cases op <;> rfl

/-- Typing sees no operator that is used as a selection, for selections have no type. -/
theorem settled_sound {limit : Nat} {tree : Bound Instance} (drawn : Bound.Over catalog tree) (regular : Regular tree)
    {typed : Typed Instance} (resolved : Typed.ofBound limit tree = .ok typed) :
    tree.All (fun _ => True) Sound ∧ (Suits .selection tree → typed.type = .untyped) := by
  induction tree using Tree.induct generalizing typed with
  | raw mark => exact ⟨.raw mark, False.elim⟩
  | constant value => exact ⟨.constant trivial, fun accepts => nomatch accepts⟩
  | call binding args ih =>
    have stock := stock_of_over drawn
    rw [Typed.ofBound] at resolved
    obtain ⟨types, each, resolved⟩ := bind_eq_ok.mp resolved
    have each := Typed.ofBounds_eq_ok.mp each
    dsimp only at resolved
    split at resolved
    next type called =>
      cases resolved
      have sound : Sound binding := by
        rintro ⟨taken, kind⟩
        obtain ⟨op, same⟩ := stock.operator_of_taken taken
        have untyped : ∀ type ∈ types.map Typed.type, type = .untyped := by
          refine List.forall_mem_map.mpr fun t member => ?_
          obtain ⟨arg, inside, done⟩ := forall₂_mem_right each member
          cases regular with
          | own each fixed working kind' => exact absurd taken fixed
          | taken regulars taken suits =>
            exact (ih arg inside (drawn.arg inside) (regulars arg inside) done).2 (kind ▸ suits arg inside)
        rw [Typed.callType, same] at called
        exact TypeTree.combine_untyped untyped (resolvedType_untyped op untyped) type called
      refine ⟨.call sound fun arg member => ?_, fun kind => ?_⟩
      · obtain ⟨t, -, done⟩ := forall₂_mem_left each member
        exact (ih arg member (drawn.arg member) (regular.arg member) done).1
      · cases regular with
        | own regulars fixed working kind' =>
          rw [Typed.callType, stock.untyped_of_selection (kind'.trans kind)] at called
          cases called
          rfl
        | taken regulars taken suits => exact absurd ⟨taken, kind⟩ sound
    next => cases resolved

private theorem takes_raw_arg {name : String} {arg : Expression} (written : Expression.Written (.call name [arg])) {kind : Kind}
    (raw : kind.isRaw = true) {bound : Bound Instance} (takes : Takes kind arg bound) :
    arg = .raw () ∧ bound = .raw kind := by
  rcases written.args with same | each
  · obtain rfl := List.singleton_injective same
    exact ⟨rfl, (takes_raw takes).2⟩
  · exact absurd takes (not_takes_raw (each arg (List.mem_singleton_self _)) raw bound)

private theorem written_arg {name : String} {arg : Expression} (written : Expression.Written (.call name [arg])) {kind : Kind}
    {bound : Bound Instance} (takes : Takes kind arg bound) (other : kind.isRaw ≠ true) : arg.Written := by
  rcases written.args with same | each
  · obtain rfl := List.singleton_injective same
    exact absurd (takes_raw takes).1 other
  · exact each arg (List.mem_singleton_self _)

theorem Role.eq_of_kind {role role' : Role} (same : role.kind = role'.kind) : role = role' := by
  cases role <;> cases role' <;> first | rfl | cases same

private theorem plain_settled {binding : Binding Instance} {build : Kind → Instance}
    (built : binding.chosen.entry.build = some build) (bounds : List (Bound Instance)) :
    plain (Bound.settled (.call binding bounds)) = .call binding (bounds.map (fun bound => plain (Bound.settled bound)) ++
      if binding.chosen.entry.implicitInput then [.raw ()] else []) := by
  rw [Bound.settled_call built, plain, Tree.map_call, List.map_append, List.map_map]
  congr 2
  split <;> rfl

private theorem instance?_eq {candidate : Registered Instance} {kind : Kind} {build : Kind → Instance}
    (built : candidate.entry.build = some build) : instance? ⟨candidate, kind⟩ = some (build kind) :=
  congrArg (Option.map fun build : Kind → Instance => build kind) built

private theorem plain_substituted {binding : Binding Instance} (missing : binding.chosen.entry.build = none)
    (explicit : binding.chosen.entry.implicitInput = false) {feature : Expression} (written : feature.Written)
    {kind : Kind} {bound : Bound Instance} (working : kind ≠ .control) (takes : Takes kind feature bound) (bound' : Bound Instance) : plain (Bound.settled (.call binding [bound, bound'])) =
      Tree.fedBy (plain bound'.settled) (plain bound.settled) := by
  rw [Bound.settled_substitution missing explicit, Tree.withInput_eq_fedBy, plain, Tree.map_fedBy]
  · rfl
  · intro mark raw
    have suits := (settled_regular written working takes).2
    rw [raw] at suits
    exact suits

private theorem Lowers.not_constant {e : Expression} {input tree : Plain} (lowers : Lowers .selection e input tree) :
    constant? tree = none := by
  cases lowers with
  | constant other => exact absurd rfl other
  | operator other => exact absurd rfl other
  | _ => rfl

private theorem Lowers.substituted {role : Role} {feature selection : Expression} {tree between : Plain}
    (lowers : Lowers role feature (.raw ()) tree)
    (selects : between.All (fun _ => True) Sound → Lowers .selection selection (.raw ()) between)
    (sound : (Tree.fedBy between tree).All (fun _ => True) Sound) :
    Grounded tree ∨ Lowers .selection selection (.raw ()) between ∧ Lowers role feature between (Tree.fedBy between tree) := by
  by_cases grounded : Grounded tree
  · exact .inl grounded
  · rw [Grounded, not_forall] at grounded
    obtain ⟨mark, reads⟩ := grounded
    have held := selects (sound.input_of_fedBy (not_not.mp reads))
    exact .inr ⟨held, lowers.fedBy held.not_constant⟩

/-- A written feature whose operators have something to wait for is lowered to what it says. -/
theorem lowers_settled {e : Expression} (written : e.Written) (free : Free e) (role : Role) {bound : Bound Instance}
    (takes : Takes role.kind e bound) (sound : (plain bound.settled).All (fun _ => True) Sound) :
    Lowers role e (.raw ()) (plain bound.settled) := by
  induction e using Tree.induct generalizing role bound with
  | raw mark => cases written
  | constant value =>
    obtain ⟨accepts, rfl⟩ := takes_constant_iff.mp takes
    refine .constant ?_
    rintro rfl
    cases accepts
  | call name args ih =>
    obtain ⟨⟨id, entry⟩, bounds, rfl, binds⟩ := takes_call takes
    have stock : Stock entry := binds.stock
    obtain rfl : entry.name = name := binds.name
    cases stock with
    | packetSource found result arguments build reads explicit =>
      have own : entry.result = role.kind := binds.own (by rw [result]; exact nofun)
      obtain rfl : role = .packet := Role.eq_of_kind (own.symm.trans result)
      obtain ⟨arg, bound, rfl, rfl, held⟩ := binds.one arguments nofun nofun
      obtain ⟨rfl, rfl⟩ := takes_raw_arg written rfl held
      rw [plain_settled build, explicit]
      exact .packetSource found (instance?_eq build) reads ⟨own, rfl⟩
    | flowSource found result arguments build sums explicit =>
      have own : entry.result = role.kind := binds.own (by rw [result]; exact nofun)
      obtain rfl : role = .flow := Role.eq_of_kind (own.symm.trans result)
      obtain ⟨arg, bound, rfl, rfl, held⟩ := binds.one arguments nofun nofun
      obtain ⟨rfl, rfl⟩ := takes_raw_arg written rfl held
      rw [plain_settled build, explicit]
      exact .flowSource found (instance?_eq build) sums ⟨own, rfl⟩
    | aggregate found result arguments build collects explicit =>
      have own : entry.result = role.kind := binds.own (by rw [result]; exact nofun)
      obtain rfl : role = .flow := Role.eq_of_kind (own.symm.trans result)
      obtain ⟨arg, bound, rfl, rfl, held⟩ := binds.one arguments nofun nofun
      have inner := written_arg written held nofun
      rw [plain_settled build, explicit] at sound ⊢
      exact .aggregate found (instance?_eq build) collects
        (ih arg (by simp) inner (free.arg (by simp)) .packet held (sound.arg (by simp))) ⟨own, rfl⟩
    | operator op =>
      obtain ⟨several, each⟩ := binds.each rfl
      have written := written.args.resolve_left fun same => absurd (same ▸ several) (by decide)
      rw [plain_settled rfl] at sound ⊢
      change Tree.All _ _ (.call _ (bounds.map _ ++ [])) at sound
      change Lowers role _ _ (.call _ (bounds.map _ ++ []))
      rw [List.append_nil] at sound ⊢
      have lowers : ∀ pair ∈ args.zip (bounds.map fun bound => plain (Bound.settled bound)),
          Lowers role pair.1 (.raw ()) pair.2 := by
        intro pair paired
        rw [List.zip_map_right] at paired
        obtain ⟨⟨arg, bound⟩, member, rfl⟩ := List.mem_map.mp paired
        have inside := (List.of_mem_zip member).1
        exact ih arg inside (written arg inside) (free.arg inside) role ((List.forall₂_iff_zip.mp each).2 member)
          (sound.arg (List.mem_map_of_mem (List.of_mem_zip member).2))
      have count : args.length = (bounds.map fun bound => plain (Bound.settled bound)).length :=
        each.length_eq.trans (List.length_map _).symm
      refine .operator (fun selects => sound.head ⟨rfl, congrArg Role.kind selects⟩) rfl count lowers ?_ rfl rfl
      obtain ⟨arg, member, unknown⟩ := free _ (Tree.mem_subtrees_self _) (Option.isSome_of_eq_some (operator?_name op))
      obtain ⟨tree, paired⟩ := exists_zip_right count member
      exact ⟨tree, (List.of_mem_zip paired).2, (lowers _ paired).constant?_eq.trans unknown⟩
    | direction forward =>
      obtain rfl : role = .selection := Role.eq_of_kind (binds.own nofun).symm
      obtain ⟨arg, bound, rfl, rfl, held⟩ := binds.one rfl nofun nofun
      obtain ⟨rfl, rfl⟩ := takes_raw_arg written rfl held
      exact .direction rfl ⟨rfl, rfl⟩
    | select =>
      obtain rfl : role = .selection := Role.eq_of_kind (binds.own nofun).symm
      obtain ⟨arg, bound, rfl, rfl, held⟩ := binds.one rfl nofun nofun
      have inner := written_arg written held nofun
      rw [plain_settled rfl] at sound ⊢
      exact .select rfl (ih arg (by simp) inner (free.arg (by simp)) .packet held (sound.arg (by simp))) ⟨rfl, rfl⟩
    | sliceFrom =>
      obtain rfl : role = .selection := Role.eq_of_kind (binds.own nofun).symm
      obtain ⟨arg, bound, rfl, rfl, held⟩ := binds.one rfl nofun nofun
      obtain ⟨start, rfl, rfl⟩ := takes_constant (written_arg written held nofun) (free.arg (by simp)) held
      exact .sliceFrom rfl ⟨rfl, rfl⟩
    | sliceBetween =>
      obtain rfl : role = .selection := Role.eq_of_kind (binds.own nofun).symm
      obtain ⟨arg, arg', bound, bound', rfl, rfl, held, held'⟩ := binds.two rfl nofun nofun nofun
      have written := written.args.resolve_left fun same => nomatch congrArg List.length same
      obtain ⟨start, rfl, rfl⟩ := takes_constant (written arg (by simp)) (free.arg (by simp)) held
      obtain ⟨stop, rfl, rfl⟩ := takes_constant (written arg' (by simp)) (free.arg (by simp)) held'
      exact .sliceBetween rfl ⟨rfl, rfl⟩
    | apply =>
      obtain rfl : role = .flow := Role.eq_of_kind (binds.own nofun).symm
      obtain ⟨feature, selection, bound, bound', rfl, rfl, held, held'⟩ := binds.two rfl nofun nofun nofun
      have written := written.args.resolve_left fun same => nomatch congrArg List.length same
      rw [plain_substituted rfl rfl (written feature (by simp)) (by decide) held] at sound ⊢
      have lowers := ih feature (by simp) (written feature (by simp)) (free.arg (by simp)) .flow held sound.of_fedBy
      rcases lowers.substituted (fun sound => ih selection (by simp) (written selection (by simp)) (free.arg (by simp))
        .selection held' sound) sound with grounded | ⟨selects, fed⟩
      · rw [Tree.fedBy_eq_self grounded]
        exact .applyGrounded grounded lowers
      · exact .apply selects fed
    | map =>
      obtain rfl : role = .packet := Role.eq_of_kind (binds.own nofun).symm
      obtain ⟨feature, selection, bound, bound', rfl, rfl, held, held'⟩ := binds.two rfl nofun nofun nofun
      have written := written.args.resolve_left fun same => nomatch congrArg List.length same
      rw [plain_substituted rfl rfl (written feature (by simp)) (by decide) held] at sound ⊢
      have lowers := ih feature (by simp) (written feature (by simp)) (free.arg (by simp)) .packet held sound.of_fedBy
      rcases lowers.substituted (fun sound => ih selection (by simp) (written selection (by simp)) (free.arg (by simp))
        .selection held' sound) sound with grounded | ⟨selects, fed⟩
      · rw [Tree.fedBy_eq_self grounded]
        obtain ⟨value, known⟩ := Option.ne_none_iff_exists'.mp
          (lowers.grounded_constant (fun reads => reads () (Tree.mem_subtrees_self _)) rfl grounded)
        rw [constant_of_constant? known] at lowers ⊢
        exact .mapConstant lowers
      · exact .map selects fed
    | control name initial =>
      have own : Kind.control = role.kind := binds.own nofun
      cases role <;> cases own

end Library

end FlowMetering
