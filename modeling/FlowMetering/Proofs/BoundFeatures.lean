import FlowMetering.Proofs.AllocatedTrees
import FlowMetering.Proofs.StockFeatures
import FlowMetering.Proofs.UnfoldedExpressions

/-! Binding over the built-in catalog. A call is bound to an entry of its name that takes its arguments, and what comes
out of lowering is regular: operators stand where other calls of the same kind may stand. -/

namespace FlowMetering

/-- What is known of an entry that may give a kind from so many arguments. -/
theorem Catalog.mem_find {σ φ : Type} {catalog : Catalog σ φ} {name : String} {kind : Kind} {count : Nat}
    {candidate : Registered σ} (member : candidate ∈ catalog.find name kind count) :
    candidate.entry ∈ catalog.entries ∧ candidate.entry.name = name ∧
      (∃ kinds, candidate.entry.argumentKinds count = some kinds) ∧
      (candidate.entry.result = kind ∨ candidate.entry.result = .matchType ∧ kind ≠ .matchType ∧ kind ≠ .control) := by
  simp only [find, List.mem_append, List.mem_filter, Bool.and_eq_true, beq_iff_eq, bne_iff_ne,
    Option.isSome_iff_exists] at member
  rcases member with ((⟨⟨⟨held, name, kinds⟩, result⟩, _⟩ | ⟨⟨⟨held, name, kinds⟩, result⟩, _⟩) |
    (⟨⟨⟨held, name, kinds⟩, result⟩, _⟩ | ⟨⟨⟨held, name, kinds⟩, result⟩, _⟩))
  · exact ⟨mem_entries held, name, kinds, .inl result⟩
  · exact ⟨mem_entries held, name, kinds, .inl result⟩
  · exact ⟨mem_entries held, name, kinds, .inr ⟨result.1.1, result.1.2, result.2⟩⟩
  · exact ⟨mem_entries held, name, kinds, .inr ⟨result.1.1, result.1.2, result.2⟩⟩

theorem Entry.argumentKinds_subset {σ : Type} {entry : Entry σ} {count : Nat} {kinds : List Kind}
    (found : entry.argumentKinds count = some kinds) : kinds ⊆ entry.arguments := by
  rw [argumentKinds] at found
  split at found
  · dsimp only at found
    split at found
    next repeated last =>
      split at found
      · cases found
      · cases found
        intro kind member
        rcases List.mem_append.mp member with member | member
        · exact List.dropLast_subset _ member
        · rw [List.eq_of_mem_replicate member]
          exact List.dropLast_subset _ (List.mem_of_getLast? last)
    next => cases found
  · split at found
    · cases found
      exact fun _ member => member
    · cases found

theorem Entry.argumentKinds_fixed {σ : Type} {entry : Entry σ} (fixed : entry.isVariadic = false) {count : Nat}
    {kinds : List Kind} (found : entry.argumentKinds count = some kinds) :
    entry.arguments.length = count ∧ kinds = entry.arguments := by
  rw [argumentKinds, fixed, if_neg Bool.false_ne_true] at found
  split at found
  next same => exact ⟨same, (Option.some.inj found).symm⟩
  next => cases found

namespace Bound

variable {σ : Type}

/-- An expression as the typing stage gets it. -/
def settled (tree : Bound σ) : Bound σ :=
  tree.withImplicitInputs.lower

theorem settled_call {binding : Binding σ} {build : Kind → σ} (built : binding.chosen.entry.build = some build)
    (args : List (Bound σ)) : settled (.call binding args) =
      .call binding (args.map settled ++ if binding.chosen.entry.implicitInput then [.raw .rawPacket] else []) := by
  rw [settled, withImplicitInputs, allWithImplicitInputs_eq_map, lower]
  split
  next missing _ =>
    rw [built] at missing
    cases missing
  next =>
    rw [lowerAll_eq_map]
    refine congrArg (Tree.call binding) ?_
    split
    · rw [List.map_append, List.map_map]
      rfl
    · rw [List.append_nil, List.map_map]
      rfl

theorem settled_substitution {binding : Binding σ} (missing : binding.chosen.entry.build = none)
    (explicit : binding.chosen.entry.implicitInput = false) (feature selection : Bound σ) :
    settled (.call binding [feature, selection]) = (settled feature).withInput (settled selection) := by
  rw [settled, withImplicitInputs, explicit, if_neg Bool.false_ne_true, lower, missing]
  rfl

end Bound

namespace Allocation

variable {σ : Type}

theorem Suits.fedBy {kind : Kind} {tree : Bound σ} (suits : Suits kind tree) (input : Bound σ) :
    Suits kind (Tree.fedBy input tree) := by
  cases tree with
  | raw mark => exact suits.elim
  | constant value => exact suits
  | call head args => rwa [Tree.fedBy_call]

private theorem Regular.fedBy {tree input : Bound σ} (regular : Regular tree) (regular' : Regular input) :
    Regular (Tree.fedBy input tree) := by
  induction regular with
  | raw mark => exact regular'
  | constant value => exact .constant value
  | own each fixed working kind ih =>
    rw [Tree.fedBy_call]
    exact .own (List.forall_mem_map.mpr ih) fixed working kind
  | taken each taken suits ih =>
    rw [Tree.fedBy_call]
    exact .taken (List.forall_mem_map.mpr ih) taken
      (List.forall_mem_map.mpr fun arg member => (suits arg member).fedBy input)

end Allocation

namespace Library

open Allocation (Regular Suits)

namespace Stock

variable {entry : Entry Instance}

/-- An entry is built, or it puts a selection in the place of raw inputs. -/
theorem build_cases (stock : Stock entry) : (∃ build, entry.build = some build) ∨
    ∃ name kind, entry = substitutionEntry name kind ∧ (kind = .flowFeature ∨ kind = .packetFeature) := by
  cases stock with
  | packetSource found result arguments build reads explicit => exact .inl ⟨_, build⟩
  | flowSource found result arguments build sums explicit => exact .inl ⟨_, build⟩
  | aggregate found result arguments build collects explicit => exact .inl ⟨_, build⟩
  | apply => exact .inr ⟨_, _, rfl, .inl rfl⟩
  | map => exact .inr ⟨_, _, rfl, .inr rfl⟩
  | _ => exact .inl ⟨_, rfl⟩

private theorem isResult (stock : Stock entry) : entry.result.isResult = true := by
  cases stock with
  | packetSource found result => rw [result]; rfl
  | flowSource found result => rw [result]; rfl
  | aggregate found result => rw [result]; rfl
  | _ => rfl

theorem uncontrolled (stock : Stock entry) : .control ∉ entry.arguments := by
  cases stock with
  | packetSource found result arguments => rw [arguments]; exact nofun
  | flowSource found result arguments => rw [arguments]; exact nofun
  | aggregate found result arguments => rw [arguments]; exact nofun
  | operator op => cases op <;> decide
  | direction forward => cases forward <;> decide
  | select | sliceFrom | sliceBetween | apply | map => decide
  | control name initial => exact (by decide : Kind.control ∉ [Kind.rawPacket])

theorem role (stock : Stock entry) (working : entry.result ≠ .control) {build : Kind → Instance}
    (built : entry.build = some build) (kind : Kind) : (build kind).role? ≠ none := by
  cases stock with
  | packetSource found result arguments build reads =>
    obtain rfl := Option.some.inj (build.symm.trans built)
    rw [reads.role]
    exact nofun
  | flowSource found result arguments build sums =>
    obtain rfl := Option.some.inj (build.symm.trans built)
    rw [sums.role]
    exact nofun
  | aggregate found result arguments build collects =>
    obtain rfl := Option.some.inj (build.symm.trans built)
    rw [collects.role]
    exact nofun
  | apply | map => cases built
  | control => exact absurd rfl working
  | operator op | direction forward | select | sliceFrom | sliceBetween =>
    cases built
    exact nofun

theorem operator_of_taken (stock : Stock entry) (taken : entry.result = .matchType) : ∃ op, entry = operatorEntry op := by
  cases stock with
  | operator op => exact ⟨op, rfl⟩
  | packetSource found result => cases result.symm.trans taken
  | flowSource found result => cases result.symm.trans taken
  | aggregate found result => cases result.symm.trans taken
  | _ => cases taken

end Stock

theorem stock_of_over {binding : Binding Instance} {args : List (Bound Instance)}
    (drawn : Bound.Over catalog (.call binding args)) : Stock binding.chosen.entry :=
  stock_entries _ (Catalog.mem_entries drawn.head)

abbrev Takes (kind : Kind) (e : Expression) (bound : Bound Instance) : Prop :=
  Bound.ofExpression catalog kind e = .ok bound

/-- An entry taken for a call, and its arguments bound as it asks. -/
structure Binds (required : Kind) (name : String) (args : List Expression) (candidate : Registered Instance)
    (bounds : List (Bound Instance)) : Prop where
  stock : Stock candidate.entry
  name : candidate.entry.name = name
  result : candidate.entry.result = required ∨
    candidate.entry.result = .matchType ∧ required ≠ .matchType ∧ required ≠ .control
  takes : ∃ kinds, candidate.entry.argumentKinds args.length = some kinds ∧
    List.Forall₂ (fun pair bound => Takes pair.1 pair.2 bound) ((kinds.map (Bound.argumentKind required)).zip args) bounds

theorem takes_call {required : Kind} {name : String} {args : List Expression} {bound : Bound Instance}
    (takes : Takes required (.call name args) bound) :
    ∃ candidate bounds, bound = .call ⟨candidate, required⟩ bounds ∧ Binds required name args candidate bounds := by
  obtain ⟨candidate, found, bounds, each, rfl⟩ := Bound.ofExpression_call takes
  obtain ⟨entered, named, ⟨kinds, asked⟩, result⟩ := Catalog.mem_find found
  rw [asked] at each
  exact ⟨candidate, bounds, rfl, stock_entries _ entered, named, result, kinds, asked, Bound.ofExpressions_eq_ok each⟩

namespace Binds

variable {required : Kind} {name : String} {args : List Expression} {candidate : Registered Instance}
variable {bounds : List (Bound Instance)}

theorem one (binds : Binds required name args candidate bounds) {kind : Kind} (asked : candidate.entry.arguments = [kind])
    (ordinary : kind ≠ .ellipsis) (own : kind ≠ .matchType) :
    ∃ arg bound, args = [arg] ∧ bounds = [bound] ∧ Takes kind arg bound := by
  obtain ⟨kinds, found, each⟩ := binds.takes
  have fixed : candidate.entry.isVariadic = false := by
    rw [Entry.isVariadic, asked, List.getLast?_singleton]
    exact beq_eq_false_iff_ne.mpr fun same => ordinary (Option.some.inj same)
  obtain ⟨count, rfl⟩ := Entry.argumentKinds_fixed fixed found
  rw [asked] at count each
  obtain ⟨arg, rfl⟩ := List.length_eq_one_iff.mp count.symm
  rw [List.map_singleton, Bound.argumentKind, if_neg own] at each
  obtain ⟨bound, rest, takes, nothing, rfl⟩ := List.forall₂_cons_left_iff.mp each
  obtain rfl := List.forall₂_nil_left_iff.mp nothing
  exact ⟨arg, bound, rfl, rfl, takes⟩

theorem sole {arg : Expression} (binds : Binds required name [arg] candidate bounds) {kind : Kind}
    (asked : candidate.entry.arguments = [kind]) (ordinary : kind ≠ .ellipsis) (own : kind ≠ .matchType) :
    ∃ bound, bounds = [bound] ∧ Takes kind arg bound := by
  obtain ⟨arg', bound, same, rfl, takes⟩ := binds.one asked ordinary own
  obtain rfl := List.singleton_inj.mp same
  exact ⟨bound, rfl, takes⟩

theorem two (binds : Binds required name args candidate bounds) {kind kind' : Kind}
    (asked : candidate.entry.arguments = [kind, kind']) (ordinary : kind' ≠ .ellipsis) (own : kind ≠ .matchType)
    (own' : kind' ≠ .matchType) :
    ∃ arg arg' bound bound', args = [arg, arg'] ∧ bounds = [bound, bound'] ∧ Takes kind arg bound ∧
      Takes kind' arg' bound' := by
  obtain ⟨kinds, found, each⟩ := binds.takes
  have fixed : candidate.entry.isVariadic = false := by
    rw [Entry.isVariadic, asked]
    exact beq_eq_false_iff_ne.mpr fun same => ordinary (Option.some.inj same)
  obtain ⟨count, rfl⟩ := Entry.argumentKinds_fixed fixed found
  rw [asked] at count each
  obtain ⟨arg, arg', rfl⟩ := List.length_eq_two.mp count.symm
  rw [List.map_cons, List.map_singleton, Bound.argumentKind, Bound.argumentKind, if_neg own, if_neg own'] at each
  obtain ⟨bound, rest, takes, others, rfl⟩ := List.forall₂_cons_left_iff.mp each
  obtain ⟨bound', rest, takes', nothing, rfl⟩ := List.forall₂_cons_left_iff.mp others
  obtain rfl := List.forall₂_nil_left_iff.mp nothing
  exact ⟨arg, arg', bound, bound', rfl, rfl, takes, takes'⟩

theorem pair {arg arg' : Expression} (binds : Binds required name [arg, arg'] candidate bounds) {kind kind' : Kind}
    (asked : candidate.entry.arguments = [kind, kind']) (ordinary : kind' ≠ .ellipsis) (own : kind ≠ .matchType)
    (own' : kind' ≠ .matchType) :
    ∃ bound bound', bounds = [bound, bound'] ∧ Takes kind arg bound ∧ Takes kind' arg' bound' := by
  obtain ⟨_, _, bound, bound', same, rfl, takes, takes'⟩ := binds.two asked ordinary own own'
  cases same
  exact ⟨bound, bound', rfl, takes, takes'⟩

theorem argumentKinds_operator (op : Operator) {count : Nat} {kinds : List Kind}
    (found : (operatorEntry op).argumentKinds count = some kinds) :
    2 ≤ count ∧ kinds = List.replicate count .matchType := by
  cases variadic : op.isVariadic with
  | true =>
    have asked : (operatorEntry op).arguments = [.matchType, .matchType, .ellipsis] := by
      rw [operatorEntry, variadic]
      rfl
    rw [Entry.argumentKinds, Entry.isVariadic, asked] at found
    change (if count < 2 then none else some ([.matchType, .matchType] ++ List.replicate (count - 2) .matchType)) =
      some kinds at found
    split at found
    · cases found
    · cases found
      refine ⟨by omega, ?_⟩
      rw [show count = 2 + (count - 2) by omega, List.replicate_add]
      simp
  | false =>
    have asked : (operatorEntry op).arguments = [.matchType, .matchType] := by
      rw [operatorEntry, variadic]
      rfl
    obtain ⟨count, rfl⟩ := Entry.argumentKinds_fixed (by rw [Entry.isVariadic, asked]; rfl) found
    rw [asked] at count ⊢
    rw [← count]
    exact ⟨Nat.le_refl _, rfl⟩

/-- An operator asks all its arguments for what it is asked for itself. -/
theorem each (binds : Binds required name args candidate bounds) {op : Operator} (same : candidate.entry = operatorEntry op) :
    2 ≤ args.length ∧ List.Forall₂ (Takes required) args bounds := by
  obtain ⟨kinds, found, each⟩ := binds.takes
  rw [same] at found
  obtain ⟨count, rfl⟩ := argumentKinds_operator op found
  refine ⟨count, ?_⟩
  rw [List.map_replicate, Bound.argumentKind, if_pos rfl] at each
  clear count found binds
  induction args generalizing bounds with
  | nil => exact List.forall₂_nil_left_iff.mpr (List.forall₂_nil_left_iff.mp each)
  | cons arg args ih =>
    rw [List.length_cons, List.replicate_succ, List.zip_cons_cons] at each
    obtain ⟨bound, rest, takes, others, rfl⟩ := List.forall₂_cons_left_iff.mp each
    exact .cons takes (ih others)

/-- An entry that does not take its kind from the context gives what is asked for. -/
theorem own (binds : Binds required name args candidate bounds) (fixed : candidate.entry.result ≠ .matchType) :
    candidate.entry.result = required :=
  binds.result.resolve_right fun taken => fixed taken.1

/-- Where a kind is asked for that no entry has for a result, only operators can be taken. -/
theorem exists_operator (binds : Binds required name args candidate bounds) (refused : required.isResult = false) :
    ∃ op, candidate.entry = operatorEntry op := by
  refine binds.stock.operator_of_taken (binds.result.elim (fun same => ?_) And.left)
  have result := binds.stock.isResult
  rw [same, refused] at result
  cases result

/-- A substitution asks for a feature of the kind that it is asked for itself, and for a selection. -/
theorem substitution (binds : Binds required name args candidate bounds) {name' : String} {kind : Kind}
    (same : candidate.entry = substitutionEntry name' kind) (flowOrPacket : kind = .flowFeature ∨ kind = .packetFeature) :
    ∃ feature selection bound bound', args = [feature, selection] ∧ bounds = [bound, bound'] ∧
      Takes required feature bound ∧ Takes .selection selection bound' := by
  have ordinary : kind ≠ .matchType := by
    rcases flowOrPacket with rfl | rfl <;> exact nofun
  obtain rfl : kind = required := (congrArg Entry.result same).symm.trans (binds.own (by rw [same]; exact ordinary))
  exact binds.two (congrArg Entry.arguments same) nofun ordinary nofun

theorem not_substitution {arg : Expression} (binds : Binds required name [arg] candidate bounds) {name' : String}
    {kind : Kind} (flowOrPacket : kind = .flowFeature ∨ kind = .packetFeature) :
    candidate.entry ≠ substitutionEntry name' kind := by
  intro same
  obtain ⟨_, _, _, _, two, -⟩ := binds.substitution same flowOrPacket
  cases congrArg List.length two

theorem arg (binds : Binds required name args candidate bounds) (working : required ≠ .control) {bound : Bound Instance}
    (member : bound ∈ bounds) : ∃ kind, ∃ arg ∈ args, kind ≠ .control ∧ Takes kind arg bound := by
  obtain ⟨kinds, found, each⟩ := binds.takes
  obtain ⟨⟨kind, arg⟩, inside, takes⟩ := forall₂_mem_right each member
  obtain ⟨asked, arg⟩ := List.of_mem_zip inside
  obtain ⟨declared, held, rfl⟩ := List.mem_map.mp asked
  refine ⟨_, _, arg, ?_, takes⟩
  rw [Bound.argumentKind]
  split
  · exact working
  · rintro rfl
    exact binds.stock.uncontrolled (Entry.argumentKinds_subset found held)

end Binds

theorem takes_constant_iff {kind : Kind} {value : Value} {bound : Bound Instance} :
    Takes kind (.constant value) bound ↔ kind.acceptsConstant = true ∧ bound = .constant value := by
  rw [Takes, Bound.ofExpression]
  split
  next accepts => exact ⟨fun same => ⟨accepts, (Except.ok.inj same).symm⟩, fun held => held.2 ▸ rfl⟩
  next refuses => exact ⟨by rintro ⟨⟩, fun held => absurd held.1 refuses⟩

theorem takes_raw {kind : Kind} {bound : Bound Instance} (takes : Takes kind (.raw ()) bound) :
    kind.isRaw = true ∧ bound = .raw kind := by
  rw [Takes, Bound.ofExpression] at takes
  split at takes
  next raw => exact ⟨raw, (Except.ok.inj takes).symm⟩
  next => cases takes

/-- Where raw packets are asked for, nothing that is written can stand. -/
theorem not_takes_raw {e : Expression} (written : e.Written) {kind : Kind} (raw : kind.isRaw = true)
    (bound : Bound Instance) : ¬Takes kind e bound := by
  induction e using Tree.induct generalizing bound with
  | raw mark => cases written
  | constant value =>
    intro takes
    have accepts := (takes_constant_iff.mp takes).1
    cases kind <;> cases raw <;> cases accepts
  | call name args ih =>
    intro takes
    obtain ⟨candidate, bounds, rfl, binds⟩ := takes_call takes
    obtain ⟨op, same⟩ := binds.exists_operator (by cases kind <;> cases raw <;> rfl)
    obtain ⟨several, each⟩ := binds.each same
    rcases written.args with rfl | written
    · exact absurd several (by decide)
    · cases each with
      | nil => exact absurd several (by decide)
      | cons first rest => exact ih _ List.mem_cons_self (written _ List.mem_cons_self) _ first

/-- What is written where a kind is asked for comes to the typing stage as an expression of this kind, and regular. -/
theorem settled_regular {e : Expression} (written : e.Written) {required : Kind} (working : required ≠ .control)
    {bound : Bound Instance} (takes : Takes required e bound) : Regular bound.settled ∧ Suits required bound.settled := by
  induction e using Tree.induct generalizing required bound with
  | raw mark => cases written
  | constant value =>
    obtain ⟨accepts, rfl⟩ := takes_constant_iff.mp takes
    exact ⟨.constant value, accepts⟩
  | call name args ih =>
    obtain ⟨candidate, bounds, rfl, binds⟩ := takes_call takes
    rcases binds.stock.build_cases with ⟨build, built⟩ | ⟨name', kind, same, flowOrPacket⟩
    · rw [Bound.settled_call built]
      refine ⟨?_, rfl⟩
      by_cases taken : candidate.entry.result = .matchType
      · obtain ⟨op, same⟩ := binds.stock.operator_of_taken taken
        obtain ⟨several, each⟩ := binds.each same
        have suits : ∀ bound ∈ bounds, Regular (Bound.settled bound) ∧ Suits required (Bound.settled bound) := by
          intro bound member
          obtain ⟨arg, inside, takes⟩ := forall₂_mem_right each member
          rcases written.args with rfl | written
          · exact absurd several (by decide)
          · exact ih arg inside (written arg inside) working takes
        have explicit : candidate.entry.implicitInput = false := congrArg Entry.implicitInput same
        rw [explicit, if_neg Bool.false_ne_true, List.append_nil]
        exact .taken (List.forall_mem_map.mpr fun bound member => (suits bound member).1) taken
          (List.forall_mem_map.mpr fun bound member => (suits bound member).2)
      · refine .own (List.forall_mem_append.mpr ⟨List.forall_mem_map.mpr fun bound member => ?_, ?_⟩) taken
            (binds.own taken ▸ working) (binds.own taken)
        · obtain ⟨kind, arg, inside, working, held⟩ := binds.arg working member
          rcases written.args with rfl | written
          · rw [List.mem_singleton.mp inside] at held
            obtain ⟨raw, rfl⟩ := takes_raw held
            exact .raw kind
          · exact (ih arg inside (written arg inside) working held).1
        · split
          · exact List.forall_mem_singleton.mpr (.raw _)
          · exact List.forall_mem_nil _
    · obtain ⟨feature, selection, bound, bound', rfl, rfl, first, second⟩ := binds.substitution same flowOrPacket
      have written : ∀ arg ∈ [feature, selection], arg.Written :=
        written.args.resolve_left fun same => nomatch congrArg List.length same
      obtain ⟨regular, suits⟩ := ih feature (by simp) (written feature (by simp)) working first
      obtain ⟨regular', -⟩ := ih selection (by simp) (written selection (by simp)) (by decide) second
      rw [Bound.settled_substitution (congrArg Entry.build same) (congrArg Entry.implicitInput same),
        Tree.withInput_eq_fedBy (fun mark raw => by rw [raw] at suits; exact suits)]
      exact ⟨regular.fedBy regular', suits.fedBy _⟩

/-- What comes to the typing stage has no substitutions left. -/
theorem settled_built {e : Expression} {required : Kind} (working : required ≠ .control) {bound : Bound Instance}
    (takes : Takes required e bound) :
    bound.settled.All (fun _ => True) fun binding => binding.chosen.entry.build ≠ none := by
  induction e using Tree.induct generalizing required bound with
  | raw mark =>
    obtain ⟨-, rfl⟩ := takes_raw takes
    exact .raw required
  | constant value =>
    obtain ⟨-, rfl⟩ := takes_constant_iff.mp takes
    exact .constant trivial
  | call name args ih =>
    obtain ⟨candidate, bounds, rfl, binds⟩ := takes_call takes
    rcases binds.stock.build_cases with ⟨build, built⟩ | ⟨name', kind, same, flowOrPacket⟩
    · rw [Bound.settled_call built]
      refine .call (by rw [built]; exact nofun) (List.forall_mem_append.mpr ⟨List.forall_mem_map.mpr fun bound member => ?_, ?_⟩)
      · obtain ⟨kind, arg, inside, working, held⟩ := binds.arg working member
        exact ih arg inside working held
      · split
        · exact List.forall_mem_singleton.mpr (.raw _)
        · exact List.forall_mem_nil _
    · obtain ⟨feature, selection, bound, bound', rfl, rfl, first, second⟩ := binds.substitution same flowOrPacket
      rw [Bound.settled_substitution (congrArg Entry.build same) (congrArg Entry.implicitInput same)]
      exact (ih feature (by simp) working first).withInput (ih selection (by simp) (by decide) second)

end Library

end FlowMetering
