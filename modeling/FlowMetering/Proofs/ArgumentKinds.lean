import FlowMetering.Proofs.BoundFeatures
import FlowMetering.Proofs.OverloadSearch

/-! What stands for the arguments of entries. Each argument has the kind that its entry asks for, and where an entry asks
for a raw input there is the raw input or a selection in its place; lowering keeps the number of arguments. -/

namespace FlowMetering

namespace Library

open Allocation (Regular Suits)

inductive Fills (kind : Kind) : Bound Instance → Prop
  | suits {tree : Bound Instance} (suits : Suits kind tree) : Fills kind tree
  | raw (mark : Kind) (asked : kind.isRaw = true) : Fills kind (.raw mark)
  | selected {binding : Binding Instance} (args : List (Bound Instance)) (asked : kind.isRaw = true)
    (own : binding.kind = .selection) : Fills kind (.call binding args)

/-- The arguments of every call fill what its entry asks for, the implicit input last. -/
inductive Filled : Bound Instance → Prop
  | raw (mark : Kind) : Filled (.raw mark)
  | constant (value : Value) : Filled (.constant value)
  | call {binding : Binding Instance} {args : List (Bound Instance)} {count : Nat} {kinds : List Kind}
    (asked : binding.chosen.entry.argumentKinds count = some kinds)
    (fills : List.Forall₂ Fills (kinds.map (Bound.argumentKind binding.kind) ++
      if binding.chosen.entry.implicitInput then [.rawPacket] else []) args)
    (each : ∀ arg ∈ args, Filled arg) : Filled (.call binding args)

namespace Filled

private theorem arg {binding : Binding Instance} {args : List (Bound Instance)} (filled : Filled (.call binding args))
    {arg : Bound Instance} (member : arg ∈ args) : Filled arg := by
  cases filled with
  | call asked fills each => exact each arg member

theorem part {tree node : Bound Instance} (filled : Filled tree) (member : node ∈ tree.subtrees) : Filled node := by
  induction tree using Tree.induct with
  | raw mark => exact List.mem_singleton.mp member ▸ filled
  | constant value => exact List.mem_singleton.mp member ▸ filled
  | call binding args ih =>
    rcases Tree.mem_subtrees_call.mp member with ⟨arg, held, inside⟩ | rfl
    · exact ih arg held (filled.arg held) inside
    · exact filled

/-- An entry that asks for one kind has one argument, which fills it. -/
theorem one {binding : Binding Instance} {args : List (Bound Instance)} (filled : Filled (.call binding args)) {kind : Kind}
    (asked : binding.chosen.entry.arguments = [kind]) (ordinary : kind ≠ .ellipsis) (own : kind ≠ .matchType)
    (explicit : binding.chosen.entry.implicitInput = false) : ∃ arg, args = [arg] ∧ Fills kind arg := by
  have fixed : binding.chosen.entry.isVariadic = false := by
    rw [Entry.isVariadic, asked, List.getLast?_singleton]
    exact beq_eq_false_iff_ne.mpr fun same => ordinary (Option.some.inj same)
  cases filled with
  | call takes fills each =>
    rw [(Entry.argumentKinds_fixed fixed takes).2, asked, explicit, if_neg Bool.false_ne_true, List.append_nil,
      List.map_singleton, Bound.argumentKind, if_neg own] at fills
    obtain ⟨arg, rest, first, nothing, rfl⟩ := List.forall₂_cons_left_iff.mp fills
    obtain rfl := List.forall₂_nil_left_iff.mp nothing
    exact ⟨arg, rfl, first⟩

end Filled

private theorem Fills.fedBy {kind : Kind} {tree input : Bound Instance} (fills : Fills kind tree) (suits : Suits .selection input) :
    Fills kind (Tree.fedBy input tree) := by
  cases fills with
  | suits own => exact .suits (own.fedBy input)
  | raw mark asked =>
    cases input with
    | raw mark => exact suits.elim
    | constant value => cases suits
    | call binding args => exact .selected args asked suits
  | selected args asked selection =>
    rw [Tree.fedBy_call]
    exact .selected _ asked selection

private theorem Filled.fedBy {tree input : Bound Instance} (filled : Filled tree) (filled' : Filled input)
    (suits : Suits .selection input) : Filled (Tree.fedBy input tree) := by
  induction filled with
  | raw mark => exact filled'
  | constant value => exact .constant value
  | call asked fills each ih =>
    rw [Tree.fedBy_call]
    refine .call asked ?_ (List.forall_mem_map.mpr ih)
    rw [List.forall₂_map_right_iff]
    exact fills.imp fun _ _ first => first.fedBy suits

private theorem forall₂_zip_left {α β γ : Type} {related : α × β → γ → Prop} {known : α → γ → Prop} {as : List α} {bs : List β}
    {cs : List γ} (each : List.Forall₂ related (as.zip bs) cs) (same : as.length = bs.length)
    (goes : ∀ a ∈ as, ∀ b ∈ bs, ∀ c, related (a, b) c → known a c) : List.Forall₂ known as cs := by
  induction as generalizing bs cs with
  | nil =>
    rw [List.zip_nil_left] at each
    exact List.forall₂_nil_left_iff.mpr (List.forall₂_nil_left_iff.mp each)
  | cons a as ih =>
    cases bs with
    | nil => cases same
    | cons b bs =>
      rw [List.zip_cons_cons] at each
      obtain ⟨c, rest, first, others, rfl⟩ := List.forall₂_cons_left_iff.mp each
      refine .cons (goes a List.mem_cons_self b List.mem_cons_self c first) (ih others (Nat.succ.inj same) ?_)
      exact fun a' member b' member' => goes a' (List.mem_cons_of_mem _ member) b' (List.mem_cons_of_mem _ member')

/-- What is written comes to the typing stage with every argument in its place. -/
theorem settled_filled {e : Expression} (written : e.Written) {required : Kind} (working : required ≠ .control)
    {bound : Bound Instance} (takes : Takes required e bound) : Filled bound.settled := by
  induction e using Tree.induct generalizing required bound with
  | raw mark => cases written
  | constant value =>
    obtain ⟨-, rfl⟩ := takes_constant_iff.mp takes
    exact .constant value
  | call name args ih =>
    obtain ⟨candidate, bounds, rfl, binds⟩ := takes_call takes
    rcases binds.stock.build_cases with ⟨build, built⟩ | ⟨name', kind, same, flowOrPacket⟩
    · obtain ⟨kinds, asked, each⟩ := binds.takes
      have placed : List.Forall₂ (fun kind bound => Fills kind (Bound.settled bound))
          (kinds.map (Bound.argumentKind required)) bounds := by
        refine forall₂_zip_left each ((List.length_map _).trans (Bound.argumentKinds_length asked)) ?_
        intro kind held arg inside bound fits
        rcases written.args with rfl | written
        · rw [List.mem_singleton.mp inside] at fits
          obtain ⟨raw, rfl⟩ := takes_raw fits
          exact .raw kind raw
        · obtain ⟨declared, member, rfl⟩ := List.mem_map.mp held
          refine .suits (settled_regular (written arg inside) ?_ fits).2
          rw [Bound.argumentKind]
          split
          · exact working
          · rintro rfl
            exact binds.stock.uncontrolled (Entry.argumentKinds_subset asked member)
      rw [Bound.settled_call built]
      refine .call asked ?_ (List.forall_mem_append.mpr ⟨List.forall_mem_map.mpr fun bound member => ?_, ?_⟩)
      · refine List.rel_append (List.forall₂_map_right_iff.mpr placed) ?_
        split
        · exact .cons (.raw _ rfl) .nil
        · exact .nil
      · obtain ⟨kind, arg, inside, working, held⟩ := binds.arg working member
        rcases written.args with rfl | written
        · rw [List.mem_singleton.mp inside] at held
          obtain ⟨raw, rfl⟩ := takes_raw held
          exact .raw kind
        · exact ih arg inside (written arg inside) working held
      · split
        · exact List.forall_mem_singleton.mpr (.raw _)
        · exact List.forall_mem_nil _
    · obtain ⟨feature, selection, bound, bound', rfl, rfl, first, second⟩ := binds.substitution same flowOrPacket
      have written : ∀ arg ∈ [feature, selection], arg.Written :=
        written.args.resolve_left fun same => by cases congrArg List.length same
      rw [List.forall_mem_cons, List.forall_mem_singleton] at written
      have suits := (settled_regular written.1 working first).2
      have suits' := (settled_regular written.2 (by decide) second).2
      rw [Bound.settled_substitution (congrArg Entry.build same) (congrArg Entry.implicitInput same),
        Tree.withInput_eq_fedBy (fun mark raw => by rw [raw] at suits; exact suits)]
      exact (ih feature List.mem_cons_self written.1 working first).fedBy
        (ih selection (List.mem_cons_of_mem _ List.mem_cons_self) written.2 (by decide) second) suits'

end Library

end FlowMetering
