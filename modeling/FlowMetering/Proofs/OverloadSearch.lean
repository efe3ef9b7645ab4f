import FlowMetering.Proofs.BindingNotes

/-! Binding finds what can be derived. A call can be derived by an entry of its name that gives the kind asked for and
all of whose arguments can be derived; binding takes the first such entry in the order of the catalog, and the notes of
the search say which. -/

namespace FlowMetering

namespace Bound

variable {σ φ : Type} {catalog : Catalog σ φ}

/-- What can stand where a kind is asked for. -/
inductive Derivable (catalog : Catalog σ φ) : Kind → Expression → Prop where
  | raw {required mark} (raw : required.isRaw) : Derivable catalog required (.raw mark)
  | constant {required value} (accepts : required.acceptsConstant) : Derivable catalog required (.constant value)
  | call {required name chosen kinds} {args : List Expression} (registered : chosen ∈ catalog.registered)
      (named : chosen.entry.name = name)
      (gives : chosen.entry.result = required ∨ chosen.entry.result = .matchType ∧ required ≠ .control)
      (takes : chosen.entry.argumentKinds args.length = some kinds)
      (each : ∀ (i : Nat) kind arg, kinds[i]? = some kind → args[i]? = some arg →
        Derivable catalog (argumentKind required kind) arg) :
      Derivable catalog required (.call name args)

def DerivableWith (catalog : Catalog σ φ) (required : Kind) (args : List Expression) (entry : Registered σ) : Prop :=
  ∃ kinds, entry.entry.argumentKinds args.length = some kinds ∧
    ∀ (i : Nat) kind arg, kinds[i]? = some kind → args[i]? = some arg →
      Derivable catalog (argumentKind required kind) arg

/-- Every node of an expression carries its note. At a call this is the first entry whose arguments can be derived. -/
inductive Annotated (catalog : Catalog σ φ) (notes : Notes σ) : Kind → Expression → List Nat → Prop where
  | raw {required mark place} (raw : required.isRaw) (noted : notes place = ⟨none, some required⟩) :
      Annotated catalog notes required (.raw mark) place
  | constant {required value place} (accepts : required.acceptsConstant)
      (noted : notes place = ⟨none, some .constant⟩) : Annotated catalog notes required (.constant value) place
  | call {required name place chosen kinds before behind} {args : List Expression}
      (noted : notes place = ⟨some chosen, some required⟩)
      (order : catalog.find name required args.length = before ++ chosen :: behind)
      (first : ∀ earlier ∈ before, ¬DerivableWith catalog required args earlier)
      (takes : chosen.entry.argumentKinds args.length = some kinds) (full : kinds.length = args.length)
      (each : ∀ (i : Nat) kind arg, kinds[i]? = some kind → args[i]? = some arg →
        Annotated catalog notes (argumentKind required kind) arg (place ++ [i])) :
      Annotated catalog notes required (.call name args) place

theorem mem_find_iff {name : String} {required : Kind} {count : Nat} {candidate : Registered σ} :
    candidate ∈ catalog.find name required count ↔
      candidate ∈ catalog.registered ∧ candidate.entry.name = name ∧
        (candidate.entry.result = required ∨ candidate.entry.result = .matchType ∧ required ≠ .control) ∧
        ∃ kinds, candidate.entry.argumentKinds count = some kinds := by
  constructor
  · intro member
    obtain ⟨-, named, takes, gives⟩ := Catalog.mem_find member
    exact ⟨find_subset catalog _ _ _ member, named, gives.imp id fun held => ⟨held.1, held.2.2⟩, takes⟩
  · rintro ⟨registered, named, gives, takes⟩
    simp only [Catalog.find, List.mem_append, List.mem_filter, Bool.and_eq_true, beq_iff_eq, bne_iff_ne,
      Option.isSome_iff_exists, Bool.not_eq_true']
    have fitting : candidate ∈ catalog.registered ∧ candidate.entry.name = name ∧ _ := ⟨registered, named, takes⟩
    by_cases exact' : candidate.entry.result = required
    · cases arity : candidate.entry.isVariadic with
      | false => exact .inl (.inl ⟨⟨fitting, exact'⟩, rfl⟩)
      | true => exact .inl (.inr ⟨⟨fitting, exact'⟩, rfl⟩)
    · obtain ⟨matching, uncontrolled⟩ := gives.resolve_left exact'
      have other : required ≠ .matchType := fun same => exact' (matching.trans same.symm)
      cases arity : candidate.entry.isVariadic with
      | false => exact .inr (.inl ⟨⟨fitting, ⟨matching, other⟩, uncontrolled⟩, rfl⟩)
      | true => exact .inr (.inr ⟨⟨fitting, ⟨matching, other⟩, uncontrolled⟩, rfl⟩)

theorem argumentKinds_length {entry : Entry σ} {count : Nat} {kinds : List Kind}
    (takes : entry.argumentKinds count = some kinds) : kinds.length = count := by
  rw [Entry.argumentKinds] at takes
  split at takes
  · dsimp only at takes
    split at takes
    · split at takes
      · cases takes
      · cases takes
        rw [List.length_append, List.length_replicate]
        omega
    · cases takes
  · split at takes
    next same =>
      cases takes
      exact same
    next => cases takes

private theorem ofExpressions_getElem {kinds : List Kind} {args : List Expression} {bounds : List (Bound σ)}
    (bound : ofExpressions catalog kinds args = .ok bounds) {i : Nat} {kind : Kind} {arg : Expression}
    (asked : kinds[i]? = some kind) (given : args[i]? = some arg) :
    ∃ b, bounds[i]? = some b ∧ ofExpression catalog kind arg = .ok b := by
  induction args generalizing kinds bounds i with
  | nil => cases given
  | cons first args ih =>
    cases kinds with
    | nil => cases asked
    | cons kind' kinds =>
      obtain ⟨b, done, bound⟩ := bind_eq_ok.mp bound
      obtain ⟨others, rest, bound⟩ := bind_eq_ok.mp bound
      cases bound
      cases i with
      | zero =>
        cases asked
        cases given
        exact ⟨b, rfl, done⟩
      | succ i => exact ih rest asked given

private theorem ofExpressions_ok {kinds : List Kind} {args : List Expression}
    (each : ∀ (i : Nat) kind arg, kinds[i]? = some kind → args[i]? = some arg →
      ∃ b, ofExpression catalog kind arg = .ok b) :
    ∃ bounds, ofExpressions catalog kinds args = .ok bounds := by
  induction args generalizing kinds with
  | nil => exact ⟨[], rfl⟩
  | cons arg args ih =>
    cases kinds with
    | nil => exact ⟨[], rfl⟩
    | cons kind kinds =>
      obtain ⟨b, done⟩ := each 0 kind arg rfl rfl
      obtain ⟨bounds, rest⟩ := ih fun i => each (i + 1)
      exact ⟨b :: bounds, bind_eq_ok.mpr ⟨b, done, bind_eq_ok.mpr ⟨bounds, rest, rfl⟩⟩⟩

private theorem firstOk_first {α β ε : Type} {attempt : α → Except ε β} {candidates : List α} {result : β}
    (succeeded : firstOk attempt candidates = .ok result) :
    ∃ before candidate behind, candidates = before ++ candidate :: behind ∧ attempt candidate = .ok result ∧
      ∀ earlier ∈ before, ∀ other, attempt earlier ≠ .ok other := by
  induction candidates with
  | nil => cases succeeded
  | cons candidate candidates ih =>
    rw [firstOk] at succeeded
    split at succeeded
    next done =>
      cases succeeded
      exact ⟨[], candidate, candidates, rfl, done, fun _ member => absurd member List.not_mem_nil⟩
    next failed =>
      split at succeeded
      next rest =>
        cases succeeded
        obtain ⟨before, found, behind, rfl, done, none⟩ := ih rest
        refine ⟨candidate :: before, found, behind, rfl, done, ?_⟩
        intro earlier member other held
        rcases List.mem_cons.mp member with rfl | member
        · rw [failed] at held
          cases held
        · exact none earlier member other held
      next => cases succeeded

private theorem firstOk_ok {α β ε : Type} {attempt : α → Except ε β} {candidates : List α} {candidate : α} {result : β}
    (member : candidate ∈ candidates) (done : attempt candidate = .ok result) :
    ∃ result, firstOk attempt candidates = .ok result := by
  induction candidates with
  | nil => exact absurd member List.not_mem_nil
  | cons first candidates ih =>
    rw [firstOk]
    cases tried : attempt first with
    | ok result => exact ⟨result, rfl⟩
    | error problem =>
      have later : candidate ∈ candidates := by
        rcases List.mem_cons.mp member with rfl | later
        · rw [tried] at done
          cases done
        · exact later
      obtain ⟨result, rest⟩ := ih later
      exact ⟨result, by rw [rest]⟩

private theorem ofExpression_call_eq_ok {required : Kind} {name : String} {args : List Expression} {result : Bound σ} :
    ofExpression catalog required (.call name args) = .ok result ↔
      firstOk (bindWith catalog required args) (catalog.find name required args.length) = .ok result := by
  cases found : catalog.find name required args.length with
  | nil =>
    rw [ofExpression, found]
    exact iff_of_false (by rintro ⟨⟩) (by rintro ⟨⟩)
  | cons first others =>
    rw [ofExpression_find found]
    cases firstOk (bindWith catalog required args) (first :: others) with
    | ok bound => exact ⟨fun same => by cases same; rfl, fun same => by cases same; rfl⟩
    | error problems => exact iff_of_false (by rintro ⟨⟩) (by rintro ⟨⟩)

private theorem bindWith_ok_iff {required : Kind} {args : List Expression} {candidate : Registered σ} {kinds : List Kind}
    (takes : candidate.entry.argumentKinds args.length = some kinds) :
    (∃ result, bindWith catalog required args candidate = .ok result) ↔
      ∀ (i : Nat) kind arg, kinds[i]? = some kind → args[i]? = some arg →
        ∃ b, ofExpression catalog (argumentKind required kind) arg = .ok b := by
  rw [bindWith, takes, Option.getD_some]
  constructor
  · rintro ⟨result, bound⟩ i kind arg asked given
    obtain ⟨bounds, each, -⟩ := map_eq_ok.mp bound
    have asked' : (kinds.map (argumentKind required))[i]? = some (argumentKind required kind) := by
      rw [List.getElem?_map, asked, Option.map_some]
    obtain ⟨b, -, done⟩ := ofExpressions_getElem each asked' given
    exact ⟨b, done⟩
  · intro each
    have each' : ∀ (i : Nat) kind arg, (kinds.map (argumentKind required))[i]? = some kind → args[i]? = some arg →
        ∃ b, ofExpression catalog kind arg = .ok b := by
      intro i kind arg asked given
      rw [List.getElem?_map, Option.map_eq_some_iff] at asked
      obtain ⟨declared, asked, rfl⟩ := asked
      exact each i declared arg asked given
    obtain ⟨bounds, done⟩ := ofExpressions_ok each'
    exact ⟨_, map_eq_ok.mpr ⟨bounds, done, rfl⟩⟩

private theorem ofExpression_ok_iff {required : Kind} {e : Expression} :
    (∃ result, ofExpression catalog required e = .ok result) ↔ Derivable catalog required e := by
  induction e using Tree.induct generalizing required with
  | raw mark =>
    rw [ofExpression]
    split
    next raw => exact ⟨fun _ => .raw raw, fun _ => ⟨_, rfl⟩⟩
    next other =>
      refine ⟨by rintro ⟨result, ⟨⟩⟩, fun derivable => ?_⟩
      cases derivable with
      | raw raw => exact absurd raw other
  | constant value =>
    rw [ofExpression]
    split
    next accepts => exact ⟨fun _ => .constant accepts, fun _ => ⟨_, rfl⟩⟩
    next other =>
      refine ⟨by rintro ⟨result, ⟨⟩⟩, fun derivable => ?_⟩
      cases derivable with
      | constant accepts => exact absurd accepts other
  | call name args ih =>
    simp only [ofExpression_call_eq_ok]
    constructor
    · rintro ⟨result, found⟩
      obtain ⟨chosen, member, bound⟩ := firstOk_eq_ok found
      obtain ⟨registered, named, gives, kinds, takes⟩ := mem_find_iff.mp member
      refine .call registered named gives takes ?_
      intro i kind arg asked given
      apply (ih arg (List.mem_of_getElem? given)).mp
      exact (bindWith_ok_iff takes).mp ⟨result, bound⟩ i kind arg asked given
    · rintro (_ | _ | ⟨registered, named, gives, takes, each⟩)
      obtain ⟨result, bound⟩ := (bindWith_ok_iff takes).mpr fun i kind arg asked given =>
        (ih arg (List.mem_of_getElem? given)).mpr (each i kind arg asked given)
      exact firstOk_ok (mem_find_iff.mpr ⟨registered, named, gives, _, takes⟩) bound

private theorem DerivableWith.bindWith {required : Kind} {args : List Expression} {entry : Registered σ}
    (derivable : DerivableWith catalog required args entry) :
    ∃ result, Bound.bindWith catalog required args entry = .ok result := by
  obtain ⟨kinds, takes, each⟩ := derivable
  apply (bindWith_ok_iff takes).mpr
  intro i kind arg asked given
  exact ofExpression_ok_iff.mpr (each i kind arg asked given)

private theorem annotated_noted {required : Kind} {e : Expression} {place : List Nat} {notes : Notes σ} {bound : Bound σ}
    (done : ofExpression catalog required e = .ok bound) (held : ∀ path, notes (place ++ path) = bound.noted path) :
    Annotated catalog notes required e place := by
  induction e using Tree.induct generalizing required place bound with
  | raw mark =>
    rw [ofExpression] at done
    split at done
    next raw =>
      cases done
      exact .raw raw (by rw [← List.append_nil place, held, noted])
    next => cases done
  | constant value =>
    rw [ofExpression] at done
    split at done
    next accepts =>
      cases done
      exact .constant accepts (by rw [← List.append_nil place, held, noted])
    next => cases done
  | call name args ih =>
    obtain ⟨before, chosen, behind, order, bound', none⟩ := firstOk_first (ofExpression_call_eq_ok.mp done)
    have member : chosen ∈ catalog.find name required args.length := by
      rw [order]
      exact List.mem_append_right _ List.mem_cons_self
    obtain ⟨-, -, -, kinds, takes⟩ := mem_find_iff.mp member
    obtain ⟨bounds, each, rfl⟩ := map_eq_ok.mp bound'
    rw [takes, Option.getD_some] at each
    refine .call (by rw [← List.append_nil place, held, noted]) order ?_ takes (argumentKinds_length takes) ?_
    -- an earlier entry with derivable arguments would have been taken
    · intro earlier early derivable
      obtain ⟨result, bound⟩ := derivable.bindWith
      exact none earlier early result bound
    · intro i kind arg asked given
      have asked' : (kinds.map (argumentKind required))[i]? = some (argumentKind required kind) := by
        rw [List.getElem?_map, asked, Option.map_some]
      obtain ⟨b, bound, done⟩ := ofExpressions_getElem each asked' given
      apply ih arg (List.mem_of_getElem? given) done
      intro path
      rw [List.append_assoc, List.singleton_append, held, noted, bound]

/-- Binding is sound and complete for what is derivable, takes the first entry that it can, and leaves no notes where
it fails. -/
theorem annotate_resolves (catalog : Catalog σ φ) (required : Kind) (e : Expression) :
    (annotate catalog required e [] .blank).1 = (ofExpression catalog required e).map (fun _ => ()) ∧
    ((annotate catalog required e [] .blank).1 = .ok () ↔ Derivable catalog required e) ∧
    (∀ bound, ofExpression catalog required e = .ok bound →
      (annotate catalog required e [] .blank).2 = bound.noted ∧
      Annotated catalog (annotate catalog required e [] .blank).2 required e []) ∧
    (¬Derivable catalog required e → ∀ path, (annotate catalog required e [] .blank).2 path = .blank) := by
  have searched : annotate catalog required e [] .blank = _ := annotate_eq required e (Notes.clean_blank [])
  cases bound : ofExpression catalog required e with
  | ok result =>
    rw [bound, outcome] at searched
    have derivable := ofExpression_ok_iff.mp ⟨result, bound⟩
    have noted : (annotate catalog required e [] .blank).2 = result.noted := by
      rw [searched]
      funext path
      exact Notes.graft_below Notes.blank result.noted [] path
    refine ⟨by rw [searched]; rfl, ⟨fun _ => derivable, fun _ => by rw [searched]⟩, ?_, fun not => absurd derivable not⟩
    rintro _ ⟨⟩
    exact ⟨noted, annotated_noted bound fun path => by rw [noted, List.nil_append]⟩
  | error problem =>
    rw [bound, outcome] at searched
    have underivable : ¬Derivable catalog required e := by
      intro derivable
      obtain ⟨result, succeeded⟩ := ofExpression_ok_iff.mpr derivable
      rw [bound] at succeeded
      cases succeeded
    refine ⟨by rw [searched]; rfl, ⟨fun ok => ?_, fun derivable => absurd derivable underivable⟩, by rintro _ ⟨⟩, ?_⟩
    · rw [searched] at ok
      cases ok
    · intro _ path
      rw [searched]
      rfl

-- The first argument is bound either way; its note stays only where the second argument is bound as well.
example :
    let length : Entry Unit := ⟨"length", .packetFeature, [.rawPacket], .untyped, some fun _ => (), false⟩
    let pair : Entry Unit := ⟨"pair", .flowFeature, [.packetFeature, .packetFeature], .untyped, some fun _ => (), false⟩
    let search (second : Expression) :=
      annotate (⟨[length, pair], [], []⟩ : Catalog Unit Unit) .flowFeature
        (.call "pair" [.call "length" [.raw ()], second]) [] .blank
    ((search (.constant (.unsigned 1))).2 [0]).kind = some .packetFeature ∧
      ((search (.call "width" [.raw ()])).2 [0]).kind = none := by
  decide

end Bound

end FlowMetering
