import FlowMetering.Library.Aggregates
import FlowMetering.Proofs.Stages
import Mathlib.Algebra.Ring.Int.Defs
import Mathlib.Algebra.Ring.Nat

/-! The values of a type. What operators and aggregates compute on values of some types is of the type that is resolved
for them from these types. -/

namespace FlowMetering

/-- Whether a value is one of a type: a number in the range of the type, or anything of the sort of the type. The family of
an address does not matter here. -/
def FieldType.admits : FieldType → Value → Bool
  | .unsigned8, .unsigned n => n.toNat < 2 ^ 8
  | .unsigned16, .unsigned n => n.toNat < 2 ^ 16
  | .unsigned32, .unsigned n => n.toNat < 2 ^ 32
  | .unsigned64, .unsigned n => n.toNat < 2 ^ 64
  | .signed8, .signed n => -2 ^ 7 ≤ n.toInt && n.toInt < 2 ^ 7
  | .signed16, .signed n => -2 ^ 15 ≤ n.toInt && n.toInt < 2 ^ 15
  | .signed32, .signed n => -2 ^ 31 ≤ n.toInt && n.toInt < 2 ^ 31
  | .signed64, .signed _ => true
  | .dateTimeSeconds, .signed _ | .dateTimeMilliseconds, .signed _ => true
  | .dateTimeMicroseconds, .signed _ | .dateTimeNanoseconds, .signed _ => true
  | .float32, .float _ | .float64, .float _ => true
  | .boolean, .boolean _ => true
  | .macAddress, .bytes _ | .octetArray, .bytes _ => true
  | .string, .text _ => true
  | .ipv4Address, .address _ | .ipv6Address, .address _ => true
  | _, _ => false

namespace FieldType

theorem admits_unsigned64 (n : UInt64) : unsigned64.admits (.unsigned n) = true :=
  decide_eq_true n.toNat_lt

theorem admits_naturalType (v : Value) : v.naturalType.admits v = true := by
  cases v with
  | unsigned n => exact admits_unsigned64 n
  | address a => cases a <;> rfl
  | boolean b | signed n | float x | bytes octets | text s => rfl

variable {type type' common : FieldType} {v w u : Value}

theorem unsigned_of_admits (unsigned : type.isUnsigned = true) (admits : type.admits v = true) :
    ∃ n, v = .unsigned n := by
  cases type <;> cases unsigned <;> cases v <;> first | exact ⟨_, rfl⟩ | cases admits

theorem signed_of_admits (signed : type.isSigned = true) (admits : type.admits v = true) : ∃ n, v = .signed n := by
  cases type <;> cases signed <;> cases v <;> first | exact ⟨_, rfl⟩ | cases admits

theorem float_of_admits (float : type.isFloat = true) (admits : type.admits v = true) : ∃ x, v = .float x := by
  cases type <;> cases float <;> cases v <;> first | exact ⟨_, rfl⟩ | cases admits

theorem upconvert_cases (found : type.upconvert type' = some common) :
    (type.isUnsigned = true ∧ type'.isUnsigned = true ∧ common = .unsigned64) ∨
      ((type.isFloat = true ∨ type'.isFloat = true) ∧ common = .float64) ∨
      ((type.isSigned = true ∨ type'.isSigned = true) ∧ type.isFloat = false ∧ type'.isFloat = false ∧
        common = .signed64) := by
  cases type <;> cases type' <;> cases found <;> decide

theorem isNumeric_of_upconvert (found : type.upconvert type' = some common) :
    type.isNumeric = true ∧ type'.isNumeric = true := by
  cases type <;> cases type' <;> cases found <;> decide

/-- A value of a numeric type is one of the type in full width. -/
theorem admits_widened (found : type.upconvert type = some common) (admits : type.admits v = true) :
    common.admits v = true := by
  rcases upconvert_cases found with ⟨unsigned, -, rfl⟩ | ⟨float, rfl⟩ | ⟨signed, -, -, rfl⟩
  · obtain ⟨n, rfl⟩ := unsigned_of_admits unsigned admits
    exact admits_unsigned64 n
  · obtain ⟨x, rfl⟩ := float_of_admits (or_self_iff.mp float) admits
    rfl
  · obtain ⟨n, rfl⟩ := signed_of_admits (or_self_iff.mp signed) admits
    rfl

/-- The type of a sum stays as it is with further values. -/
theorem upconvert_widened (found : type.upconvert type = some common) : common.upconvert type = some common := by
  cases type <;> cases found <;> rfl

end FieldType

namespace Library

open FieldType

variable {type type' common : FieldType} {v w u : Value}

section Arithmetic

variable {whole : Int → Int → Int} {float : Float → Float → Float}

private theorem arithmetic_float {x : Float} (computed : arithmetic whole float (.float x) w = some u) :
    ∃ y, u = .float y := by
  cases w <;> first | exact ⟨_, (Option.some.inj computed).symm⟩ | cases computed

private theorem arithmetic_float' {x : Float} (computed : arithmetic whole float v (.float x) = some u) :
    ∃ y, u = .float y := by
  cases v <;> first | exact ⟨_, (Option.some.inj computed).symm⟩ | cases computed

private theorem signed_of_word {n : Int} (computed : (Word.signed? n).map Value.signed = some u) : ∃ k, u = .signed k := by
  obtain ⟨word, -, rfl⟩ := Option.map_eq_some_iff.mp computed
  exact ⟨word, rfl⟩

private theorem arithmetic_admits (found : type.upconvert type' = some common) (first : type.admits v = true)
    (second : type'.admits w = true) (computed : arithmetic whole float v w = some u) : common.admits u = true := by
  obtain ⟨numeric, numeric'⟩ := isNumeric_of_upconvert found
  simp only [isNumeric, Bool.or_eq_true] at numeric numeric'
  rcases upconvert_cases found with ⟨unsigned, unsigned', rfl⟩ | ⟨floating, rfl⟩ | ⟨signed, exact', exact'', rfl⟩
  · obtain ⟨n, rfl⟩ := unsigned_of_admits unsigned first
    obtain ⟨k, rfl⟩ := unsigned_of_admits unsigned' second
    obtain ⟨word, -, rfl⟩ := Option.map_eq_some_iff.mp computed
    exact admits_unsigned64 word
  · have result : ∃ y, u = .float y := by
      rcases floating with floating | floating
      · obtain ⟨x, rfl⟩ := float_of_admits floating first
        exact arithmetic_float computed
      · obtain ⟨x, rfl⟩ := float_of_admits floating second
        exact arithmetic_float' computed
    obtain ⟨y, rfl⟩ := result
    rfl
  · have result : ∃ k, u = .signed k := by
      rcases signed with signed | signed
      · obtain ⟨n, rfl⟩ := signed_of_admits signed first
        rcases numeric' with (unsigned | signed') | floating
        · obtain ⟨k, rfl⟩ := unsigned_of_admits unsigned second
          exact signed_of_word computed
        · obtain ⟨k, rfl⟩ := signed_of_admits signed' second
          exact signed_of_word computed
        · cases exact''.symm.trans floating
      · obtain ⟨k, rfl⟩ := signed_of_admits signed second
        rcases numeric with (unsigned | signed') | floating
        · obtain ⟨n, rfl⟩ := unsigned_of_admits unsigned first
          exact signed_of_word computed
        · obtain ⟨n, rfl⟩ := signed_of_admits signed' first
          exact signed_of_word computed
        · cases exact'.symm.trans floating
    obtain ⟨k, rfl⟩ := result
    rfl

end Arithmetic

private theorem apply_admits {op : Operator} (arithmetical : op.resolve = commonType) (found : type.upconvert type' = some common)
    (first : type.admits v = true) (second : type'.admits w = true) (computed : op.apply v w = some u) :
    common.admits u = true := by
  cases op with
  | add | subtract | multiply => exact arithmetic_admits found first second computed
  | divide | less | greater | equal =>
    cases congrFun arithmetical [.unsigned8]

private theorem quotient_float (computed : quotient v w = some u) : ∃ x, u = .float x := by
  rw [quotient] at computed
  split at computed
  · split at computed
    · cases computed
    · split at computed
      · exact ⟨_, (Option.some.inj computed).symm⟩
      · cases computed
  · cases computed

private theorem resolve_two {op : Operator} (other : op.resolve ≠ commonType) {types : List FieldType}
    (resolved : op.resolve types = some common) : ∃ a b, types = [a, b] ∧
      ((op.apply = quotient ∧ common = .float64) ∨ ∃ order, op.apply = ordered order ∧ common = .boolean) := by
  cases op with
  | add | subtract | multiply => exact absurd rfl other
  | divide =>
    change quotientType types = some common at resolved
    unfold quotientType at resolved
    split at resolved
    next a b =>
      split at resolved
      · exact ⟨a, b, rfl, .inl ⟨rfl, (Option.some.inj resolved).symm⟩⟩
      · cases resolved
    next => cases resolved
  | less | greater | equal =>
    change comparisonType types = some common at resolved
    unfold comparisonType at resolved
    split at resolved
    next a b =>
      split at resolved
      · exact ⟨a, b, rfl, .inr ⟨_, rfl, (Option.some.inj resolved).symm⟩⟩
      · cases resolved
    next => cases resolved

/-- What an operator computes on values of some types is of the type resolved for it. -/
theorem evaluate_admits {op : Operator} {types : List FieldType} {values : List Value}
    (resolved : op.resolve types = some common) (each : List.Forall₂ (fun type v => type.admits v = true) types values)
    (computed : op.evaluate (values.map some) = some u) : common.admits u = true := by
  by_cases arithmetical : op.resolve = commonType
  · rw [arithmetical] at resolved
    cases each with
    | nil => cases resolved
    | cons first rest =>
      obtain ⟨wide, widened, folded⟩ := Option.bind_eq_some_iff.mp resolved
      rename_i type v types values
      have start := admits_widened widened first
      change (values.map some).foldlM (fun result arg => do op.apply result (← arg)) v = some u at computed
      clear widened resolved first
      -- each further value widens the type of the result as it is worked in
      induction rest generalizing wide v with
      | nil =>
        cases folded
        cases computed
        exact start
      | cons next others ih =>
        obtain ⟨wider, step, folded⟩ := Option.bind_eq_some_iff.mp folded
        rw [List.map_cons, List.foldlM_cons] at computed
        obtain ⟨result, applied, computed⟩ := Option.bind_eq_some_iff.mp computed
        exact ih wider folded (apply_admits arithmetical step start next applied) computed
  · obtain ⟨a, b, rfl, kind⟩ := resolve_two arithmetical resolved
    obtain ⟨v, others, -, second, rfl⟩ := List.forall₂_cons_left_iff.mp each
    obtain ⟨w, nothing, -, third, rfl⟩ := List.forall₂_cons_left_iff.mp second
    obtain rfl := List.forall₂_nil_left_iff.mp third
    have applied : op.apply v w = some u := by
      obtain ⟨result, applied, done⟩ := Option.bind_eq_some_iff.mp computed
      exact applied.trans done
    rcases kind with ⟨same, rfl⟩ | ⟨order, same, rfl⟩
    · rw [same] at applied
      obtain ⟨x, rfl⟩ := quotient_float applied
      rfl
    · rw [same] at applied
      obtain ⟨found, -, rfl⟩ := Option.map_eq_some_iff.mp applied
      rfl

/-- What an aggregate keeps is of the type resolved for it. -/
theorem step_admits {rule : Aggregate} (resolved : rule.resolve [type] = some common) {current : Option Value}
    (held : ∀ c, current = some c → common.admits c = true) (given : type.admits v = true)
    (kept : rule.step current v = some w) : common.admits w = true := by
  by_cases adds : rule = .sum
  · subst adds
    change type.upconvert type = some common at resolved
    cases current with
    | none =>
      cases kept
      exact admits_widened resolved given
    | some c =>
      have known := held c rfl
      change some ((Operator.add.apply c v).getD c) = some w at kept
      cases kept
      cases applied : Operator.add.apply c v with
      | none => exact known
      | some result => exact arithmetic_admits (upconvert_widened resolved) known given applied
  · have same : type = common := by
      cases rule with
      | sum => exact absurd rfl adds
      | min | max | first | last => exact Option.some.inj resolved
    subst same
    cases current with
    | none =>
      cases kept
      exact given
    | some c =>
      have known := held c rfl
      obtain rfl := Option.some.inj kept
      cases rule with
      | sum => exact absurd rfl adds
      | first => exact known
      | last => exact given
      | min | max =>
        rw [Aggregate.update]
        split
        · exact given
        · exact known

end Library

end FlowMetering
