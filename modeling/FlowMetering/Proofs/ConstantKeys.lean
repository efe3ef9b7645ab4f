import FlowMetering.Proofs.DoubleTexts
import FlowMetering.Proofs.RegisterKeys

/-! The keys of constants. A key tells the sort of a constant and shows it in full. -/

namespace FlowMetering

private theorem natRepr_inj {m n : Nat} (same : m.repr = n.repr) : m = n := by
  have digits := congrArg String.toList same
  rw [Nat.toList_repr, Nat.toList_repr] at digits
  exact toDigits_inj digits

private theorem intRepr_inj {m n : Int} (same : m.repr = n.repr) : m = n := by
  have apart (a b : Nat) : a.repr ≠ "-" ++ b.repr := by
    intro same
    have digits := congrArg String.toList same
    rw [Nat.toList_repr, String.toList_append] at digits
    have minus : '-' ∈ Nat.toDigits 10 a := digits ▸ List.mem_append_left _ (List.mem_singleton_self _)
    exact absurd (Nat.isDigit_of_mem_toDigits (by decide) (by decide) minus) (by decide)
  rw [Int.repr_eq_if, Int.repr_eq_if] at same
  split at same
  · split at same
    · have size := natRepr_inj same
      omega
    · exact absurd same (apart _ _)
  · split at same
    · exact absurd same.symm (apart _ _)
    · have texts := congrArg String.toList same
      rw [String.toList_append, String.toList_append] at texts
      have size := natRepr_inj (String.toList_inj.mp (List.append_cancel_left texts))
      omega

theorem Value.IsScalar.display_inj {value other : Value} (scalar : value.IsScalar) (scalar' : other.IsScalar)
    (sort : value.naturalType = other.naturalType) (same : value.display = other.display) : value = other := by
  cases value with
  | boolean b =>
    cases other with
    | boolean b' => cases b <;> cases b' <;> first | rfl | exact absurd same (by decide)
    | signed | unsigned | float | bytes | text => cases sort
    | address a => cases scalar'
  | signed n =>
    cases other with
    | signed n' =>
      rw [display, display, Int.toString_eq_repr, Int.toString_eq_repr] at same
      exact congrArg signed (Int64.toInt_inj.mp (intRepr_inj same))
    | boolean | unsigned | float | bytes | text => cases sort
    | address a => cases scalar'
  | unsigned n =>
    cases other with
    | unsigned n' =>
      rw [display, display, Nat.toString_eq_repr, Nat.toString_eq_repr] at same
      exact congrArg unsigned (UInt64.toNat_inj.mp (natRepr_inj same))
    | boolean | signed | float | bytes | text => cases sort
    | address a => cases scalar'
  | float x =>
    cases other with
    | float y => exact congrArg float (float_of_text same)
    | boolean | signed | unsigned | bytes | text => cases sort
    | address a => cases scalar'
  | address a => cases scalar
  | bytes octets => cases scalar
  | text s => cases scalar

/-- Two scalar constants have one key only if they are one value. -/
theorem constantKey_inj {value other : Value} (scalar : value.IsScalar) (scalar' : other.IsScalar)
    (same : Typed.constantKey value = Typed.constantKey other) : value = other := by
  have unmarked {value : Value} (scalar : value.IsScalar) : ':' ∉ value.display.toList := fun member =>
    (scalar.plain_display ':' member).not_reserved (by decide)
  have parts (value : Value) : (Typed.constantKey value).toList =
      ("const:".toList ++ value.naturalType.name.toList) ++ ':' :: value.display.toList := by
    rw [Typed.constantKey, String.toList_append, String.toList_append, String.toList_append, List.append_assoc]
    rfl
  have texts := congrArg String.toList same
  rw [parts, parts] at texts
  obtain ⟨sorts, displays⟩ := append_cons_last (unmarked scalar) (unmarked scalar') texts
  have sort : value.naturalType.name = other.naturalType.name := String.toList_inj.mp (List.append_cancel_left sorts)
  have named := FieldType.ofName?_name value.naturalType
  rw [sort, FieldType.ofName?_name] at named
  exact scalar.display_inj scalar' (Option.some.inj named).symm (String.toList_inj.mp displays)

end FlowMetering
