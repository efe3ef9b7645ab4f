import FlowMetering.Decimal.Style
import Mathlib.Algebra.Order.Field.Power
import Mathlib.Data.List.Basic
import Mathlib.Data.Rat.Cast.Order
import Mathlib.Tactic.Linarith
import Mathlib.Tactic.Ring

/-! Texts of decimals. A text with its point among the digits tells the number that it stands for. -/

namespace FlowMetering.Decimal

def number (d : Decimal) : ℚ :=
  d.digits * 10 ^ d.exponent

theorem number_trimmed (d : Decimal) : d.trimmed.number = d.number := by
  induction d using trimmed.induct with
  | case1 d held ih =>
    rw [trimmed, dif_pos held, ih, number, number]
    have whole : (d.digits : ℚ) = 10 * (d.digits / 10 : Nat) := by
      have divided : d.digits = 10 * (d.digits / 10) := by omega
      exact_mod_cast divided
    rw [zpow_add_one₀ (by norm_num : (10 : ℚ) ≠ 0), whole]
    ring
  | case2 d done => rw [trimmed, dif_neg done]

theorem point_not_mem_toDigits (n : Nat) : '.' ∉ Nat.toDigits 10 n := fun member =>
  absurd (Nat.isDigit_of_mem_toDigits (by decide) (by decide) member) (by decide)

/-- Without a fraction the text has no point, and it spells the number. -/
theorem positional_whole {d : Decimal} (whole : 0 ≤ d.exponent) :
    '.' ∉ (d.positional false).toList ∧
      Nat.ofDigitChars 10 (d.positional false).toList 0 = d.digits * 10 ^ d.exponent.toNat := by
  have shown : (d.positional false).toList = Nat.toDigits 10 d.digits ++ List.replicate d.exponent.toNat '0' := by
    rw [positional, String.toList_ofList, if_pos whole]
    simp
  rw [shown]
  refine ⟨fun member => ?_, ?_⟩
  · rcases List.mem_append.mp member with member | member
    · exact point_not_mem_toDigits _ member
    · exact absurd (List.eq_of_mem_replicate member) (by decide)
  · rw [Nat.ofDigitChars_append, Nat.ofDigitChars_toDigits (by decide) (by decide), Nat.ofDigitChars_replicate_zero, Nat.mul_comm]

/-- With a fraction there are as many signs behind the point as the exponent says. -/
theorem positional_fraction {d : Decimal} (fraction : d.exponent < 0) : ∃ front back : List Char,
    (d.positional false).toList = front ++ '.' :: back ∧ '.' ∉ front ∧ '.' ∉ back ∧
      back.length = (-d.exponent).toNat ∧ Nat.ofDigitChars 10 (front ++ back) 0 = d.digits := by
  rw [positional, String.toList_ofList, if_neg (by omega)]
  dsimp only
  split
  next inside =>
    refine ⟨_, _, rfl, fun member => point_not_mem_toDigits _ (List.mem_of_mem_take member),
      fun member => point_not_mem_toDigits _ (List.mem_of_mem_drop member), ?_, ?_⟩
    · rw [List.length_drop]
      omega
    · rw [List.take_append_drop, Nat.ofDigitChars_toDigits (by decide) (by decide)]
  next outside =>
    refine ⟨['0'], List.replicate ((-d.exponent).toNat - (Nat.toDigits 10 d.digits).length) '0' ++ Nat.toDigits 10 d.digits,
      rfl, by decide, fun member => ?_, ?_, ?_⟩
    · rcases List.mem_append.mp member with member | member
      · exact absurd (List.eq_of_mem_replicate member) (by decide)
      · exact point_not_mem_toDigits _ member
    · rw [List.length_append, List.length_replicate]
      omega
    · rw [Nat.ofDigitChars_append, Nat.ofDigitChars_append, show Nat.ofDigitChars 10 ['0'] 0 = 0 from rfl,
        Nat.ofDigitChars_replicate_zero, Nat.mul_zero, Nat.ofDigitChars_toDigits (by decide) (by decide)]

theorem number_of_whole {d : Decimal} (whole : 0 ≤ d.exponent) :
    d.number = (Nat.ofDigitChars 10 (d.positional false).toList 0 : Nat) := by
  rw [(positional_whole whole).2, number]
  obtain ⟨k, power⟩ := Int.eq_ofNat_of_zero_le whole
  rw [power]
  simp

/-- Decimals with one text are one number. -/
theorem number_of_positional {d d' : Decimal} (same : d.positional false = d'.positional false) : d.number = d'.number := by
  have pointed {d d' : Decimal} (whole : 0 ≤ d.exponent) (fraction : d'.exponent < 0) :
      d.positional false ≠ d'.positional false := by
    intro same
    obtain ⟨front, back, shown, -, -, -, -⟩ := positional_fraction fraction
    refine (positional_whole whole).1 ?_
    rw [same, shown]
    simp
  by_cases whole : 0 ≤ d.exponent
  · by_cases whole' : 0 ≤ d'.exponent
    · rw [number_of_whole whole, number_of_whole whole', same]
    · exact absurd same (pointed whole (by omega))
  · by_cases whole' : 0 ≤ d'.exponent
    · exact absurd same.symm (pointed whole' (by omega))
    · obtain ⟨front, back, shown, ahead, behind, places, digits⟩ := positional_fraction (d := d) (by omega)
      obtain ⟨front', back', shown', ahead', behind', places', digits'⟩ := positional_fraction (d := d') (by omega)
      obtain ⟨rfl, -, rfl⟩ := (List.append_cons_inj_of_notMem ahead behind).mp
        (shown.symm.trans ((congrArg String.toList same).trans shown'))
      have exponents : d.exponent = d'.exponent := by omega
      rw [number, number, exponents, ← digits, ← digits']

end FlowMetering.Decimal
