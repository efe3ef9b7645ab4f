/-!
Whole numbers in words of 64 bits. A whole number has a word of either sort exactly if it lies in the range of
that sort, and then only one.
-/

namespace FlowMetering.Word

/-- The largest unsigned word. -/
def maxUnsigned : Nat := 0xffffffffffffffff

/-- A whole number as an unsigned word, if it fits one. -/
def unsigned? (n : Int) : Option UInt64 :=
  if 0 ≤ n ∧ n ≤ 0xffffffffffffffff then some n.toNat.toUInt64 else none

/-- A whole number as a signed word, if it fits one. -/
def signed? (n : Int) : Option Int64 :=
  if -0x8000000000000000 ≤ n ∧ n ≤ 0x7fffffffffffffff then some (Int64.ofInt n) else none

theorem unsigned?_eq_some_iff {n : Int} {w : UInt64} : unsigned? n = some w ↔ (w.toNat : Int) = n := by
  have bound := w.toNat_lt
  unfold unsigned?
  constructor
  · intro fits
    split at fits
    · cases fits
      rename_i range
      have : n.toNat < 18446744073709551616 := by omega
      simp only [Nat.toUInt64_eq, UInt64.toNat_ofNat_of_lt' this]
      omega
    · cases fits
  · rintro rfl
    rw [if_pos (by omega)]
    simp

theorem signed?_eq_some_iff {n : Int} {w : Int64} : signed? n = some w ↔ w.toInt = n := by
  have low := w.le_toInt
  have high := w.toInt_lt
  unfold signed?
  constructor
  · intro fits
    split at fits
    · cases fits
      rename_i range
      exact Int64.toInt_ofInt_of_le (by omega) (by omega)
    · cases fits
  · rintro rfl
    rw [if_pos (by omega)]
    simp

end FlowMetering.Word
