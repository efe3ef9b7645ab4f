import FlowMetering.Proofs.DecimalTexts

/-! Shortest decimals read back. The search ends on a grid that is finer than the distance of a double to its rounding
bounds, and there the point below the double lies between them. -/

namespace FlowMetering

private theorem pow_div_pow (b : Nat) (g : Int) :
    ((b ^ g.toNat : Nat) : ℚ) / ((b ^ (-g).toNat : Nat) : ℚ) = (b : ℚ) ^ g := by
  rcases Int.eq_nat_or_neg g with ⟨n, rfl | rfl⟩
  · simp
  · simp

private theorem lt_pow_digitCount (n : Nat) : n < 10 ^ digitCount n :=
  (Nat.length_toDigits_le_iff (by decide) Nat.length_toDigits_pos).mp (Nat.le_refl _)

private theorem pow_digitCount_le {n : Nat} (positive : 0 < n) : 10 ^ (digitCount n - 1) ≤ n := by
  by_cases one : digitCount n - 1 = 0
  · rw [one]
    exact positive
  · refine Nat.le_of_not_lt fun small => ?_
    have short := (Nat.length_toDigits_le_iff (by decide) (Nat.pos_of_ne_zero one)).mpr small
    rw [← digitCount] at short
    omega

namespace Interval

variable {i : Interval}

def low (i : Interval) : ℚ := i.lower / i.denominator

def middle (i : Interval) : ℚ := i.value / i.denominator

def high (i : Interval) : ℚ := i.upper / i.denominator

/-- The numbers that read back as the value. -/
def Reads (i : Interval) (q : ℚ) : Prop :=
  if i.closed then i.low ≤ q ∧ q ≤ i.high else i.low < q ∧ q < i.high

theorem reads_of_inside {q : ℚ} (above : i.low < q) (below : q < i.high) : i.Reads q := by
  rw [Reads]
  split
  · exact ⟨above.le, below.le⟩
  · exact ⟨above, below⟩

/-- On a grid points and bounds are numbers over one denominator. -/
theorem point_eq (positive : 0 < i.denominator) (n : Nat) (g : Int) :
    ((n * (i.onGrid g).denominator : Nat) : ℚ) / (i.denominator * Nat.pow 10 (-g).toNat : Nat) = n * 10 ^ g := by
  have unit : (i.denominator : ℚ) ≠ 0 := by positivity
  have power := pow_div_pow 10 g
  rw [Nat.cast_ofNat] at power
  rw [← power, onGrid]
  simp only [Nat.pow_eq, Nat.cast_mul]
  rw [mul_left_comm, mul_div_mul_left _ _ unit, mul_div_assoc]

theorem bound_eq (bound : Nat) (g : Int) :
    ((bound * Nat.pow 10 (-g).toNat : Nat) : ℚ) / (i.denominator * Nat.pow 10 (-g).toNat : Nat) =
      bound / i.denominator := by
  rw [Nat.cast_mul, Nat.cast_mul, Nat.pow_eq, mul_div_mul_right _ _ (by positivity)]

/-- A point of a grid holds exactly if its number reads back. -/
theorem holds_iff (positive : 0 < i.denominator) (n : Nat) (g : Int) :
    (i.onGrid g).holds n = true ↔ i.Reads (n * 10 ^ g) := by
  have scale : (0 : ℚ) < (i.denominator * Nat.pow 10 (-g).toNat : Nat) := by
    rw [Nat.pow_eq]
    positivity
  rw [holds, Reads, low, high, ← point_eq positive, ← bound_eq i.lower g, ← bound_eq i.upper g]
  simp only [div_le_div_iff_of_pos_right scale, div_lt_div_iff_of_pos_right scale, Nat.cast_le, Nat.cast_lt]
  change (if i.closed then _ else _) = true ↔ _
  split
  · rw [Bool.and_eq_true, decide_eq_true_iff, decide_eq_true_iff]
    rfl
  · rw [Bool.and_eq_true, decide_eq_true_iff, decide_eq_true_iff]
    rfl

theorem holds_below (positive : 0 < i.denominator) {g : Int} (fine : 10 ^ g ≤ i.middle - i.low) (above : i.middle < i.high) :
    (i.onGrid g).holds ((i.onGrid g).value / (i.onGrid g).denominator) = true := by
  have unit : 0 < (i.onGrid g).denominator := Nat.mul_pos positive (Nat.pow_pos (by decide))
  have scale : (0 : ℚ) < (i.denominator * Nat.pow 10 (-g).toNat : Nat) := by
    rw [Nat.pow_eq]
    positivity
  generalize point : (i.onGrid g).value / (i.onGrid g).denominator = n
  have below : (n : ℚ) * 10 ^ g ≤ i.middle := by
    rw [middle, ← point_eq positive, ← bound_eq i.value g, div_le_div_iff_of_pos_right scale, Nat.cast_le, ← point]
    exact Nat.div_mul_le_self _ _
  have next : i.middle < ((n + 1 : Nat) : ℚ) * 10 ^ g := by
    rw [middle, ← point_eq positive, ← bound_eq i.value g, div_lt_div_iff_of_pos_right scale, Nat.cast_lt, ← point,
      Nat.mul_comm (_ + 1)]
    exact Nat.lt_mul_div_succ _ unit
  rw [holds_iff positive]
  rw [Nat.cast_add, Nat.cast_one, add_mul, one_mul] at next
  exact reads_of_inside (by linarith) (by linarith)

theorem holds_of_whole? {tie : Decimal.Tie} {n : Nat} (found : i.whole? tie = some n) : i.holds n = true := by
  rw [whole?.eq_def] at found
  dsimp only at found
  split at found
  next => cases found
  next below above => cases found; exact below
  next below above => cases found; exact above
  next below above =>
    split at found
    next => cases found; exact below
    next => cases found; exact above
    next =>
      cases tie with
      | up => cases found; exact above
      | toEven =>
        obtain rfl := Option.some.inj found
        split
        · exact below
        · exact above

theorem whole?_of_holds {tie : Decimal.Tie} (below : i.holds (i.value / i.denominator) = true) : i.whole? tie ≠ none := by
  intro missing
  rw [whole?.eq_def] at missing
  dsimp only at missing
  rw [below] at missing
  cases above : i.holds (i.value / i.denominator + 1) with
  | false =>
    rw [above] at missing
    cases missing
  | true =>
    rw [above] at missing
    dsimp only at missing
    split at missing
    · cases missing
    · cases missing
    · cases tie <;> cases missing

/-- The search ends with a number that reads back, if a grid that it comes to is fine enough. -/
theorem search_reads (positive : 0 < i.denominator) (tie : Decimal.Tie) (above : i.middle < i.high) (steps : Nat)
    (grid : Int) (fine : (10 : ℚ) ^ (grid - steps) ≤ i.middle - i.low) :
    i.Reads (i.search tie (steps + 1) grid).number := by
  induction steps generalizing grid with
  | zero =>
    rw [search]
    split
    next n found => exact (holds_iff positive n grid).mp (holds_of_whole? found)
    next missing =>
      refine absurd missing (whole?_of_holds (holds_below positive ?_ above))
      simpa using fine
  | succ steps ih =>
    rw [search]
    split
    next n found => exact (holds_iff positive n grid).mp (holds_of_whole? found)
    next =>
      refine ih (grid - 1) ?_
      rwa [show grid - 1 - (steps : Int) = grid - ((steps + 1 : Nat) : Int) by omega]

/-- The coarsest grid is that of the leading digit. -/
theorem coarsest_le (positive : 0 < i.denominator) (some : 0 < i.value) : (10 : ℚ) ^ (i.coarsest - 1) ≤ i.middle := by
  have unit : (0 : ℚ) < i.denominator := by exact_mod_cast positive
  rw [coarsest, middle, le_div_iff₀ unit]
  split
  next large =>
    have leading := pow_digitCount_le (Nat.div_pos large positive)
    have whole : 10 ^ (digitCount (i.value / i.denominator) - 1) * i.denominator ≤ i.value :=
      (Nat.mul_le_mul_right _ leading).trans (Nat.div_mul_le_self _ _)
    have count : 0 < digitCount (i.value / i.denominator) := Nat.length_toDigits_pos
    rw [show (digitCount (i.value / i.denominator) : Int) - 1 = ((digitCount (i.value / i.denominator) - 1 : Nat) : Int) by
      omega, zpow_natCast]
    exact_mod_cast whole
  next small =>
    have leading := lt_pow_digitCount (i.denominator / i.value)
    have whole : i.denominator ≤ i.value * 10 ^ digitCount (i.denominator / i.value) :=
      (Nat.lt_mul_div_succ i.denominator some).le.trans (Nat.mul_le_mul_left _ leading)
    rw [show 1 - (digitCount (i.denominator / i.value) : Int) - 1 = -(digitCount (i.denominator / i.value) : Int) by omega,
      zpow_neg, zpow_natCast, inv_mul_le_iff₀ (by positivity), mul_comm]
    exact_mod_cast whole

end Interval

structure Binary.Proper (x : Binary) : Prop where
  positive : 0 < x.significand
  small : x.significand < 2 ^ 53
  narrow : x.narrow = true → x.significand = 2 ^ 52

namespace Binary.Proper

variable {x : Binary}

private theorem denominator (x : Binary) : 0 < x.interval.denominator :=
  Nat.pow_pos (by decide)

def unit (x : Binary) : ℚ := 2 ^ (x.exponent - 2)

private theorem over_denominator (x : Binary) (n : Nat) :
    ((n * Nat.pow 2 (x.exponent - 2).toNat : Nat) : ℚ) / x.interval.denominator = n * unit x := by
  have power := pow_div_pow 2 (x.exponent - 2)
  rw [Nat.cast_ofNat, neg_sub] at power
  rw [unit, ← power, interval, Nat.cast_mul, mul_div_assoc]
  rfl

theorem low_eq (x : Binary) : x.interval.low = ((4 * x.significand - if x.narrow then 1 else 2 : Nat) : ℚ) * unit x :=
  over_denominator x _

private theorem middle_eq (x : Binary) : x.interval.middle = ((4 * x.significand : Nat) : ℚ) * unit x :=
  over_denominator x _

theorem high_eq (x : Binary) : x.interval.high = ((4 * x.significand + 2 : Nat) : ℚ) * unit x :=
  over_denominator x _

/-- The shortest decimal of a double reads back as the double. -/
theorem shortest_reads (proper : x.Proper) (tie : Decimal.Tie) : x.interval.Reads (shortest tie x).number := by
  have positive : 0 < unit x := by
    rw [unit]
    positivity
  have above : x.interval.middle < x.interval.high := by
    rw [middle_eq, high_eq]
    exact mul_lt_mul_of_pos_right (by exact_mod_cast Nat.lt_add_of_pos_right (by decide)) positive
  have close : x.interval.middle ≤ 2 ^ 54 * (x.interval.middle - x.interval.low) := by
    rw [middle_eq, low_eq, ← sub_mul, ← mul_assoc]
    refine mul_le_mul_of_nonneg_right ?_ positive.le
    have some := proper.positive
    have few := proper.small
    split
    next narrow =>
      have least := proper.narrow narrow
      rw [Nat.cast_sub (by omega), least]
      norm_num
    next =>
      rw [Nat.cast_sub (by omega), sub_sub_cancel]
      exact_mod_cast (by omega : 4 * x.significand ≤ 2 ^ 54 * 2)
  have leading := Interval.coarsest_le (denominator x) (i := x.interval)
    (Nat.mul_pos (Nat.mul_pos (by decide) proper.positive) (Nat.pow_pos (by decide)))
  rw [shortest, Decimal.number_trimmed]
  refine Interval.search_reads (denominator x) tie above 18 _ ?_
  rw [show x.interval.coarsest - ((18 : Nat) : Int) = x.interval.coarsest - 1 - 17 by omega,
    zpow_sub₀ (by norm_num), div_le_iff₀ (by norm_num)]
  refine leading.trans (close.trans ?_)
  rw [mul_comm]
  refine mul_le_mul_of_nonneg_left (by norm_num) ?_
  rw [low_eq, middle_eq, ← sub_mul]
  refine mul_nonneg (sub_nonneg.mpr ?_) positive.le
  exact_mod_cast Nat.sub_le _ _

end Binary.Proper

end FlowMetering
