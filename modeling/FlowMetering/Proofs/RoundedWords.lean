import FlowMetering.Value
import Mathlib

/-! What becomes of a word as a double. It goes to the nearest multiple of the spacing of doubles at its size, a half to the
even one, and two words compare as doubles like what they go to. -/

namespace FlowMetering.Rounding

open Float.Model Float.Model.UnpackedFloat

/-- The multiples of `2 ^ k` up to the one nearest to a number, a half going to the even one. -/
def quotient (n k : Nat) : Nat :=
  if 2 * (n % 2 ^ k) < 2 ^ k then n / 2 ^ k
  else if 2 * (n % 2 ^ k) = 2 ^ k then n / 2 ^ k + n / 2 ^ k % 2
  else n / 2 ^ k + 1

/-- The double nearest to a whole number, where doubles are whole numbers apart. -/
def nearest (n : Nat) : Nat :=
  quotient n (n.log2 - 52) * 2 ^ (n.log2 - 52)

theorem quotient_zero (n : Nat) : quotient n 0 = n := by
  simp [quotient, Nat.mod_one]

theorem quotient_bounds (n k : Nat) : n / 2 ^ k ≤ quotient n k ∧ quotient n k ≤ n / 2 ^ k + 1 := by
  unfold quotient
  split
  · omega
  · split <;> omega

/-- Bits that are shifted out are kept as the last one and whether any one below it is set. -/
theorem shiftRight_succ (n k : Nat) : (ExtendedMantissa.mk n false false >>> (k + 1) : ExtendedMantissa) =
    ⟨n / 2 ^ (k + 1), n / 2 ^ k % 2 != 0, n % 2 ^ k != 0⟩ := by
  change Nat.repeat ExtendedMantissa.shiftRightOne (k + 1) ⟨n, false, false⟩ = _
  induction k with
  | zero => simp [Nat.repeat, ExtendedMantissa.shiftRightOne, Nat.mod_one]
  | succ k ih =>
    rw [Nat.repeat, ih, ExtendedMantissa.shiftRightOne, ExtendedMantissa.mk.injEq]
    refine ⟨by rw [Nat.div_div_eq_div_mul, ← Nat.pow_succ], rfl, ?_⟩
    have split : n % 2 ^ (k + 1) = n % 2 ^ k + 2 ^ k * (n / 2 ^ k % 2) := by rw [Nat.pow_succ, Nat.mod_mul]
    have positive : 0 < 2 ^ k := Nat.two_pow_pos k
    rw [split]
    rcases Nat.mod_two_eq_zero_or_one (n / 2 ^ k) with even | odd
    · simp [even]
    · simp [odd]

theorem roundedMantissa_eq (m : Nat) (round sticky : Bool) : (ExtendedMantissa.mk m round sticky).roundedMantissa =
    if round then if sticky then m + 1 else m + m % 2 else m := by
  cases round <;> cases sticky <;> rfl

theorem roundedMantissa_shiftRight (n k : Nat) :
    (ExtendedMantissa.mk n false false >>> k : ExtendedMantissa).roundedMantissa = quotient n k := by
  cases k with
  | zero => exact (quotient_zero n).symm
  | succ k =>
    have split : n % 2 ^ (k + 1) = n % 2 ^ k + 2 ^ k * (n / 2 ^ k % 2) := by rw [Nat.pow_succ, Nat.mod_mul]
    have small : n % 2 ^ k < 2 ^ k := Nat.mod_lt n (Nat.two_pow_pos k)
    rw [shiftRight_succ, roundedMantissa_eq, quotient, split, Nat.pow_succ 2 k]
    simp only [bne_iff_ne]
    rcases Nat.mod_two_eq_zero_or_one (n / 2 ^ k) with even | odd
    · rw [even, Nat.mul_zero, Nat.add_zero, if_neg (by omega), if_pos (by omega)]
    · rw [odd, Nat.mul_one, if_pos Nat.one_ne_zero, if_neg (c := 2 * _ < _) (by omega)]
      by_cases half : n % 2 ^ k = 0
      · rw [if_neg (not_not.mpr half), if_pos (by omega)]
      · rw [if_pos half, if_neg (by omega)]

/-- A double in normal form: a significand of 53 bits, in units of `2 ^ (i - 52)`. -/
structure Normal (sign : Sign) (m i : Nat) (x : UnpackedFloat) : Prop where
  low : 2 ^ 52 ≤ m
  high : m < 2 ^ 53
  bound : i ≤ 64
  form : ∃ positive, x = .finite sign m ((i : Int) - 52) positive

theorem log2_significand {m : Nat} (low : 2 ^ 52 ≤ m) (high : m < 2 ^ 53) : m.log2 = 52 :=
  (Nat.log2_eq_iff (by omega)).mpr ⟨low, high⟩

/-- The exponent at which a whole number has a significand of 53 bits. -/
theorem targetExponent_eq (m : Nat) (e : Int) (low : 0 ≤ (m.log2 : Int) + e) :
    Format.binary64.targetExponent (totalExponent m e) = (m.log2 : Int) + e - 52 := by
  rw [Format.targetExponent, totalExponent]
  simp [Format.mantissaBits, Format.minExponent]
  omega

/-- A significand that already has 53 bits is not shifted any more. -/
theorem shift_of_normal {m : Nat} {e : Int} (low : 2 ^ 52 ≤ m) (high : m < 2 ^ 53) (above : -52 ≤ e) :
    shiftToTargetExponent .binary64 m e .exact = (⟨m, false, false⟩, e) := by
  have bits := log2_significand low high
  have none : (((m.log2 : Int) + e - 52) - e).toNat = 0 := by omega
  rw [shiftToTargetExponent, targetExponent_eq m e (by omega), shiftToExponent, none]
  simp only [ExtendedMantissa.ofMantissaAndAccuracy]
  exact Prod.ext rfl (Int.add_zero e)

/-- A significand that has been rounded up to 54 bits is halved. -/
theorem shift_of_carry {e : Int} (above : -52 ≤ e) :
    shiftToTargetExponent .binary64 (2 ^ 53) e .exact = (⟨2 ^ 52, false, false⟩, e + 1) := by
  have bits : (2 ^ 53 : Nat).log2 = 53 := Nat.log2_two_pow
  have one : ((((2 ^ 53 : Nat).log2 : Int) + e - 52) - e).toNat = 1 := by omega
  rw [shiftToTargetExponent, targetExponent_eq _ e (by omega), shiftToExponent, one]
  rfl

theorem log2_shifted {n d : Nat} (positive : 0 < n) : (n * 2 ^ d).log2 = n.log2 + d := by
  rw [Nat.log2_eq_iff (Nat.mul_ne_zero positive.ne' (Nat.two_pow_pos d).ne')]
  have low := Nat.log2_self_le positive.ne'
  have high := Nat.lt_log2_self (n := n)
  refine ⟨?_, ?_⟩
  · rw [Nat.pow_add]
    exact Nat.mul_le_mul_right _ low
  · rw [Nat.add_right_comm, Nat.pow_add]
    exact Nat.mul_lt_mul_of_pos_right high (Nat.two_pow_pos d)

/-- The number of units that a whole number is rounded to, before a carry. -/
def units (n : Nat) : Nat :=
  quotient (n * 2 ^ (52 - n.log2)) (n.log2 - 52)

theorem units_eq (n : Nat) : units n * 2 ^ n.log2 = nearest n * 2 ^ 52 := by
  rw [units, nearest]
  rcases Nat.le_total n.log2 52 with small | large
  · rw [Nat.sub_eq_zero_of_le small, quotient_zero, quotient_zero, Nat.pow_zero, Nat.mul_one, Nat.mul_assoc, ← Nat.pow_add,
      Nat.sub_add_cancel small]
  · rw [Nat.sub_eq_zero_of_le large, Nat.pow_zero, Nat.mul_one, Nat.mul_assoc, ← Nat.pow_add, Nat.sub_add_cancel large]

theorem units_bounds {n : Nat} (positive : 0 < n) : 2 ^ 52 ≤ units n ∧ units n ≤ 2 ^ 53 := by
  have bounds := quotient_bounds (n * 2 ^ (52 - n.log2)) (n.log2 - 52)
  have shifted := log2_shifted (d := 52 - n.log2) positive
  have low := Nat.log2_self_le (Nat.mul_ne_zero positive.ne' (Nat.two_pow_pos (52 - n.log2)).ne')
  have high := Nat.lt_log2_self (n := n * 2 ^ (52 - n.log2))
  rw [shifted] at low high
  rw [← units] at bounds
  have split : n.log2 + (52 - n.log2) = 52 + (n.log2 - 52) := by omega
  rw [split, Nat.pow_add] at low
  rw [split, Nat.add_right_comm, Nat.pow_add] at high
  exact ⟨((Nat.le_div_iff_mul_le (Nat.two_pow_pos _)).mpr low).trans bounds.1,
    bounds.2.trans (Nat.succ_le_of_lt ((Nat.div_lt_iff_lt_mul (Nat.two_pow_pos _)).mpr high))⟩

/-- A whole number is rounded to a normal double, and that one is the nearest. -/
theorem round_word (sign : Sign) {n : Nat} (positive : 0 < n) (word : n < 2 ^ 64) :
    ∃ m i, Normal sign m i (UnpackedFloat.round .binary64 sign n 0) ∧ m * 2 ^ i = nearest n * 2 ^ 52 := by
  have bits : n.log2 < 64 := (Nat.log2_lt positive.ne').mpr word
  have shifted := log2_shifted (d := 52 - n.log2) positive
  have bounds := units_bounds positive
  have left : ((0 : Int) - ((n.log2 : Int) + 0 - 52)).toNat = 52 - n.log2 := by omega
  have right : (((n.log2 + (52 - n.log2) : Nat) : Int) + (0 - ((52 - n.log2 : Nat) : Int)) - 52 - (0 - ((52 - n.log2 : Nat) : Int))).toNat =
      n.log2 - 52 := by omega
  have first : shiftToTargetExponent .binary64 (n * 2 ^ (52 - n.log2)) (0 - ((52 - n.log2 : Nat) : Int)) .exact =
      (ExtendedMantissa.mk (n * 2 ^ (52 - n.log2)) false false >>> (n.log2 - 52), (n.log2 : Int) - 52) := by
    rw [shiftToTargetExponent, targetExponent_eq _ _ (by omega), shiftToExponent, shifted, right]
    refine Prod.ext rfl ?_
    dsimp only
    omega
  rw [UnpackedFloat.round, targetExponent_eq n 0 (by omega), decreaseExponent, left, Nat.shiftLeft_eq]
  dsimp only
  rw [roundWithAccuracy, first]
  dsimp only
  rw [roundedMantissa_shiftRight, ← units]
  rcases Nat.lt_or_eq_of_le bounds.2 with below | carry
  · refine ⟨units n, n.log2, ⟨bounds.1, below, bits.le, ?_⟩, units_eq n⟩
    simp only [shift_of_normal bounds.1 below (by omega : -52 ≤ (n.log2 : Int) - 52)]
    exact ⟨by omega, dif_neg (by omega)⟩
  · refine ⟨2 ^ 52, n.log2 + 1, ⟨le_rfl, by decide, bits, ?_⟩, ?_⟩
    · simp only [carry, shift_of_carry (by omega : -52 ≤ (n.log2 : Int) - 52)]
      refine ⟨by decide, ?_⟩
      rw [dif_neg (by decide)]
      congr 1
      omega
    · rw [← units_eq, carry, Nat.pow_succ 2 n.log2, Nat.pow_succ 2 52]
      ring

theorem unpack_pack_eq (x : UnpackedFloat) :
    (pack x).unpack = UnpackedFloat.unpack .binary64 (UnpackedFloat.pack .binary64 x) := rfl

theorem unpackSign_packComponents {spec : Format} (sign : Sign) (exponent : BitVec spec.exponentBits)
    (significand : BitVec spec.mantissaBitsWithoutImplicit) :
    Sign.ofBitVec (unpackSign (packComponents spec sign exponent significand)) = sign := by
  have kept : unpackSign (packComponents spec sign exponent significand) = sign.toBitVec := by
    refine BitVec.eq_of_getLsbD_eq fun place inside => ?_
    obtain rfl : place = 0 := by omega
    simp [unpackSign, packComponents, BitVec.getLsbD_append, BitVec.getElem_append]
  rw [kept]
  cases sign <;> rfl

theorem unpack_packComponents (spec : Format) (sign : Sign) (exponent : BitVec spec.exponentBits)
    (significand : BitVec spec.mantissaBitsWithoutImplicit) (inner : exponent ≠ -1#_ ∧ exponent ≠ 0#_) :
    ∃ positive, UnpackedFloat.unpack spec (packComponents spec sign exponent significand) = .finite sign
      (1#1 ++ significand).toNat ((exponent.toNat : Int) - (spec.exponentBias + spec.mantissaBitsWithoutImplicit)) positive := by
  rw [UnpackedFloat.unpack]
  simp only [unpackMantissa_packComponents, unpackExponent_packComponents, unpackSign_packComponents]
  rw [if_neg inner.1, if_neg inner.2]
  exact ⟨by simp, rfl⟩

private theorem Normal.unpack_pack {sign : Sign} {m i : Nat} {x : UnpackedFloat} (normal : Normal sign m i x) :
    (pack x).unpack = x := by
  obtain ⟨low, high, bound, positive, rfl⟩ := normal
  have biased : ((i : Int) - 52 + Format.binary64.exponentBias + Format.binary64.mantissaBitsWithoutImplicit).toNat = i + 1023 := by
    simp [Format.exponentBias]
    omega
  have exponent : (BitVec.ofNat 11 (i + 1023)).toNat = i + 1023 := by
    rw [BitVec.toNat_ofNat, Nat.mod_eq_of_lt (by omega)]
  have inner : BitVec.ofNat 11 (i + 1023) ≠ -1#11 ∧ BitVec.ofNat 11 (i + 1023) ≠ 0#11 := by
    constructor
    · intro same
      rw [same] at exponent
      simp at exponent
      omega
    · intro same
      rw [same] at exponent
      simp at exponent
  have leading : (1#1 ++ BitVec.ofNat 52 m).toNat = m := by
    rw [BitVec.toNat_append, ← Nat.shiftLeft_add_eq_or_of_lt (BitVec.isLt _), BitVec.toNat_ofNat]
    simp [Nat.shiftLeft_eq]
    omega
  have packed : UnpackedFloat.pack .binary64 (.finite sign m ((i : Int) - 52) positive) =
      packComponents .binary64 sign (BitVec.ofNat 11 (i + 1023)) (BitVec.ofNat 52 m) := by
    rw [UnpackedFloat.pack, biased, if_neg (by simp; omega), if_pos (by rw [log2_significand low high]; rfl)]
  obtain ⟨some, unpacked⟩ := unpack_packComponents .binary64 sign _ (BitVec.ofNat 52 m) inner
  rw [unpack_pack_eq, packed, unpacked, UnpackedFloat.finite.injEq]
  refine ⟨rfl, leading, ?_⟩
  rw [exponent]
  simp [Format.exponentBias]
  omega

/-- The sizes of normal doubles are in the order of their exponents and significands. -/
theorem compare_normal {m i m' i' : Nat} (low : 2 ^ 52 ≤ m) (high : m < 2 ^ 53) (low' : 2 ^ 52 ≤ m') (high' : m' < 2 ^ 53) :
    (compare ((i : Int) - 52) ((i' : Int) - 52)).then (compare m m') = compare (m * 2 ^ i) (m' * 2 ^ i') := by
  have apart {m i m' i' : Nat} (high : m < 2 ^ 53) (low : 2 ^ 52 ≤ m') (before : i < i') : m * 2 ^ i < m' * 2 ^ i' := by
    calc m * 2 ^ i < 2 ^ 53 * 2 ^ i := Nat.mul_lt_mul_of_pos_right high (Nat.two_pow_pos i)
      _ = 2 ^ 52 * 2 ^ (i + 1) := by rw [Nat.pow_succ]; ring
      _ ≤ m' * 2 ^ i' := Nat.mul_le_mul low (Nat.pow_le_pow_right (by decide) before)
  rcases Nat.lt_trichotomy i i' with before | rfl | behind
  · rw [compare_lt_iff_lt.mpr (by omega : (i : Int) - 52 < (i' : Int) - 52), compare_lt_iff_lt.mpr (apart high low' before)]
    rfl
  · have positive : 0 < 2 ^ i := Nat.two_pow_pos i
    rw [compare_eq_iff_eq.mpr rfl, Ordering.then]
    rcases Nat.lt_trichotomy m m' with below | rfl | above
    · rw [compare_lt_iff_lt.mpr below, compare_lt_iff_lt.mpr (Nat.mul_lt_mul_of_pos_right below positive)]
    · rw [compare_eq_iff_eq.mpr rfl, compare_eq_iff_eq.mpr rfl]
    · rw [compare_gt_iff_gt.mpr above, compare_gt_iff_gt.mpr (Nat.mul_lt_mul_of_pos_right above positive)]
  · rw [compare_gt_iff_gt.mpr (by omega : (i : Int) - 52 > (i' : Int) - 52), compare_gt_iff_gt.mpr (apart high' low behind)]
    rfl

/-- A double that has the value of a whole number. -/
inductive Stands : UnpackedFloat → Int → Prop
  | zero (sign : Sign) : Stands (.zero sign) 0
  | positive {m i n : Nat} {x : UnpackedFloat} (normal : Normal .positive m i x) (value : m * 2 ^ i = n * 2 ^ 52) : Stands x n
  | negative {m i n : Nat} {x : UnpackedFloat} (normal : Normal .negative m i x) (value : m * 2 ^ i = n * 2 ^ 52) : Stands x (-n)

section Stands

variable {x y : UnpackedFloat} {a b : Int}

theorem positive_of_normal {sign : Sign} {m i n : Nat} (normal : Normal sign m i x) (value : m * 2 ^ i = n * 2 ^ 52) : 0 < n := by
  have some : 0 < m * 2 ^ i := Nat.mul_pos (by have := normal.low; omega) (Nat.two_pow_pos i)
  omega

private theorem Stands.unpack_pack (stands : Stands x a) : (pack x).unpack = x := by
  cases stands with
  | zero sign => cases sign <;> rfl
  | positive normal | negative normal => exact normal.unpack_pack

private theorem Stands.neg (stands : Stands x a) : Stands x.neg (-a) := by
  cases stands with
  | zero sign => exact .zero (-sign)
  | positive normal value =>
    obtain ⟨low, high, bound, positive, rfl⟩ := normal
    exact .negative ⟨low, high, bound, positive, rfl⟩ value
  | negative normal value =>
    obtain ⟨low, high, bound, positive, rfl⟩ := normal
    rw [Int.neg_neg]
    exact .positive ⟨low, high, bound, positive, rfl⟩ value

theorem compare_scaled (n n' : Nat) : compare (n * 2 ^ 52) (n' * 2 ^ 52) = compare (n : Int) (n' : Int) := by
  rcases Nat.lt_trichotomy n n' with below | rfl | above
  · rw [compare_lt_iff_lt.mpr (by omega), compare_lt_iff_lt.mpr (by omega)]
  · rw [compare_eq_iff_eq.mpr rfl, compare_eq_iff_eq.mpr rfl]
  · rw [compare_gt_iff_gt.mpr (by omega), compare_gt_iff_gt.mpr (by omega)]

theorem compare_neg_neg (a b : Int) : compare (-a) (-b) = (compare a b).swap := by
  rcases Int.lt_trichotomy a b with below | rfl | above
  · rw [compare_gt_iff_gt.mpr (by omega), compare_lt_iff_lt.mpr below]
    rfl
  · rw [compare_eq_iff_eq.mpr rfl, compare_eq_iff_eq.mpr rfl]
    rfl
  · rw [compare_lt_iff_lt.mpr (by omega), compare_gt_iff_gt.mpr above]
    rfl

private theorem Stands.compare (left : Stands x a) (right : Stands y b) : x.compare y = some (compare a b) := by
  cases left with
  | zero sign =>
    cases right with
    | zero sign' => rfl
    | positive normal value =>
      obtain ⟨some, rfl⟩ := normal.form
      rw [compare_lt_iff_lt.mpr (Int.natCast_pos.mpr (positive_of_normal normal value))]
      rfl
    | negative normal value =>
      obtain ⟨some, rfl⟩ := normal.form
      rw [compare_gt_iff_gt.mpr (Int.neg_neg_of_pos (Int.natCast_pos.mpr (positive_of_normal normal value)))]
      rfl
  | positive normal value =>
    have above := Int.natCast_pos.mpr (positive_of_normal normal value)
    obtain ⟨some, rfl⟩ := normal.form
    cases right with
    | zero sign' =>
      rw [compare_gt_iff_gt.mpr above]
      rfl
    | positive normal' value' =>
      obtain ⟨some', rfl⟩ := normal'.form
      rw [← compare_scaled, ← value, ← value', ← compare_normal normal.low normal.high normal'.low normal'.high]
      rfl
    | negative normal' value' =>
      obtain ⟨some', rfl⟩ := normal'.form
      rw [compare_gt_iff_gt.mpr (lt_trans (Int.neg_neg_of_pos (Int.natCast_pos.mpr (positive_of_normal normal' value'))) above)]
      rfl
  | negative normal value =>
    have below := Int.neg_neg_of_pos (Int.natCast_pos.mpr (positive_of_normal normal value))
    obtain ⟨some, rfl⟩ := normal.form
    cases right with
    | zero sign' =>
      rw [compare_lt_iff_lt.mpr below]
      rfl
    | positive normal' value' =>
      obtain ⟨some', rfl⟩ := normal'.form
      rw [compare_lt_iff_lt.mpr (lt_trans below (Int.natCast_pos.mpr (positive_of_normal normal' value')))]
      rfl
    | @negative _ _ n' _ normal' value' =>
      obtain ⟨some', rfl⟩ := normal'.form
      rw [compare_neg_neg, ← compare_scaled, ← value, ← value', ← compare_normal normal.low normal.high normal'.low normal'.high]
      rfl

end Stands

def nearestInt (n : Int) : Int :=
  if n < 0 then -(nearest n.natAbs : Int) else nearest n.natAbs

theorem stands_toFloat (word : UInt64) : Stands word.toFloat.toModel.unpack (nearest word.toNat) := by
  have unpacked : word.toFloat.toModel.unpack = (pack (UnpackedFloat.normalize .binary64 (word.toNat : Int) 0 .positive)).unpack := rfl
  have stands : Stands (UnpackedFloat.normalize .binary64 (word.toNat : Int) 0 .positive) (nearest word.toNat) := by
    rw [UnpackedFloat.normalize]
    rcases Nat.eq_zero_or_pos word.toNat with zero | positive
    · rw [zero]
      exact .zero .positive
    · rw [compare_gt_iff_gt.mpr (Int.natCast_pos.mpr positive), Int.toNat_natCast]
      obtain ⟨m, i, normal, value⟩ := round_word .positive positive word.toNat_lt
      exact .positive normal value
  rw [unpacked, stands.unpack_pack]
  exact stands

theorem stands_neg {x : Float} {a : Int} (stands : Stands x.toModel.unpack a) : Stands (-x).toModel.unpack (-a) := by
  have unpacked : (-x).toModel.unpack = (pack x.toModel.unpack.neg).unpack := rfl
  rw [unpacked, stands.neg.unpack_pack]
  exact stands.neg

theorem stands_floatOfInt64 (word : Int64) : Stands (Value.floatOfInt64 word).toModel.unpack (nearestInt word.toInt) := by
  have low := word.le_toInt
  have high := word.toInt_lt
  have size : word.toInt.natAbs.toUInt64.toNat = word.toInt.natAbs :=
    UInt64.toNat_ofNat_of_lt' (by have : UInt64.size = 2 ^ 64 := rfl; omega)
  have stands := stands_toFloat word.toInt.natAbs.toUInt64
  rw [size] at stands
  rw [Value.floatOfInt64, nearestInt]
  split
  · exact stands_neg stands
  · exact stands

theorem compareFloats_of_stands {x y : Float} {a b : Int} (left : Stands x.toModel.unpack a) (right : Stands y.toModel.unpack b) :
    Value.compareFloats x y = some (compare a b) := by
  have less {x y : Float} : x < y ↔ x.toModel.unpack.compare y.toModel.unpack = some .lt := by
    change decide ((x.toModel.unpack.compare y.toModel.unpack == some .lt) = true) = true ↔ _
    rw [decide_eq_true_iff, beq_iff_eq]
  have same : (x == y) = true ↔ x.toModel.unpack.compare y.toModel.unpack = some .eq := by
    change (x.toModel.unpack.compare y.toModel.unpack == some .eq) = true ↔ _
    exact beq_iff_eq
  simp only [Value.compareFloats, less, same, left.compare right, right.compare left, Option.some.injEq]
  rcases Int.lt_trichotomy a b with below | rfl | above
  · rw [if_pos (compare_lt_iff_lt.mpr below), compare_lt_iff_lt.mpr below]
  · rw [compare_eq_iff_eq.mpr rfl]
    rfl
  · rw [compare_gt_iff_gt.mpr above, compare_lt_iff_lt.mpr above]
    rfl

/-- The whole number that a word becomes as a double, by its sort. -/
theorem stands_asFloat {v : Value} {n : Int} (denotes : v.whole? = some n) :
    ∃ x, v.asFloat = some x ∧ Stands x.toModel.unpack (nearestInt n) := by
  cases v with
  | signed word =>
    cases denotes
    exact ⟨_, rfl, stands_floatOfInt64 word⟩
  | unsigned word =>
    cases denotes
    refine ⟨_, rfl, ?_⟩
    rw [nearestInt, if_neg (by omega)]
    exact stands_toFloat word
  | boolean | float | address | bytes | text => cases denotes

end FlowMetering.Rounding
