import FlowMetering.Proofs.RoundedWords
import FlowMetering.Proofs.WholeArithmetic

/-! The order of whole numbers. Words compare as the numbers that they denote, but for an unsigned word just above the signed
range and a signed one just below its end: these go to the same double and count as equal. -/

namespace FlowMetering

namespace Rounding

theorem nearest_of_log2 {n bits : Nat} (size : n.log2 = bits + 52) : nearest n = quotient n bits * 2 ^ bits := by
  rw [nearest, size, Nat.add_sub_cancel]

/-- A word above the signed range goes to the end of that range only if it is within half a unit of it. -/
theorem nearest_beyond {n : Nat} (beyond : 2 ^ 63 ≤ n) (word : n < 2 ^ 64) :
    2 ^ 63 ≤ nearest n ∧ (nearest n = 2 ^ 63 ↔ n ≤ 2 ^ 63 + 1024) := by
  have size : n.log2 = 11 + 52 := (Nat.log2_eq_iff (by omega)).mpr ⟨beyond, word⟩
  rw [nearest_of_log2 size, quotient]
  split
  · omega
  · split <;> omega

/-- A word in the signed range goes to its end only from the last half unit. Units are half as wide there. -/
theorem nearest_within {n : Nat} (within : n < 2 ^ 63) :
    nearest n ≤ 2 ^ 63 ∧ (nearest n = 2 ^ 63 ↔ 2 ^ 63 - 512 ≤ n) := by
  by_cases large : 2 ^ 62 ≤ n
  · have size : n.log2 = 10 + 52 := (Nat.log2_eq_iff (by omega)).mpr ⟨large, within⟩
    rw [nearest_of_log2 size, quotient]
    split
    · omega
    · split <;> omega
  · have near : nearest n ≤ n + 2 ^ (n.log2 - 52) := by
      calc nearest n ≤ (n / 2 ^ (n.log2 - 52) + 1) * 2 ^ (n.log2 - 52) := Nat.mul_le_mul_right _ (quotient_bounds n _).2
        _ = n / 2 ^ (n.log2 - 52) * 2 ^ (n.log2 - 52) + 2 ^ (n.log2 - 52) := Nat.succ_mul _ _
        _ ≤ n + 2 ^ (n.log2 - 52) := Nat.add_le_add_right (Nat.div_mul_le_self n _) _
    have bits : n.log2 - 52 ≤ 10 := by
      rcases Nat.eq_zero_or_pos n with rfl | positive
      · decide
      · have := (Nat.log2_lt positive.ne').mpr within
        omega
    have unit : 2 ^ (n.log2 - 52) ≤ 2 ^ 10 := Nat.pow_le_pow_right (by decide) bits
    omega

end Rounding

namespace Value

/-- An unsigned word beyond the signed range and a signed one that go to the same double. -/
def Blurred : Value → Value → Prop
  | .unsigned n, .signed m | .signed m, .unsigned n =>
    2 ^ 63 ≤ n.toNat ∧ n.toNat ≤ 2 ^ 63 + 1024 ∧ 2 ^ 63 - 512 ≤ m.toInt
  | _, _ => False

instance (a b : Value) : Decidable (Blurred a b) := by
  unfold Blurred
  split <;> infer_instance

private theorem Blurred.symm {a b : Value} (blurred : Blurred a b) : Blurred b a := by
  cases a <;> cases b <;> exact blurred

/-- Beyond the signed range the doubles decide, and they are apart but for the blur. -/
theorem compare_nearest {n : Nat} {m : Int} (beyond : 2 ^ 63 ≤ n) (word : n < 2 ^ 64) (high : m < 2 ^ 63) :
    Ord.compare (Rounding.nearestInt n) (Rounding.nearestInt m) =
      if n ≤ 2 ^ 63 + 1024 ∧ 2 ^ 63 - 512 ≤ m then .eq else .gt := by
  obtain ⟨low, touches⟩ := Rounding.nearest_beyond beyond word
  have left : Rounding.nearestInt n = Rounding.nearest n := by
    rw [Rounding.nearestInt, if_neg (by omega), Int.natAbs_natCast]
  rw [left, Rounding.nearestInt]
  by_cases negative : m < 0
  · rw [if_pos negative, if_neg (by omega), compare_gt_iff_gt]
    omega
  · obtain ⟨high', touches'⟩ := Rounding.nearest_within (n := m.natAbs) (by omega)
    rw [if_neg negative]
    split
    · rw [compare_eq_iff_eq]
      omega
    · rw [compare_gt_iff_gt]
      omega

/-- Words of both signednesses. Within the signed range they compare as whole numbers, beyond it as doubles. -/
theorem compare_mixed (n : UInt64) (m : Int64) :
    (unsigned n).compare (signed m) =
        some (if Blurred (.unsigned n) (.signed m) then .eq else Ord.compare (n.toNat : Int) m.toInt) ∧
      (signed m).compare (unsigned n) = ((unsigned n).compare (signed m)).map Ordering.swap := by
  have word := n.toNat_lt
  have high := m.toInt_lt
  have own : (signed m).asInt64 = some m := Word.signed?_eq_some_iff.mpr rfl
  by_cases beyond : 2 ^ 63 ≤ n.toNat
  · have none : (unsigned n).asInt64 = none := if_neg (by omega)
    obtain ⟨x, float, stands⟩ := Rounding.stands_asFloat (v := unsigned n) rfl
    obtain ⟨y, float', stands'⟩ := Rounding.stands_asFloat (v := signed m) rfl
    have forth : (unsigned n).compare (signed m) = compareFloats x y := by
      simp [compare, isNumeric, none, float, float']
    have back : (signed m).compare (unsigned n) = compareFloats y x := by
      simp [compare, isNumeric, own, none, float, float']
    have exact : Ord.compare (n.toNat : Int) m.toInt = .gt := compare_gt_iff_gt.mpr (by omega)
    rw [forth, back, Rounding.compareFloats_of_stands stands stands', Rounding.compareFloats_of_stands stands' stands,
      Option.map_some, ← Std.OrientedOrd.eq_swap, compare_nearest beyond word high, exact]
    simp only [Blurred, beyond, true_and]
  · have some : ∃ own', (unsigned n).asInt64 = some own' ∧ own'.toInt = n.toNat := by
      obtain ⟨own', found⟩ : ∃ own', Word.signed? n.toNat = some own' := ⟨_, if_pos (by omega)⟩
      exact ⟨own', found, Word.signed?_eq_some_iff.mp found⟩
    obtain ⟨own', found, same⟩ := some
    have apart : ¬ Blurred (.unsigned n) (.signed m) := fun blurred => beyond blurred.1
    have forth : (unsigned n).compare (signed m) = .some (Ord.compare (n.toNat : Int) m.toInt) := by
      simp [compare, isNumeric, own, found, same]
    have back : (signed m).compare (unsigned n) = .some (Ord.compare m.toInt (n.toNat : Int)) := by
      simp [compare, isNumeric, own, found, same]
    rw [forth, back, if_neg apart, Option.map_some, ← Std.OrientedOrd.eq_swap]
    exact ⟨rfl, rfl⟩

theorem compare_words (n m : UInt64) : Ord.compare n m = Ord.compare (n.toNat : Int) (m.toNat : Int) := by
  change compareOfLessAndEq n m = compareOfLessAndEq (n.toNat : Int) (m.toNat : Int)
  simp only [compareOfLessAndEq, UInt64.lt_iff_toNat_lt, Int.ofNat_lt, Int.natCast_inj, UInt64.toNat_inj]

variable {a b c : Value} {x y z : Int}

/-- The order of two words: that of the numbers that they denote, but for the blur. -/
theorem compare_whole (left : a.whole? = some x) (right : b.whole? = some y) :
    a.compare b = some (if Blurred a b then .eq else Ord.compare x y) := by
  cases a with
  | signed n =>
    cases left
    cases b with
    | signed m =>
      cases right
      rw [if_neg (by exact id)]
      rfl
    | unsigned m =>
      cases right
      obtain ⟨forth, back⟩ := compare_mixed m n
      rw [back, forth, Option.map_some]
      split
      next blurred =>
        rw [if_pos blurred.symm]
        rfl
      next apart =>
        rw [if_neg fun blurred => apart blurred.symm, ← Std.OrientedOrd.eq_swap]
    | boolean | float | address | bytes | text => cases right
  | unsigned n =>
    cases left
    cases b with
    | signed m =>
      cases right
      exact (compare_mixed n m).1
    | unsigned m =>
      cases right
      rw [if_neg (by exact id), ← compare_words]
      rfl
    | boolean | float | address | bytes | text => cases right
  | boolean | float | address | bytes | text => cases left

/-- Blurred words denote different numbers. -/
theorem ne_of_blurred (blurred : Blurred a b) (left : a.whole? = some x) (right : b.whole? = some y) : x ≠ y := by
  cases a with
  | signed n =>
    cases b with
    | unsigned m =>
      have within := n.toInt_lt
      cases left
      cases right
      exact (lt_of_lt_of_le within (Int.ofNat_le.mpr blurred.1)).ne
    | boolean | signed | float | address | bytes | text => exact blurred.elim
  | unsigned n =>
    cases b with
    | signed m =>
      have within := m.toInt_lt
      cases left
      cases right
      exact (lt_of_lt_of_le within (Int.ofNat_le.mpr blurred.1)).ne'
    | boolean | unsigned | float | address | bytes | text => exact blurred.elim
  | boolean | float | address | bytes | text => exact blurred.elim

theorem compare_swapped (left : a.whole? = some x) (right : b.whole? = some y) :
    b.compare a = (a.compare b).map Ordering.swap := by
  rw [compare_whole left right, compare_whole right left, Option.map_some]
  by_cases blurred : Blurred a b
  · rw [if_pos blurred, if_pos blurred.symm]
    rfl
  · rw [if_neg blurred, if_neg fun blurred' => blurred blurred'.symm, ← Std.OrientedOrd.eq_swap]

end Value

/-- Words are ordered exactly, but for the blur. Two words that are not blurred compare as the numbers that they denote, and
so the operators of comparison tell these numbers apart; the order is total and transitive among words of which no two are
blurred. Two blurred words count as equal, although they denote different numbers. Either way the order of two words is the
reverse of that of the words reversed. -/
theorem whole_order_exact_unless_blurred {a b c : Value} {x y z : Int} (left : a.whole? = some x) (right : b.whole? = some y)
    (third : c.whole? = some z) :
    (¬ Value.Blurred a b → a.compare b = some (Ord.compare x y) ∧
      Library.Operator.less.apply a b = some (.boolean (x < y)) ∧
      Library.Operator.greater.apply a b = some (.boolean (y < x)) ∧
      Library.Operator.equal.apply a b = some (.boolean (x = y))) ∧
    (¬ Value.Blurred a b → ¬ Value.Blurred b c → ¬ Value.Blurred a c →
      a.compare b ≠ some .gt → b.compare c ≠ some .gt → a.compare c ≠ some .gt) ∧
    (Value.Blurred a b → a.compare b = some .eq ∧ x ≠ y) ∧
    b.compare a = (a.compare b).map Ordering.swap := by
  refine ⟨fun apart => ?_, fun apart apart' apart'' => ?_, fun blurred => ?_, Value.compare_swapped left right⟩
  · have exact : a.compare b = some (Ord.compare x y) := by rw [Value.compare_whole left right, if_neg apart]
    refine ⟨exact, ?_⟩
    simp only [Library.Operator.apply, Library.ordered, exact, Option.map_some]
    rcases Int.lt_trichotomy x y with below | rfl | above
    · simp [compare_lt_iff_lt.mpr below, below, below.ne, below.le]
    · simp
    · simp [compare_gt_iff_gt.mpr above, above, above.ne', above.le]
  · rw [Value.compare_whole left right, Value.compare_whole right third, Value.compare_whole left third, if_neg apart,
      if_neg apart', if_neg apart'']
    simp only [ne_eq, Option.some.injEq, compare_gt_iff_gt, Int.not_lt]
    exact Int.le_trans
  · rw [Value.compare_whole left right, if_pos blurred]
    exact ⟨rfl, Value.ne_of_blurred blurred left right⟩

/-- At the two ends of the blur: words just outside of it are told apart, words inside of it are not. -/
theorem whole_order_exact_unless_blurred_ends :
    (Value.unsigned 9223372036854776833).whole? = some 9223372036854776833 ∧
    (Value.unsigned 9223372036854776832).whole? = some 9223372036854776832 ∧
    (Value.signed 9223372036854775807).whole? = some 9223372036854775807 ∧
    (Value.unsigned 9223372036854776833).compare (.signed 9223372036854775807) = some .gt ∧
    (Value.unsigned 9223372036854776832).compare (.signed 9223372036854775807) = some .eq := by
  have apart := whole_order_exact_unless_blurred (a := .unsigned 9223372036854776833) (b := .signed 9223372036854775807)
    (c := .unsigned 9223372036854776832) rfl rfl rfl
  have blurred := whole_order_exact_unless_blurred (a := .unsigned 9223372036854776832) (b := .signed 9223372036854775807)
    (c := .unsigned 9223372036854776832) rfl rfl rfl
  exact ⟨rfl, rfl, rfl, (apart.1 (by decide)).1, (blurred.2.2.1 (by decide)).1⟩

/-- The first number beyond the signed range counts as equal to the last two within it, of which one is less than the
other. -/
theorem whole_order_blurs :
    (Value.unsigned 9223372036854775808).compare (.signed 9223372036854775807) = some .eq ∧
    (Value.unsigned 9223372036854775808).compare (.signed 9223372036854775806) = some .eq ∧
    (Value.signed 9223372036854775806).compare (.signed 9223372036854775807) = some .lt ∧
    ¬ ∀ (a b : Value) (x y : Int), a.whole? = some x → b.whole? = some y → a.compare b = some (Ord.compare x y) := by
  have last : (Value.unsigned 9223372036854775808).compare (.signed 9223372036854775807) = some .eq := by
    rw [Value.compare_whole rfl rfl, if_pos (by decide)]
  refine ⟨last, ?_, rfl, fun exact => ?_⟩
  · rw [Value.compare_whole rfl rfl, if_pos (by decide)]
  · have wrong := exact (.unsigned 9223372036854775808) (.signed 9223372036854775807) _ _ rfl rfl
    rw [last] at wrong
    exact absurd wrong (by decide)

end FlowMetering
