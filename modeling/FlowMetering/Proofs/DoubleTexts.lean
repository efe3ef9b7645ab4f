import FlowMetering.Proofs.ShortestDecimals
import FlowMetering.Proofs.Signatures

/-! The text of a double tells the double. The rounding bounds of one double begin where those of the one before end, and of
two neighbours only one has a bound of its own. -/

namespace FlowMetering

namespace Binary

open Proper (unit low_eq high_eq)

theorem unit_positive (x : Binary) : 0 < unit x := by
  rw [unit]
  positivity

theorem ofBits_subnormal {fraction : Nat} (small : fraction < leadingBit) : ofBits fraction = ⟨fraction, -1074, false⟩ := by
  rw [ofBits, Nat.mod_eq_of_lt small, Nat.div_eq_of_lt small, if_pos rfl]

theorem ofBits_normal (field : Nat) {fraction : Nat} (small : fraction < leadingBit) :
    ofBits ((field + 1) * leadingBit + fraction) =
      ⟨leadingBit + fraction, (field : Int) - 1074, fraction = 0 && field != 0⟩ := by
  have parts : ((field + 1) * leadingBit + fraction) % leadingBit = fraction ∧
      ((field + 1) * leadingBit + fraction) / leadingBit = field + 1 := by
    refine ⟨by rw [Nat.mul_add_mod', Nat.mod_eq_of_lt small], ?_⟩
    rw [Nat.mul_comm, Nat.mul_add_div (by decide), Nat.div_eq_of_lt small, Nat.add_zero]
  rw [ofBits, parts.1, parts.2, if_neg (by omega)]
  congr 1
  · omega
  · cases field <;> rfl

theorem fields (m : Nat) : m < leadingBit ∨
    ∃ field fraction, fraction < leadingBit ∧ m = (field + 1) * leadingBit + fraction := by
  by_cases subnormal : m < leadingBit
  · exact .inl subnormal
  · refine .inr ⟨m / leadingBit - 1, m % leadingBit, Nat.mod_lt m (by decide), ?_⟩
    have normal : 0 < m / leadingBit := Nat.div_pos (by omega) (by decide)
    rw [Nat.sub_add_cancel normal, Nat.mul_comm]
    exact (Nat.div_add_mod m leadingBit).symm

theorem proper_ofBits {m : Nat} (positive : 0 < m) : (ofBits m).Proper := by
  rcases fields m with small | ⟨field, fraction, small, rfl⟩
  · rw [ofBits_subnormal small]
    exact ⟨positive, by rw [leadingBit] at small; dsimp only; omega, nofun⟩
  · rw [ofBits_normal _ small]
    rw [leadingBit] at *
    refine ⟨by dsimp only; omega, by dsimp only; omega, fun narrow => ?_⟩
    rw [Bool.and_eq_true, decide_eq_true_iff] at narrow
    rw [narrow.1]
    rfl

/-- The bounds of doubles leave no gap. -/
theorem high_eq_low_succ (m : Nat) : (ofBits m).interval.high = (ofBits (m + 1)).interval.low := by
  rw [high_eq, low_eq, unit, unit]
  rcases fields m with small | ⟨field, fraction, small, rfl⟩
  · rw [ofBits_subnormal small]
    by_cases last : m + 1 = leadingBit
    · have normal := ofBits_normal 0 (show 0 < leadingBit by decide)
      rw [Nat.zero_add, Nat.one_mul, Nat.add_zero] at normal
      obtain rfl : m = leadingBit - 1 := by omega
      rw [last, normal]
      rfl
    · rw [ofBits_subnormal (by omega)]
      rfl
  · rw [ofBits_normal _ small]
    by_cases last : fraction + 1 = leadingBit
    · have normal := ofBits_normal (field + 1) (show 0 < leadingBit by decide)
      rw [Nat.add_zero] at normal
      rw [show (field + 1) * leadingBit + fraction + 1 = (field + 1 + 1) * leadingBit by rw [Nat.add_assoc, last]; ring,
        normal]
      obtain rfl : fraction = leadingBit - 1 := by omega
      have double : (2 : ℚ) ^ (((field + 1 : Nat) : Int) - 1074 - 2) = 2 ^ ((field : Int) - 1074 - 2) * 2 := by
        rw [← zpow_add_one₀ (by norm_num)]
        congr 1
        omega
      dsimp only
      rw [double, if_pos (by simp), mul_comm _ (2 : ℚ), ← mul_assoc]
      norm_num [leadingBit]
    · rw [Nat.add_assoc, ofBits_normal _ (by omega)]
      dsimp only
      rw [if_neg (by simp)]
      rfl

theorem odd_significand (m : Nat) : (ofBits m).significand % 2 = m % 2 := by
  rcases fields m with small | ⟨field, fraction, small, rfl⟩
  · rw [ofBits_subnormal small]
  · rw [ofBits_normal _ small, leadingBit]
    dsimp only
    omega

theorem low_lt_high (x : Binary) : x.interval.low < x.interval.high := by
  rw [low_eq, high_eq]
  refine mul_lt_mul_of_pos_right ?_ (unit_positive x)
  exact_mod_cast (by omega : 4 * x.significand - (if x.narrow then 1 else 2) < 4 * x.significand + 2)

theorem low_strictMono : StrictMono fun m => (ofBits m).interval.low :=
  strictMono_nat_of_lt_succ fun m => (low_lt_high _).trans_eq (high_eq_low_succ m)

/-- No number reads back as two doubles. -/
theorem reads_unique {m m' : Nat} {q : ℚ} (reads : (ofBits m).interval.Reads q) (reads' : (ofBits m').interval.Reads q) :
    m = m' := by
  have apart {m m' : Nat} (before : m < m') (reads : (ofBits m).interval.Reads q) (reads' : (ofBits m').interval.Reads q) :
      False := by
    have touch : (ofBits m).interval.high ≤ (ofBits m').interval.low :=
      (high_eq_low_succ m).trans_le (low_strictMono.monotone before)
    have bounds {i : Interval} (reads : i.Reads q) : i.low ≤ q ∧ q ≤ i.high := by
      rw [Interval.Reads] at reads
      split at reads
      · exact reads
      · exact ⟨reads.1.le, reads.2.le⟩
    have meet : q = (ofBits m).interval.high ∧ q = (ofBits m').interval.low :=
      ⟨le_antisymm (bounds reads).2 (touch.trans (bounds reads').1), le_antisymm ((bounds reads).2.trans touch) (bounds reads').1⟩
    have next : m + 1 = m' := low_strictMono.injective
      ((high_eq_low_succ m).symm.trans (meet.1.symm.trans meet.2))
    have closed : (ofBits m).interval.closed = true := by
      by_contra opened
      rw [Interval.Reads, if_neg opened] at reads
      exact absurd meet.1 reads.2.ne
    have closed' : (ofBits m').interval.closed = true := by
      by_contra opened
      rw [Interval.Reads, if_neg opened] at reads'
      exact absurd meet.2 reads'.1.ne'
    have even := odd_significand m
    have even' := odd_significand m'
    rw [of_decide_eq_true closed] at even
    rw [of_decide_eq_true closed'] at even'
    omega
  rcases Nat.lt_trichotomy m m' with before | same | behind
  · exact (apart before reads reads').elim
  · exact same
  · exact (apart behind reads' reads).elim

end Binary

private def shownDecimal (magnitude : Nat) : Decimal :=
  if magnitude = 0 then ⟨0, 0⟩ else shortest .up (.ofBits magnitude)

private theorem shownDecimal_reads {magnitude : Nat} (positive : 0 < magnitude) :
    (Binary.ofBits magnitude).interval.Reads (shownDecimal magnitude).number := by
  rw [shownDecimal, if_neg (by omega)]
  exact (Binary.proper_ofBits positive).shortest_reads .up

private theorem number_pos {magnitude : Nat} (positive : 0 < magnitude) : 0 < (shownDecimal magnitude).number := by
  have reads := shownDecimal_reads positive
  have proper := Binary.proper_ofBits positive
  have low : 0 < (Binary.ofBits magnitude).interval.low := by
    rw [Binary.Proper.low_eq]
    refine mul_pos ?_ (Binary.unit_positive _)
    have some := proper.positive
    exact_mod_cast (by split <;> omega :
      0 < 4 * (Binary.ofBits magnitude).significand - if (Binary.ofBits magnitude).narrow then 1 else 2)
  rw [Interval.Reads] at reads
  split at reads
  · exact low.trans_le reads.1
  · exact low.trans reads.1

private theorem magnitude_of_number {magnitude magnitude' : Nat}
    (same : (shownDecimal magnitude).number = (shownDecimal magnitude').number) : magnitude = magnitude' := by
  have zero : (shownDecimal 0).number = 0 := by simp [shownDecimal, Decimal.number]
  rcases Nat.eq_zero_or_pos magnitude with rfl | positive
  · rcases Nat.eq_zero_or_pos magnitude' with rfl | positive'
    · rfl
    · exact absurd (same.symm.trans zero) (number_pos positive').ne'
  · rcases Nat.eq_zero_or_pos magnitude' with rfl | positive'
    · exact absurd (same.trans zero) (number_pos positive).ne'
    · exact Binary.reads_unique (shownDecimal_reads positive) (same ▸ shownDecimal_reads positive')

def magnitude (x : Float) : Nat := x.toBits.toNat % Binary.signBit

private def signText (x : Float) : String := if x.toBits.toNat < Binary.signBit then "" else "-"

private theorem text_finite {x : Float} (finite : magnitude x < 0x7ff0000000000000) :
    Value.doubleStyle.text x = signText x ++ (shownDecimal (magnitude x)).positional false := by
  rw [Decimal.Style.text]
  change (if magnitude x = 0 then signText x ++ "0" else if magnitude x = 0x7ff0000000000000 then signText x ++ "inf"
    else if magnitude x > 0x7ff0000000000000 then "NaN" else signText x ++ (shortest .up (.ofBits (magnitude x))).positional false) = _
  rw [shownDecimal]
  split
  · rfl
  · rw [if_neg finite.ne, if_neg (by omega)]

private theorem text_infinite {x : Float} (infinite : magnitude x = 0x7ff0000000000000) :
    Value.doubleStyle.text x = signText x ++ "inf" := by
  rw [Decimal.Style.text]
  change (if magnitude x = 0 then _ else if magnitude x = 0x7ff0000000000000 then signText x ++ "inf" else _) = _
  rw [infinite, if_neg (by decide), if_pos rfl]

private theorem text_notANumber {x : Float} (notANumber : 0x7ff0000000000000 < magnitude x) : Value.doubleStyle.text x = "NaN" := by
  rw [Decimal.Style.text]
  change (if magnitude x = 0 then _ else if magnitude x = 0x7ff0000000000000 then _
    else if magnitude x > 0x7ff0000000000000 then "NaN" else _) = _
  rw [if_neg (by omega), if_neg (by omega), if_pos notANumber]

private theorem float_of_bits {x y : Float} (same : x.toBits.toNat = y.toBits.toNat) : x = y := by
  obtain ⟨⟨bits, valid⟩⟩ := x
  obtain ⟨⟨bits', valid'⟩⟩ := y
  obtain rfl : bits = bits' := UInt64.toNat_inj.mp same
  rfl

private theorem float_of_parts {x y : Float} (sign : signText x = signText y) (same : magnitude x = magnitude y) : x = y := by
  have bits := x.toBits.toNat_lt
  have bits' := y.toBits.toNat_lt
  rw [magnitude, magnitude, Binary.signBit] at same
  rw [signText, signText, Binary.signBit] at sign
  refine float_of_bits ?_
  split at sign
  · split at sign
    · omega
    · exact absurd sign (by decide)
  · split at sign
    · exact absurd sign (by decide)
    · omega

private theorem bits_of_notANumber {x : Float} (notANumber : 0x7ff0000000000000 < magnitude x) :
    x.toBits.toBitVec = Float.Model.UnpackedFloat.packedNaN Float.Model.Format.binary64 := by
  have bits := x.toBits.toNat_lt
  rw [magnitude, Binary.signBit] at notANumber
  have exponent : x.toBits.toNat / 2 ^ 52 % 2 ^ 11 = 2 ^ 11 - 1 := by omega
  have mantissa : x.toBits.toNat % 2 ^ 52 ≠ 0 := by omega
  refine x.toModel.valid.eq_packedNaN (BitVec.eq_of_toNat_eq ?_) fun none => mantissa ?_
  · rw [Float.Model.UnpackedFloat.unpackExponent, BitVec.toNat_cast, BitVec.extractLsb_toNat, Nat.shiftRight_eq_div_pow]
    exact exponent
  · have empty := congrArg BitVec.toNat none
    rw [Float.Model.UnpackedFloat.unpackMantissa, BitVec.toNat_cast, BitVec.extractLsb_toNat] at empty
    exact empty

private theorem sign_inj {x y : Float} {body body' : String} (bare : '-' ∉ body.toList) (bare' : '-' ∉ body'.toList)
    (same : signText x ++ body = signText y ++ body') : signText x = signText y ∧ body = body' := by
  have either (x : Float) : signText x = "" ∨ signText x = "-" := by
    rw [signText]
    split
    · exact .inl rfl
    · exact .inr rfl
  have texts := congrArg String.toList same
  rw [String.toList_append, String.toList_append] at texts
  rcases either x with sign | sign <;> rcases either y with sign' | sign' <;> rw [sign, sign'] at texts ⊢
  · exact ⟨rfl, String.toList_inj.mp texts⟩
  · change body.toList = '-' :: body'.toList at texts
    exact absurd (texts ▸ List.mem_cons_self) bare
  · change '-' :: body.toList = body'.toList at texts
    exact absurd (texts ▸ List.mem_cons_self) bare'
  · exact ⟨rfl, String.toList_inj.mp (List.cons.inj texts).2⟩

private theorem text_signs {x : Float} (finite : magnitude x < 0x7ff0000000000000) {c : Char}
    (member : c ∈ (Value.doubleStyle.text x).toList) : c.isDigit = true ∨ c = '.' ∨ c = '-' := by
  rw [text_finite finite, signText] at member
  exact numeral_of_sign (fun c member => (Decimal.mem_positional member).imp_right .inl) c member

/-- Doubles with one text are one double. -/
theorem float_of_text {x y : Float} (same : Value.doubleStyle.text x = Value.doubleStyle.text y) : x = y := by
  have bare (n : Nat) : '-' ∉ ((shownDecimal n).positional false).toList := by
    intro member
    rcases Decimal.mem_positional member with digit | point
    · cases digit
    · cases point
  have apart {x y : Float} (finite : magnitude x < 0x7ff0000000000000) (other : 0x7ff0000000000000 ≤ magnitude y) :
      Value.doubleStyle.text x ≠ Value.doubleStyle.text y := by
    intro same
    rcases Nat.eq_or_lt_of_le other with infinite | notANumber
    · have member : 'f' ∈ (Value.doubleStyle.text x).toList := by
        rw [same, text_infinite infinite.symm, String.toList_append]
        exact List.mem_append_right _ (by decide)
      exact absurd (text_signs finite member) (by decide)
    · have member : 'N' ∈ (Value.doubleStyle.text x).toList := by
        rw [same, text_notANumber notANumber]
        decide
      exact absurd (text_signs finite member) (by decide)
  have unlike {x y : Float} (infinite : magnitude x = 0x7ff0000000000000) (notANumber : 0x7ff0000000000000 < magnitude y) :
      Value.doubleStyle.text x ≠ Value.doubleStyle.text y := by
    rw [text_infinite infinite, text_notANumber notANumber, signText]
    split <;> decide
  rcases Nat.lt_trichotomy (magnitude x) 0x7ff0000000000000 with finite | infinite | notANumber
  · by_cases finite' : magnitude y < 0x7ff0000000000000
    · rw [text_finite finite, text_finite finite'] at same
      obtain ⟨sign, bodies⟩ := sign_inj (bare _) (bare _) same
      exact float_of_parts sign (magnitude_of_number (Decimal.number_of_positional bodies))
    · exact absurd same (apart finite (by omega))
  · rcases Nat.lt_trichotomy (magnitude y) 0x7ff0000000000000 with finite' | infinite' | notANumber'
    · exact absurd same.symm (apart finite' (by omega))
    · rw [text_infinite infinite, text_infinite infinite'] at same
      exact float_of_parts (sign_inj (by decide) (by decide) same).1 (infinite.trans infinite'.symm)
    · exact absurd same (unlike infinite notANumber')
  · rcases Nat.lt_trichotomy (magnitude y) 0x7ff0000000000000 with finite' | infinite' | notANumber'
    · exact absurd same.symm (apart finite' (by omega))
    · exact absurd same.symm (unlike infinite' notANumber)
    · refine float_of_bits ?_
      have bits := (bits_of_notANumber notANumber).trans (bits_of_notANumber notANumber').symm
      exact congrArg BitVec.toNat bits

end FlowMetering
