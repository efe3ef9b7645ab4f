import FlowMetering.Proofs.GlitchFreeOperators

/-! Arithmetic on whole numbers. A sum, a difference or a product of words is the exact number in a word of 64 bits, or
there is none: it is unsigned as long as all of its terms are, and signed from the first signed term on. Words of 128 bits
are wide enough for each step on the way. -/

namespace FlowMetering

/-- The whole numbers for which there is a word, of the unsigned sort or of the signed one. -/
def Word.Fits (unsigned : Bool) (n : Int) : Prop :=
  if unsigned then 0 ≤ n ∧ n ≤ 0xffffffffffffffff else -0x8000000000000000 ≤ n ∧ n ≤ 0x7fffffffffffffff

namespace Value

def isUnsigned : Value → Bool
  | .unsigned _ => true
  | _ => false

def ofWhole? (unsigned : Bool) (n : Int) : Option Value :=
  if unsigned then (Word.unsigned? n).map .unsigned else (Word.signed? n).map .signed

variable {u : Bool} {n : Int} {v : Value}

theorem ofWhole?_eq_some_iff : ofWhole? u n = some v ↔ v.whole? = some n ∧ v.isUnsigned = u := by
  cases u with
  | true =>
    simp only [ofWhole?, ↓reduceIte, Option.map_eq_some_iff, Word.unsigned?_eq_some_iff]
    cases v <;> simp [whole?, isUnsigned]
  | false =>
    simp only [ofWhole?, Bool.false_eq_true, ↓reduceIte, Option.map_eq_some_iff, Word.signed?_eq_some_iff]
    cases v <;> simp [whole?, isUnsigned]

theorem fits_of_whole? (denotes : v.whole? = some n) : Word.Fits v.isUnsigned n := by
  cases v with
  | signed word =>
    have low := word.le_toInt
    have high := word.toInt_lt
    cases denotes
    simp only [Word.Fits, isUnsigned, Bool.false_eq_true, ↓reduceIte]
    omega
  | unsigned word =>
    have high := word.toNat_lt
    cases denotes
    simp only [Word.Fits, isUnsigned, ↓reduceIte]
    omega
  | boolean | float | address | bytes | text => cases denotes

theorem exists_ofWhole? (fits : Word.Fits u n) : ∃ v, ofWhole? u n = some v := by
  cases u <;> simp_all [Word.Fits, ofWhole?, Word.unsigned?, Word.signed?]

theorem ofWhole?_eq_none (out : ¬ Word.Fits u n) : ofWhole? u n = none := by
  by_contra some
  obtain ⟨v, found⟩ := Option.ne_none_iff_exists'.mp some
  obtain ⟨denotes, rfl⟩ := ofWhole?_eq_some_iff.mp found
  exact out (fits_of_whole? denotes)

end Value

namespace Library.Operator

def onWhole? : Operator → Option (Int → Int → Int)
  | .add => some (· + ·)
  | .subtract => some (· - ·)
  | .multiply => some (· * ·)
  | .divide | .less | .greater | .equal => none

/-- The operation of an operator of arithmetic on words of 128 bits. There is no result where it would wrap. -/
def wide? : Operator → BitVec 128 → BitVec 128 → Option (BitVec 128)
  | .add, x, y => if x.saddOverflow y then none else some (x + y)
  | .subtract, x, y => if x.ssubOverflow y then none else some (x - y)
  | .multiply, x, y => if x.smulOverflow y then none else some (x * y)
  | .divide, _, _ | .less, _, _ | .greater, _, _ | .equal, _, _ => none

/-- One step of arithmetic in words of 128 bits, whose result is narrowed to 64 at once. -/
def applyWide (op : Operator) (a b : Value) : Option Value := do
  let result ← op.wide? (BitVec.ofInt 128 (← a.whole?)) (BitVec.ofInt 128 (← b.whole?))
  Value.ofWhole? (a.isUnsigned && b.isUnsigned) result.toInt

section Step

variable {op : Operator} {exact : Int → Int → Int} {a b : Value} {x y : Int}

theorem apply_whole (arithmetic : op.onWhole? = some exact) (left : a.whole? = some x) (right : b.whole? = some y) :
    op.apply a b = Value.ofWhole? (a.isUnsigned && b.isUnsigned) (exact x y) := by
  have step (float : Float → Float → Float) :
      Library.arithmetic exact float a b = Value.ofWhole? (a.isUnsigned && b.isUnsigned) (exact x y) := by
    cases a <;> cases left <;> cases b <;> cases right <;> rfl
  cases op <;> cases arithmetic <;> exact step _

/-- A word of 128 bits that comes out of a step is the exact result. -/
theorem toInt_of_wide? (arithmetic : op.onWhole? = some exact) {x y result : BitVec 128} (found : op.wide? x y = some result) :
    result.toInt = exact x.toInt y.toInt := by
  cases op with
  | add =>
    cases arithmetic
    obtain ⟨inside, same⟩ := Option.ite_none_left_eq_some.mp found
    rw [← Option.some.inj same, BitVec.toInt_add_of_not_saddOverflow inside]
  | subtract =>
    cases arithmetic
    obtain ⟨inside, same⟩ := Option.ite_none_left_eq_some.mp found
    rw [← Option.some.inj same, BitVec.toInt_sub_of_not_ssubOverflow inside]
  | multiply =>
    cases arithmetic
    obtain ⟨inside, same⟩ := Option.ite_none_left_eq_some.mp found
    rw [← Option.some.inj same, BitVec.toInt_mul_of_not_smulOverflow inside]
  | divide | less | greater | equal => cases arithmetic

/-- No word comes out only where the exact result is beyond all words of 128 bits, hence beyond those of 64. -/
theorem not_fits_of_wide? (arithmetic : op.onWhole? = some exact) {x y : BitVec 128} (missing : op.wide? x y = none)
    (unsigned : Bool) : ¬ Word.Fits unsigned (exact x.toInt y.toInt) := by
  have beyond : 2 ^ 127 ≤ exact x.toInt y.toInt ∨ exact x.toInt y.toInt < -2 ^ 127 := by
    cases op <;> cases arithmetic <;>
      simpa only [wide?, BitVec.saddOverflow, BitVec.ssubOverflow, BitVec.smulOverflow, ite_eq_left_iff, reduceCtorEq,
        imp_false, Classical.not_not, Bool.or_eq_true, decide_eq_true_eq, ge_iff_le, Nat.reduceSub] using missing
  rw [Word.Fits]
  split <;> omega

/-- A word of 64 bits passes unchanged through one of 128. -/
theorem toInt_widen (denotes : a.whole? = some x) : (BitVec.ofInt 128 x).toInt = x := by
  have fits := Value.fits_of_whole? denotes
  rw [Word.Fits] at fits
  refine BitVec.toInt_ofInt_eq_self (by decide) ?_ ?_ <;> split at fits <;> omega

theorem applyWide_eq (arithmetic : op.onWhole? = some exact) (left : a.whole? = some x) (right : b.whole? = some y) :
    op.applyWide a b = op.apply a b := by
  rw [apply_whole arithmetic left right]
  have through : exact (BitVec.ofInt 128 x).toInt (BitVec.ofInt 128 y).toInt = exact x y := by
    rw [toInt_widen left, toInt_widen right]
  simp only [applyWide, left, right, Option.bind_eq_bind, Option.bind_some]
  cases found : op.wide? (BitVec.ofInt 128 x) (BitVec.ofInt 128 y) with
  | some result => rw [Option.bind_some, toInt_of_wide? arithmetic found, through]
  | none =>
    have out := not_fits_of_wide? arithmetic found (a.isUnsigned && b.isUnsigned)
    rw [through] at out
    rw [Option.bind_none, Value.ofWhole?_eq_none out]

/-- A step has a result exactly if the exact one is in the range of its sort. -/
theorem apply_eq_some_iff (arithmetic : op.onWhole? = some exact) (left : a.whole? = some x) (right : b.whole? = some y)
    {v : Value} : op.apply a b = some v ↔ v.whole? = some (exact x y) ∧ v.isUnsigned = (a.isUnsigned && b.isUnsigned) := by
  rw [apply_whole arithmetic left right, Value.ofWhole?_eq_some_iff]

end Step

def total (exact : Int → Int → Int) : List Int → Int
  | [] => 0
  | n :: numbers => numbers.foldl exact n

/-- The exact result over each prefix of a list of words is in range: in the unsigned range while all words so far are
unsigned, in the signed one from the first signed word on. -/
def PrefixesFit (exact : Int → Int → Int) (values : List Value) (numbers : List Int) : Prop :=
  ∀ k, 0 < k → k ≤ values.length → Word.Fits ((values.take k).all Value.isUnsigned) (total exact (numbers.take k))

/-- Folds steps in words of 128 bits over the arguments from the left. -/
def evaluateWide (op : Operator) : List (Option Value) → Option Value
  | [] => none
  | first :: rest => do
    rest.foldlM (fun result arg => do op.applyWide result (← arg)) (← first)

section Fold

variable {op : Operator} {exact : Int → Int → Int} {first v w : Value} {n m : Int} {values : List Value} {numbers : List Int}

theorem exists_whole_of_denote (denote : (v :: values).map Value.whole? = numbers.map some) :
    ∃ n rest, numbers = n :: rest ∧ v.whole? = some n ∧ values.map Value.whole? = rest.map some := by
  cases numbers with
  | nil => cases denote
  | cons n rest =>
    rw [List.map_cons, List.map_cons, List.cons.injEq] at denote
    exact ⟨n, rest, rfl, denote⟩

/-- A step that has a result may be taken first: the prefixes fit if those do that begin with the result. -/
theorem prefixesFit_step (left : first.whole? = some n) (same : w.isUnsigned = (first.isUnsigned && v.isUnsigned)) :
    PrefixesFit exact (first :: v :: values) (n :: m :: numbers) ↔ PrefixesFit exact (w :: values) (exact n m :: numbers) := by
  constructor
  · intro fit k positive within
    obtain ⟨k, rfl⟩ := Nat.exists_eq_succ_of_ne_zero positive.ne'
    have here := fit (k + 2) (by omega) (by simpa using within)
    simpa [same, total, Bool.and_assoc] using here
  · intro fit k positive within
    match k, positive with
    | 1, _ => simpa [total] using Value.fits_of_whole? left
    | k + 2, _ =>
      have here := fit (k + 1) (by omega) (by simpa using within)
      simpa [same, total, Bool.and_assoc] using here

theorem folded_whole (arithmetic : op.onWhole? = some exact) (left : first.whole? = some n)
    (denote : values.map Value.whole? = numbers.map some) {v : Value} :
    op.folded (first :: values) = some v ↔ PrefixesFit exact (first :: values) (n :: numbers) ∧
      v.whole? = some (total exact (n :: numbers)) ∧ v.isUnsigned = (first :: values).all Value.isUnsigned := by
  induction values generalizing first n numbers with
  | nil =>
    obtain rfl : numbers = [] := List.map_eq_nil_iff.mp denote.symm
    have alone : PrefixesFit exact [first] [n] := fun k positive within => by
      obtain rfl : k = 1 := by simp at within; omega
      simpa [total] using Value.fits_of_whole? left
    simp only [Operator.folded, List.foldlM_nil, Option.pure_def, Option.some.injEq, alone, true_and, total,
      List.foldl_nil, List.all_cons, List.all_nil, Bool.and_true]
    constructor
    · rintro rfl
      exact ⟨left, rfl⟩
    · rintro ⟨denotes, same⟩
      have here := Value.ofWhole?_eq_some_iff.mpr ⟨left, rfl⟩
      rw [← same, Value.ofWhole?_eq_some_iff.mpr ⟨denotes, rfl⟩] at here
      exact (Option.some.inj here).symm
  | cons second values ih =>
    obtain ⟨m, numbers, rfl, right, denote⟩ := exists_whole_of_denote denote
    rw [Operator.folded, List.foldlM_cons, Option.bind_eq_bind]
    cases result : op.apply first second with
    | none =>
      rw [apply_whole arithmetic left right] at result
      rw [Option.bind_none]
      constructor
      · intro found
        cases found
      · rintro ⟨fit, -⟩
        have here := fit 2 (by decide) (by simp)
        obtain ⟨w, found⟩ := Value.exists_ofWhole? here
        simp [total, result] at found
    | some w =>
      obtain ⟨denotes, same⟩ := (apply_eq_some_iff arithmetic left right).mp result
      rw [Option.bind_some, ← Operator.folded, ih denotes denote, prefixesFit_step left same, List.all_cons,
        List.all_cons, List.all_cons, same, Bool.and_assoc, total, total, List.foldl_cons]

theorem exists_folded_of_fit (arithmetic : op.onWhole? = some exact)
    (denote : (first :: values).map Value.whole? = numbers.map some) (fit : PrefixesFit exact (first :: values) numbers) :
    ∃ v, op.folded (first :: values) = some v ∧ v.whole? = some (total exact numbers) ∧
      v.isUnsigned = (first :: values).all Value.isUnsigned := by
  obtain ⟨n, numbers, rfl, left, denote⟩ := exists_whole_of_denote denote
  have last := fit (values.length + 1) (by omega) (by simp)
  have length : numbers.length = values.length := by simpa using (congrArg List.length denote).symm
  rw [← List.length_cons (a := first), List.take_length, List.take_of_length_le (by simp [length])] at last
  obtain ⟨v, found⟩ := Value.exists_ofWhole? last
  obtain ⟨denotes, same⟩ := Value.ofWhole?_eq_some_iff.mp found
  exact ⟨v, (folded_whole arithmetic left denote).mpr ⟨fit, denotes, same⟩, denotes, same⟩

theorem foldlM_applyWide (arithmetic : op.onWhole? = some exact) (left : first.whole? = some n)
    (denote : values.map Value.whole? = numbers.map some) :
    values.foldlM op.applyWide first = values.foldlM op.apply first := by
  induction values generalizing first n numbers with
  | nil => rfl
  | cons second values ih =>
    obtain ⟨m, numbers, rfl, right, denote⟩ := exists_whole_of_denote denote
    rw [List.foldlM_cons, List.foldlM_cons, applyWide_eq arithmetic left right]
    cases result : op.apply first second with
    | none => rfl
    | some w => exact ih ((apply_eq_some_iff arithmetic left right).mp result).1 denote

theorem evaluateWide_whole (arithmetic : op.onWhole? = some exact) (denote : values.map Value.whole? = numbers.map some) :
    op.evaluateWide (values.map some) = op.evaluate (values.map some) := by
  cases values with
  | nil => rfl
  | cons first values =>
    obtain ⟨n, numbers, rfl, left, denote⟩ := exists_whole_of_denote denote
    simpa [evaluateWide, evaluate, List.foldlM_map] using foldlM_applyWide arithmetic left denote

/-- Sums, differences and products of words are exact or absent. There is a result exactly if the exact one over each
prefix is in the range of its sort; it is then the exact one over the whole list, and unsigned exactly if all words are. On
the way no word of 128 bits wraps: a step in such words has the exact result or none, and where it has none there is none in
words of 64 bits either. -/
theorem whole_exact_or_absent (arithmetic : op.onWhole? = some exact) (denote : values.map Value.whole? = numbers.map some)
    (given : values ≠ []) :
    (PrefixesFit exact values numbers → ∃ v, op.evaluate (values.map some) = some v ∧
      v.whole? = some (total exact numbers) ∧ v.isUnsigned = values.all Value.isUnsigned) ∧
    (¬ PrefixesFit exact values numbers → op.evaluate (values.map some) = none) ∧
    op.evaluateWide (values.map some) = op.evaluate (values.map some) ∧
    ∀ x y result, op.wide? x y = some result → result.toInt = exact x.toInt y.toInt := by
  refine ⟨fun fit => ?_, fun unfit => ?_, evaluateWide_whole arithmetic denote, fun _ _ _ => toInt_of_wide? arithmetic⟩
  · obtain ⟨first, values, rfl⟩ := List.exists_cons_of_ne_nil given
    obtain ⟨v, found, exactly⟩ := exists_folded_of_fit arithmetic denote fit
    exact ⟨v, by rw [op.evaluate_some, found], exactly⟩
  · obtain ⟨first, values, rfl⟩ := List.exists_cons_of_ne_nil given
    obtain ⟨n, numbers, rfl, left, denote⟩ := exists_whole_of_denote denote
    by_contra result
    obtain ⟨v, found⟩ := Option.ne_none_iff_exists'.mp result
    rw [op.evaluate_some, folded_whole arithmetic left denote] at found
    exact unfit found.1

/-- A sum that passes from the unsigned range into the signed one. -/
theorem whole_exact_or_absent_mixed : Operator.add.onWhole? = some (· + ·) ∧ ∃ v,
    Operator.add.evaluate [some (.unsigned 9223372036854775809), some (.unsigned 1), some (.signed (-3))] = some v ∧
      v.whole? = some 9223372036854775807 ∧ v.isUnsigned = false := by
  refine ⟨rfl, ?_⟩
  have arithmetic : Operator.add.onWhole? = some (· + ·) := rfl
  have denote : [Value.unsigned 9223372036854775809, .unsigned 1, .signed (-3)].map Value.whole? =
      [9223372036854775809, 1, -3].map some := rfl
  have result := whole_exact_or_absent arithmetic denote (by simp)
  refine result.1 fun k positive within => ?_
  match k, positive, within with
  | 1, _, _ | 2, _, _ | 3, _, _ => simp [Word.Fits, total, Value.isUnsigned]

end Fold

end Library.Operator
end FlowMetering
