import FlowMetering.Proofs.GatheredValues
import FlowMetering.Proofs.WholeArithmetic

/-! What a sum shows of whole numbers. As long as no running total leaves the range of words, the row that ends a segment shows
the exact total of what the register has been given in it. A value that would take the total out of range is passed over. -/

namespace FlowMetering.Library

open Operator

section Fold

variable {first v : Value} {values : List Value} {numbers : List Int}

private theorem kept_sum_of_folded (found : Operator.add.folded (first :: values) = some v) :
    Aggregate.sum.kept (first :: values) = some v := by
  have carried : values.foldl Aggregate.sum.step (some first) = some v := by
    rw [Operator.folded] at found
    induction values generalizing first with
    | nil => exact found
    | cons second values ih =>
      obtain ⟨w, result, found⟩ := Option.bind_eq_some_iff.mp found
      rw [List.foldl_cons, Aggregate.step, Aggregate.update, result, Option.getD_some]
      exact ih found
  exact carried

private theorem total_add (numbers : List Int) : total (· + ·) numbers = numbers.sum := by
  cases numbers with
  | nil => rfl
  | cons n numbers => rw [total, List.sum_eq_foldl, List.foldl_cons, Int.zero_add]

private theorem onWhole?_add : Operator.add.onWhole? = some (· + ·) :=
  rfl

private theorem kept_sum_taken (denote : (first :: values).map Value.whole? = numbers.map some) :
    ∃ (v : Value) (taken : List Int), Aggregate.sum.kept (first :: values) = some v ∧ taken.Sublist numbers ∧
      taken.head? = numbers.head? ∧ v.whole? = some taken.sum := by
  induction values using List.reverseRecOn generalizing numbers with
  | nil =>
    obtain ⟨n, rest, rfl, left, denote⟩ := exists_whole_of_denote denote
    obtain rfl : rest = [] := List.map_eq_nil_iff.mp denote.symm
    exact ⟨first, [n], rfl, .refl _, rfl, by simpa using left⟩
  | append_singleton values second ih =>
    rw [← List.cons_append, List.map_append] at denote
    obtain ⟨before, last, rfl, front, back⟩ := List.append_eq_map_iff.mp denote
    obtain ⟨m, rfl, right⟩ := List.map_eq_singleton_iff.mp back
    obtain ⟨v, taken, kept, inside, head, denotes⟩ := ih front.symm
    have nonempty : before ≠ [] := by
      rintro rfl
      cases front
    rw [List.head?_append_of_ne_nil _ nonempty, ← List.cons_append, Aggregate.kept_snoc, kept, Aggregate.step,
      Aggregate.update]
    cases result : Operator.add.apply v second with
    | none => exact ⟨v, taken, rfl, inside.trans (List.sublist_append_left ..), head, denotes⟩
    | some w =>
      obtain ⟨sum, -⟩ := (apply_eq_some_iff onWhole?_add denotes right.symm).mp result
      refine ⟨w, taken ++ [m], rfl, inside.append (.refl _), ?_, by simpa using sum⟩
      cases taken with
      | nil => exact absurd (List.head?_eq_none_iff.mp head.symm) nonempty
      | cons => exact head

end Fold

section Compiled

variable {limit : Nat} {s : Specification} {p : Program Instance PacketFilter}

/-- Sums of whole numbers are exact unless a running total is out of range. Whenever all that the register of a sum has been
given in a segment are words, the row that ends the segment shows nothing for the sum if nothing was given. It shows the word of
the exact sum if each running total is in the range of its sort: the word is unsigned exactly if all that were given are.
Otherwise it shows the exact sum of a part of them. -/
theorem rows_sum_exact (compiled : s.compile catalog limit = .ok p) {i : Nat} {argument : Json}
    (feature : s.features[i]? = some (.array [.string "sum", argument])) (exporters : List Exporter)
    (operations : List Operation) : ∃ r, p.exports[i]? = some r ∧ ∀ before reason row after numbers,
      (Meter.performAll ⟨p, exporters⟩ (Meter.make ⟨p, exporters⟩) operations).2 = before ++ .row reason row :: after →
      (Journal.gathered before r).map Value.whole? = numbers.map some →
      (Journal.gathered before r = [] → row.values[i]? = some none) ∧
      (Journal.gathered before r ≠ [] → PrefixesFit (· + ·) (Journal.gathered before r) numbers → ∃ v,
        row.values[i]? = some (some v) ∧ v.whole? = some numbers.sum ∧
          v.isUnsigned = (Journal.gathered before r).all Value.isUnsigned) ∧
      ∀ v, row.values[i]? = some (some v) → ∃ taken : List Int, taken.Sublist numbers ∧ taken.head? = numbers.head? ∧
        v.whole? = some taken.sum := by
  have named : s.features[i]? = some (.array [.string Aggregate.sum.name, argument]) := feature
  obtain ⟨r, exported, shows⟩ := rows_kept compiled named exporters operations
  refine ⟨r, exported, fun before reason row after numbers split denote => ?_⟩
  rw [shows before reason row after split]
  cases given : Journal.gathered before r with
  | nil => exact ⟨fun _ => rfl, fun some => absurd rfl some, nofun⟩
  | cons first values =>
    rw [given] at denote
    refine ⟨nofun, fun _ fit => ?_, fun v shown => ?_⟩
    · obtain ⟨v, found, denotes, sort⟩ := exists_folded_of_fit onWhole?_add denote fit
      exact ⟨v, congrArg some (kept_sum_of_folded found), total_add numbers ▸ denotes, sort⟩
    · obtain ⟨w, taken, kept, inside, head, denotes⟩ := kept_sum_taken denote
      rw [kept] at shown
      obtain rfl := Option.some.inj (Option.some.inj shown)
      exact ⟨taken, inside, head, denotes⟩

/-- What a record without exporters does for some packets and a forced end. -/
def journalOf (p : Program Instance PacketFilter) (packets : List Packet) : Journal :=
  (Meter.performAll ⟨p, []⟩ (Meter.make ⟨p, []⟩) (packets.map .event ++ [.stop .forcedEnd 0])).2

/-- The numbers that the first exported register has been given in each segment of a run, beside the number that the row of the
segment shows for it. -/
def talliesOf (s : Specification) (packets : List Packet) : List (List (Option Int) × Option Int) :=
  match s.compile catalog 4096 with
  | .ok p =>
    (List.range (journalOf p packets).length).filterMap fun k =>
      match (journalOf p packets)[k]?, p.exports[0]? with
      | some (Happening.row _ row), some r =>
        some ((Journal.gathered ((journalOf p packets).take k) r).map Value.whole?, row.values[0]?.join.bind Value.whole?)
      | _, _ => none
  | .error _ => []

private theorem exists_tally {packets : List Packet} {given : List (Option Int)} {shown : Option Int}
    (member : (given, shown) ∈ talliesOf s packets) : ∃ p r before reason row after, s.compile catalog 4096 = .ok p ∧
      p.exports[0]? = some r ∧ journalOf p packets = before ++ .row reason row :: after ∧
      (Journal.gathered before r).map Value.whole? = given ∧ row.values[0]?.join.bind Value.whole? = shown := by
  rw [talliesOf] at member
  split at member
  next p compiled =>
    obtain ⟨k, -, found⟩ := List.mem_filterMap.mp member
    split at found
    next reason row r here exported =>
      cases found
      obtain ⟨inside, here⟩ := List.getElem?_eq_some_iff.mp here
      refine ⟨p, r, _, reason, row, (journalOf p packets).drop (k + 1), compiled, exported, ?_, rfl, rfl⟩
      rw [← here, List.getElem_cons_drop, List.take_append_drop]
    next => cases found
  next => cases member

theorem rows_sum_exact_lengths : ∃ p r before reason row after v,
    (Specification.ofFeatures [.array [.string "sum", .string "ipTotalLength"]]).compile catalog 4096 = .ok p ∧
      p.exports[0]? = some r ∧
      journalOf p [Packet.ofLength 1 60, Packet.ofLength 2 1500] = before ++ .row reason row :: after ∧
      (Journal.gathered before r).map Value.whole? = [60, 1500].map some ∧
      row.values[0]? = some (some v) ∧ v.whole? = some 1560 := by
  obtain ⟨p, r, before, reason, row, after, compiled, exported, split, denote, -⟩ := exists_tally
    (show ([some 60, some 1500], some 1560) ∈ talliesOf (.ofFeatures [.array [.string "sum", .string "ipTotalLength"]])
      [Packet.ofLength 1 60, Packet.ofLength 2 1500] by decide +kernel)
  obtain ⟨q, exported', shows⟩ := rows_sum_exact compiled (i := 0) rfl [] _
  obtain rfl := Option.some.inj (exported'.symm.trans exported)
  have given : Journal.gathered before q ≠ [] := by
    intro none
    rw [none] at denote
    cases denote
  have length : (Journal.gathered before q).length = 2 := by simpa using congrArg List.length denote
  have fit : PrefixesFit (· + ·) (Journal.gathered before q) [60, 1500] := by
    intro k positive within
    rw [length] at within
    obtain rfl | rfl : k = 1 ∨ k = 2 := by omega
    all_goals
      simp only [Word.Fits, List.take_succ_cons, List.take_zero, total, List.foldl_cons, List.foldl_nil]
      split <;> decide
  obtain ⟨v, shown, denotes, -⟩ := (shows before reason row after [60, 1500] split denote).2.1 given fit
  exact ⟨p, q, before, reason, row, after, v, compiled, exported, split, denote, shown, denotes⟩

def largestTwice : Specification :=
  .ofFeatures [.array [.string "sum", .array [.string "multiply", .string "ipTotalLength", .number (.natural 18446744073709551615)]]]

/-- The first of two values is shown for their sum, for which there is no word. -/
theorem sum_passes_over : ∃ p r before reason row after v, largestTwice.compile catalog 4096 = .ok p ∧
    p.exports[0]? = some r ∧ journalOf p [Packet.ofLength 1 1, Packet.ofLength 2 1] = before ++ .row reason row :: after ∧
    (Journal.gathered before r).map Value.whole? = [18446744073709551615, 18446744073709551615].map some ∧
    row.values[0]? = some (some v) ∧ v.whole? = some 18446744073709551615 ∧
    ∀ w : Value, w.whole? ≠ some (18446744073709551615 + 18446744073709551615) := by
  obtain ⟨p, r, before, reason, row, after, compiled, exported, split, denote, shown⟩ := exists_tally
    (show ([some 18446744073709551615, some 18446744073709551615], some 18446744073709551615) ∈ talliesOf largestTwice
      [Packet.ofLength 1 1, Packet.ofLength 2 1] by decide +kernel)
  obtain ⟨v, value, denotes⟩ := Option.bind_eq_some_iff.mp shown
  refine ⟨p, r, before, reason, row, after, v, compiled, exported, split, denote, Option.join_eq_some_iff.mp value, denotes, ?_⟩
  intro w denotes
  have fits := Value.fits_of_whole? denotes
  rw [Word.Fits] at fits
  split at fits <;> omega

end Compiled

end FlowMetering.Library
