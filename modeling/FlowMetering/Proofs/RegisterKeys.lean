import FlowMetering.Program.Allocation
import FlowMetering.Proofs.Signatures
import Mathlib.Data.List.Basic

/-! The keys of registers. The key of a call tells its entry and its arguments, and no constant has the key of a
call. -/

namespace FlowMetering

private theorem plain_argumentKey (arg : Argument) :
    Allocation.argumentKey arg ≠ "" ∧ ∀ c ∈ (Allocation.argumentKey arg).toList, c ∉ [',', '('] := by
  have digit {c : Char} {n : Nat} (member : c ∈ Nat.toDigits 10 n) : c ∉ [',', '('] := by
    have held := Nat.isDigit_of_mem_toDigits (by decide) (by decide) member
    intro sign
    simp only [List.mem_cons, List.not_mem_nil, or_false] at sign
    rcases sign with rfl | rfl <;> exact absurd held (by decide)
  cases arg with
  | raw => exact ⟨by decide, forall_of_all (by decide)⟩
  | register r =>
    rw [Allocation.argumentKey, Nat.toString_eq_repr]
    refine ⟨fun empty => ?_, fun c member => ?_⟩
    · have signs := congrArg String.toList empty
      rw [String.toList_append] at signs
      cases signs
    · rw [String.toList_append, Nat.toList_repr] at member
      rcases List.mem_append.mp member with member | member
      · rw [List.mem_singleton.mp member]
        decide
      · exact digit member

private theorem argumentKey_inj {arg other : Argument} (same : Allocation.argumentKey arg = Allocation.argumentKey other) :
    arg = other := by
  have mixed (r : Nat) : Allocation.argumentKey .raw ≠ Allocation.argumentKey (.register r) := by
    intro same
    have signs := congrArg String.toList same
    rw [Allocation.argumentKey, Allocation.argumentKey, String.toList_append, Nat.toString_eq_repr, Nat.toList_repr] at signs
    have digits : ['a', 'w'] = Nat.toDigits 10 r := (List.cons_eq_cons.mp signs).2
    have letter : 'a' ∈ Nat.toDigits 10 r := by rw [← digits]; decide
    exact absurd (Nat.isDigit_of_mem_toDigits (by decide) (by decide) letter) (by decide)
  cases arg with
  | raw =>
    cases other with
    | raw => rfl
    | register r => exact absurd same (mixed r)
  | register r =>
    cases other with
    | raw => exact absurd same.symm (mixed r)
    | register r' =>
      have signs := congrArg String.toList same
      rw [Allocation.argumentKey, Allocation.argumentKey, String.toList_append, String.toList_append,
        Nat.toString_eq_repr, Nat.toString_eq_repr, Nat.toList_repr, Nat.toList_repr] at signs
      rw [toDigits_inj (List.append_cancel_left signs)]

private theorem argumentKeys_inj {args others : List Argument}
    (same : (",".intercalate (args.map Allocation.argumentKey)).toList =
      (",".intercalate (others.map Allocation.argumentKey)).toList) : args = others := by
  have split (args : List Argument) (some : args ≠ []) :
      (",".intercalate (args.map Allocation.argumentKey)).toList.splitOn ',' =
        args.map fun arg => (Allocation.argumentKey arg).toList := by
    have free : ∀ keys ∈ args.map fun arg => (Allocation.argumentKey arg).toList, ',' ∉ keys := by
      refine List.forall_mem_map.mpr fun arg _ member => ?_
      exact (plain_argumentKey arg).2 ',' member (by decide)
    rw [String.toList_intercalate, List.map_map]
    exact List.splitOn_intercalate _ free (by simpa using some)
  have empty (args : List Argument) (none : (",".intercalate (args.map Allocation.argumentKey)).toList = []) : args = [] := by
    by_contra some
    have keys := split args some
    rw [none] at keys
    cases args with
    | nil => exact some rfl
    | cons arg args =>
      have first : [] = (Allocation.argumentKey arg).toList := (List.cons_eq_cons.mp keys).1
      exact (plain_argumentKey arg).1 (String.toList_inj.mp first.symm)
  by_cases none : args = []
  · subst none
    exact (empty others (same.symm.trans (by simp))).symm
  · have some : others ≠ [] := by
      rintro rfl
      exact none (empty args (same.trans (by simp)))
    have keys : args.map (fun arg => (Allocation.argumentKey arg).toList) =
        others.map fun arg => (Allocation.argumentKey arg).toList := by
      rw [← split args none, same, split others some]
    exact List.map_injective_iff.mpr (fun arg other same => argumentKey_inj (String.toList_inj.mp same)) keys

theorem callKey_argumentKeys {σ : Type} (chosen : Registered σ) (args : List Argument) :
    (Typed.callKey chosen (args.map Allocation.argumentKey)).toList =
      (chosen.entry.name.toList ++ '#' :: Nat.toDigits 10 chosen.id) ++
        '(' :: ((",".intercalate (args.map Allocation.argumentKey)).toList ++ [')']) := by
  simp [Typed.callKey, String.toList_append, Nat.toString_eq_repr, Nat.toList_repr]

/-- The key of a call tells its entry and its arguments. -/
theorem callKey_inj {σ φ : Type} {catalog : Catalog σ φ} {chosen other : Registered σ}
    (first : chosen ∈ catalog.registered) (second : other ∈ catalog.registered) {args others : List Argument}
    (same : Typed.callKey chosen (args.map Allocation.argumentKey) = Typed.callKey other (others.map Allocation.argumentKey)) :
    chosen = other ∧ args = others := by
  have free (args : List Argument) : '(' ∉ (",".intercalate (args.map Allocation.argumentKey)).toList ++ [')'] := by
    intro member
    rcases List.mem_append.mp member with member | member
    · rw [String.toList_intercalate, List.map_map] at member
      have signs : ∀ args : List Argument,
          '(' ∉ (",".toList).intercalate (args.map (String.toList ∘ Allocation.argumentKey)) := by
        intro args
        induction args with
        | nil => exact List.not_mem_nil
        | cons arg args ih =>
          have own : '(' ∉ (Allocation.argumentKey arg).toList := fun member =>
            (plain_argumentKey arg).2 '(' member (by decide)
          cases args with
          | nil => simpa using own
          | cons other args =>
            rw [List.map_cons, List.map_cons, List.intercalate_cons_cons]
            simp only [List.mem_append, not_or]
            exact ⟨⟨own, by decide⟩, ih⟩
      exact signs args member
    · exact absurd (List.mem_singleton.mp member) (by decide)
  have digits (chosen : Registered σ) : '#' ∉ Nat.toDigits 10 chosen.id := fun member =>
    absurd (Nat.isDigit_of_mem_toDigits (by decide) (by decide) member) (by decide)
  have signs := congrArg String.toList same
  rw [callKey_argumentKeys, callKey_argumentKeys] at signs
  obtain ⟨fronts, backs⟩ := append_cons_last (free args) (free others) signs
  obtain ⟨-, ids⟩ := append_cons_last (digits chosen) (digits other) fronts
  exact ⟨Catalog.registered_inj first second (toDigits_inj ids), argumentKeys_inj (append_singleton_inj backs).1⟩

theorem constantKey_ne_callKey {σ : Type} {value : Value} (scalar : value.IsScalar) (chosen : Registered σ)
    (args : List Argument) : Typed.constantKey value ≠ Typed.callKey chosen (args.map Allocation.argumentKey) := by
  intro same
  have signs := congrArg String.toList same
  have drawn : Bound.Over (⟨[], [], []⟩ : Catalog σ Unit) (.constant value) := .constant scalar
  obtain ⟨front, last, written, ends⟩ := drawn.endsIn
  rw [Bound.signature] at written
  rw [written, callKey_argumentKeys, ← List.cons_append, ← List.append_assoc] at signs
  obtain ⟨-, rfl⟩ := append_singleton_inj signs
  exact ends (by decide)

end FlowMetering
