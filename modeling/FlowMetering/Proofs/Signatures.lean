import FlowMetering.Proofs.Trees
import FlowMetering.Typed
import Mathlib.Data.List.Induction

/-! Signatures can be read back. Names may hold any characters, but a signature is unambiguous from its end: the
arguments end where the bracket opens, the number before it has no other signs than digits, and the number
tells the name. -/

namespace FlowMetering

namespace Bound

variable {σ : Type}

mutual
/-- The signature of an expression, by structure alone. -/
def signature : Bound σ → String
  | .raw _ => "raw"
  | .constant value => Typed.constantKey value
  | .call binding args => Typed.callKey binding.chosen (signatures args)
termination_by structural tree => tree

def signatures : List (Bound σ) → List String
  | [] => []
  | arg :: args => signature arg :: signatures args
termination_by structural args => args
end

private theorem signatures_eq_map (args : List (Bound σ)) : signatures args = args.map signature := by
  induction args with
  | nil => rfl
  | cons arg args ih => rw [signatures, ih, List.map_cons]

@[simp] theorem signature_call (binding : Binding σ) (args : List (Bound σ)) :
    signature (.call binding args) = Typed.callKey binding.chosen (args.map signature) := by
  rw [signature, signatures_eq_map]

end Bound

def Value.IsScalar : Value → Prop
  | .boolean _ | .signed _ | .unsigned _ | .float _ => True
  | .address _ | .bytes _ | .text _ => False

/-- The signs with a meaning in signatures, and the last sign of the raw input. -/
def reserved : List Char :=
  [':', ',', '(', ')', 'w']

def IsPlain (c : Char) : Prop :=
  c.isDigit = true ∨ c ∈ ['-', '.', 't', 'r', 'u', 'e', 'f', 'a', 'l', 's', 'i', 'n', 'N']

instance : DecidablePred IsPlain :=
  fun c => inferInstanceAs (Decidable (c.isDigit = true ∨ _))

/-- What holds of the characters of a list is decided along the list; to try every character there is would not end. -/
theorem forall_of_all {p : Char → Prop} [DecidablePred p] {cs : List Char} (all : (cs.all fun c => p c) = true) :
    ∀ c ∈ cs, p c :=
  fun c member => of_decide_eq_true (List.all_eq_true.mp all c member)

theorem IsPlain.not_reserved {c : Char} (plain : IsPlain c) : c ∉ reserved := by
  intro member
  simp only [reserved, List.mem_cons, List.not_mem_nil, or_false] at member
  rcases member with rfl | rfl | rfl | rfl | rfl <;> revert plain <;> decide

/-- The digits of a decimal and a point are all that its text has. -/
theorem Decimal.mem_positional {d : Decimal} {c : Char} (member : c ∈ (d.positional false).toList) :
    c.isDigit = true ∨ c = '.' := by
  have digit {c : Char} (member : c ∈ Nat.toDigits 10 d.digits) : c.isDigit = true ∨ c = '.' :=
    .inl (Nat.isDigit_of_mem_toDigits (by decide) (by decide) member)
  unfold positional at member
  rw [String.toList_ofList] at member
  split at member
  · simp only [Bool.false_eq_true, if_false, List.append_nil, List.mem_append, List.mem_replicate] at member
    rcases member with member | ⟨_, rfl⟩
    · exact digit member
    · exact .inl rfl
  · dsimp only at member
    split at member
    · rcases List.mem_append.mp member with member | member
      · exact digit (List.mem_of_mem_take member)
      · rcases List.mem_cons.mp member with rfl | member
        · exact .inr rfl
        · exact digit (List.mem_of_mem_drop member)
    · simp only [List.cons_append, List.mem_cons, List.mem_append, List.mem_replicate] at member
      rcases member with rfl | rfl | ⟨_, rfl⟩ | member
      · exact .inl rfl
      · exact .inr rfl
      · exact .inl rfl
      · exact digit member

def unusual : List String :=
  ["true", "false", "NaN", "inf", "-inf"]

def IsNumeral (c : Char) : Prop :=
  c.isDigit = true ∨ c = '.' ∨ c = '-'

instance : DecidablePred IsNumeral :=
  fun c => inferInstanceAs (Decidable (c.isDigit = true ∨ _))

private theorem numeral_of_toDigits {n : Nat} {c : Char} (member : c ∈ Nat.toDigits 10 n) : IsNumeral c :=
  .inl (Nat.isDigit_of_mem_toDigits (by decide) (by decide) member)

theorem numeral_of_sign {small : Prop} [Decidable small] {s : String} (rest : ∀ c ∈ s.toList, IsNumeral c) :
    ∀ c ∈ ((if small then "" else "-") ++ s).toList, IsNumeral c := by
  intro c member
  rcases List.mem_append.mp (String.toList_append ▸ member) with sign | member
  · split at sign
    · cases sign
    · rw [List.mem_singleton.mp sign]
      exact .inr (.inr rfl)
  · exact rest c member

private theorem text_double_cases (x : Float) :
    (∀ c ∈ (Value.doubleStyle.text x).toList, IsNumeral c) ∨ Value.doubleStyle.text x ∈ unusual := by
  unfold Decimal.Style.text
  dsimp only
  split
  · refine .inl (numeral_of_sign fun c member => ?_)
    rw [List.mem_singleton.mp member]
    exact .inl rfl
  split
  · refine .inr ?_
    split <;> decide
  split
  · exact .inr (by decide)
  · refine .inl (numeral_of_sign fun c member => ?_)
    rcases Decimal.mem_positional member with digit | rfl
    · exact .inl digit
    · exact .inr (.inl rfl)

theorem Value.IsScalar.display_cases {v : Value} (scalar : v.IsScalar) :
    (∀ c ∈ v.display.toList, IsNumeral c) ∨ v.display ∈ unusual := by
  cases v with
  | boolean b => cases b <;> exact .inr (by decide)
  | signed n =>
    refine .inl fun c member => ?_
    rw [display, Int.toString_eq_repr, Int.repr_eq_if] at member
    split at member
    · exact numeral_of_toDigits (Nat.toList_repr ▸ member)
    · rcases List.mem_append.mp (String.toList_append ▸ member) with sign | member
      · exact .inr (.inr (List.mem_singleton.mp sign))
      · exact numeral_of_toDigits (Nat.toList_repr ▸ member)
  | unsigned n =>
    refine .inl fun c member => ?_
    rw [display, Nat.toString_eq_repr, Nat.toList_repr] at member
    exact numeral_of_toDigits member
  | float x => exact text_double_cases x
  | address | bytes | text => cases scalar

private theorem plain_of_unusual : ∀ s ∈ unusual, ∀ c ∈ s.toList, IsPlain c := by
  simp only [unusual, List.forall_mem_cons]
  refine ⟨?_, ?_, ?_, ?_, ?_, List.forall_mem_nil _⟩ <;> exact forall_of_all (by decide)

theorem Value.IsScalar.plain_display {v : Value} (scalar : v.IsScalar) : ∀ c ∈ v.display.toList, IsPlain c := by
  intro c member
  rcases scalar.display_cases with numeral | unusual
  · rcases numeral c member with digit | rfl | rfl
    · exact .inl digit
    · exact .inr (by decide)
    · exact .inr (by decide)
  · exact plain_of_unusual _ unusual c member

namespace Bound

variable {σ φ : Type} {catalog : Catalog σ φ}

/-- The calls of a tree are bound to entries of a catalog, and its constants are scalars. -/
abbrev Over (catalog : Catalog σ φ) : Bound σ → Prop :=
  Tree.All Value.IsScalar (·.chosen ∈ catalog.registered)

end Bound

theorem Catalog.entries_getElem? {σ φ : Type} {catalog : Catalog σ φ} {chosen : Registered σ}
    (registered : chosen ∈ catalog.registered) : catalog.entries[chosen.id]? = some chosen.entry := by
  obtain ⟨⟨entry, id⟩, inside, rfl⟩ := List.mem_map.mp registered
  exact List.mem_zipIdx_iff_getElem?.mp inside

theorem Catalog.mem_entries {σ φ : Type} {catalog : Catalog σ φ} {chosen : Registered σ}
    (registered : chosen ∈ catalog.registered) : chosen.entry ∈ catalog.entries :=
  List.mem_of_getElem? (entries_getElem? registered)

theorem Catalog.registered_inj {σ φ : Type} {catalog : Catalog σ φ} {a b : Registered σ} (first : a ∈ catalog.registered)
    (other : b ∈ catalog.registered) (same : a.id = b.id) : a = b := by
  have found := entries_getElem? first
  rw [same, entries_getElem? other] at found
  cases a
  cases b
  cases same
  cases found
  rfl

theorem toDigits_inj {m n : Nat} (same : Nat.toDigits 10 m = Nat.toDigits 10 n) : m = n := by
  have value (n : Nat) : Nat.ofDigitChars 10 (Nat.toDigits 10 n) 0 = n :=
    Nat.ofDigitChars_toDigits (by decide) (by decide)
  rw [← value m, same, value n]

/-- What follows the last occurrence of a sign tells what comes before it. -/
theorem append_cons_last {α : Type} {c : α} {before before' after after' : List α} (absent : c ∉ after) (absent' : c ∉ after')
    (same : before ++ c :: after = before' ++ c :: after') : before = before' ∧ after = after' := by
  rcases List.append_eq_append_iff.mp same with ⟨between, rfl, rest⟩ | ⟨between, rfl, rest⟩
  · cases between with
    | nil => exact ⟨(List.append_nil _).symm, (List.cons.inj rest).2⟩
    | cons d between =>
      rw [(List.cons.inj rest).2] at absent
      exact absurd (List.mem_append_right _ List.mem_cons_self) absent
  · cases between with
    | nil => exact ⟨List.append_nil _, (List.cons.inj rest).2.symm⟩
    | cons d between =>
      rw [(List.cons.inj rest).2] at absent'
      exact absurd (List.mem_append_right _ List.mem_cons_self) absent'

theorem append_singleton_inj {α : Type} {before before' : List α} {c c' : α}
    (same : before ++ [c] = before' ++ [c']) : before = before' ∧ c = c' := by
  obtain ⟨first, last⟩ := List.append_inj' same rfl
  exact ⟨first, List.singleton_inj.mp last⟩

namespace Bound

variable {σ φ : Type} {catalog : Catalog σ φ}

/-- The signs of the argument list of a signature, with the bracket that opens it. -/
private def opened (args : List (Bound σ)) : List Char :=
  '(' :: (",".intercalate (args.map signature)).toList

/-- The signs of a signature in front of the argument that follows some others. -/
private def introduced (args : List (Bound σ)) : List Char :=
  if args.isEmpty then ['('] else opened args ++ [',']

private theorem opened_append (args : List (Bound σ)) (arg : Bound σ) :
    opened (args ++ [arg]) = introduced args ++ (signature arg).toList := by
  cases args with
  | nil => simp [opened, introduced]
  | cons first rest =>
    rw [opened, List.map_append, List.map_singleton, String.intercalate_append_of_ne_nil (by simp) (by simp)]
    simp [introduced, opened, String.toList_append]

private theorem introduced_inj {args others : List (Bound σ)} {before before' : List Char}
    (same : before ++ introduced args = before' ++ introduced others) :
    args = [] ∧ others = [] ∧ before = before' ∨
      args ≠ [] ∧ others ≠ [] ∧ before ++ opened args = before' ++ opened others := by
  cases args with
  | nil =>
    cases others with
    | nil => exact .inl ⟨rfl, rfl, (append_singleton_inj same).1⟩
    | cons other others =>
      rw [introduced, introduced, List.isEmpty_nil, List.isEmpty_cons, if_pos rfl, if_neg Bool.false_ne_true,
        ← List.append_assoc] at same
      exact absurd (append_singleton_inj same).2 (by decide)
  | cons arg args =>
    cases others with
    | nil =>
      rw [introduced, introduced, List.isEmpty_nil, List.isEmpty_cons, if_pos rfl, if_neg Bool.false_ne_true,
        ← List.append_assoc] at same
      exact absurd (append_singleton_inj same).2 (by decide)
    | cons other others =>
      rw [introduced, introduced, List.isEmpty_cons, List.isEmpty_cons, if_neg Bool.false_ne_true,
        if_neg Bool.false_ne_true, ← List.append_assoc, ← List.append_assoc] at same
      exact .inr ⟨List.cons_ne_nil _ _, List.cons_ne_nil _ _, (append_singleton_inj same).1⟩

private theorem callKey_toList (chosen : Registered σ) (args : List (Bound σ)) :
    (Typed.callKey chosen (args.map signature)).toList =
      chosen.entry.name.toList ++ '#' :: Nat.toDigits 10 chosen.id ++ opened args ++ [')'] := by
  simp [Typed.callKey, opened, String.toList_append, Nat.toString_eq_repr, Nat.toList_repr]

private theorem constantKey_toList (value : Value) :
    (Typed.constantKey value).toList =
      ("const:".toList ++ value.naturalType.name.toList) ++ ':' :: value.display.toList := by
  simp [Typed.constantKey, String.toList_append]

def EndsIn : Bound σ → Char → Prop
  | .raw _, last => last = 'w'
  | .constant _, last => last ∉ ['w', '(', ')']
  | .call _ _, last => last = ')'

theorem Over.endsIn {tree : Bound σ} (drawn : Over catalog tree) :
    ∃ front last, (signature tree).toList = front ++ [last] ∧ EndsIn tree last := by
  cases tree with
  | raw mark => exact ⟨['r', 'a'], 'w', by rw [signature]; rfl, rfl⟩
  | constant value =>
    rw [signature, constantKey_toList]
    rcases List.eq_nil_or_concat value.display.toList with empty | ⟨front, last, shown⟩
    · exact ⟨_, ':', by rw [empty], show ':' ∉ ['w', '(', ')'] by decide⟩
    · rw [List.concat_eq_append] at shown
      refine ⟨_, last, by rw [shown, ← List.cons_append, ← List.append_assoc], fun sign => ?_⟩
      have plain := drawn.value.plain_display last (shown ▸ List.mem_append_right _ (List.mem_singleton_self _))
      have signs : ['w', '(', ')'] ⊆ reserved := by decide
      exact plain.not_reserved (signs sign)
  | call binding args => exact ⟨_, ')', by rw [signature_call, callKey_toList], rfl⟩

private theorem EndsIn.not_opening {tree : Bound σ} (ends : EndsIn tree '(') : False := by
  cases tree with
  | raw mark => exact (show ¬ '(' = 'w' by decide) ends
  | constant value => exact (show ¬ '(' ∉ ['w', '(', ')'] by decide) ends
  | call binding args => exact (show ¬ '(' = ')' by decide) ends

/-- Whether two expressions are both raw inputs, both constants or both calls. -/
def Alike : Bound σ → Bound σ → Prop
  | .raw _, .raw _ | .constant _, .constant _ | .call _ _, .call _ _ => True
  | _, _ => False

private theorem EndsIn.alike {tree other : Bound σ} {last : Char} (ends : EndsIn tree last) (ends' : EndsIn other last) : Alike tree other := by
  have unlike (value : Value) : ¬EndsIn (σ := σ) (.constant value) 'w' ∧ ¬EndsIn (σ := σ) (.constant value) ')' :=
    ⟨fun free => free (by decide), fun free => free (by decide)⟩
  cases tree with
  | raw mark =>
    obtain rfl : last = 'w' := ends
    cases other with
    | raw mark' => trivial
    | constant value' => exact (unlike value').1 ends'
    | call binding' args' => exact (show ¬ 'w' = ')' by decide) ends'
  | constant value =>
    cases other with
    | constant value' => trivial
    | raw mark' =>
      obtain rfl : last = 'w' := ends'
      exact (unlike value).1 ends
    | call binding' args' =>
      obtain rfl : last = ')' := ends'
      exact (unlike value).2 ends
  | call binding args =>
    obtain rfl : last = ')' := ends
    cases other with
    | raw mark' => exact (show ¬ ')' = 'w' by decide) ends'
    | constant value' => exact (unlike value').2 ends'
    | call binding' args' => trivial

private theorem Over.not_opening {tree : Bound σ} (drawn : Over catalog tree) {before before' : List Char} :
    before ++ (signature tree).toList ≠ before' ++ ['('] := by
  intro same
  obtain ⟨front, last, written, ends⟩ := drawn.endsIn
  rw [written, ← List.append_assoc] at same
  obtain ⟨-, rfl⟩ := append_singleton_inj same
  exact ends.not_opening

private theorem opened_inj {args others : List (Bound σ)} (overs : ∀ arg ∈ args, Over catalog arg)
    (overs' : ∀ other ∈ others, Over catalog other)
    (each : ∀ arg ∈ args, ∀ other, Over catalog other → ∀ before before',
      before ++ (signature arg).toList = before' ++ (signature other).toList →
        before = before' ∧ signature arg = signature other)
    {before before' : List Char} (same : before ++ opened args = before' ++ opened others) :
    before = before' ∧ args.map signature = others.map signature := by
  induction args using List.reverseRecOn generalizing others before before' with
  | nil =>
    rcases List.eq_nil_or_concat others with rfl | ⟨others, other, rfl⟩
    · exact ⟨(append_singleton_inj same).1, rfl⟩
    · rw [List.concat_eq_append] at same overs'
      rw [opened_append, ← List.append_assoc] at same
      exact absurd same.symm (overs' other (List.mem_append_right _ (List.mem_singleton_self _))).not_opening
  | append_singleton args arg ih =>
    have drawn := overs arg (List.mem_append_right _ (List.mem_singleton_self _))
    rcases List.eq_nil_or_concat others with rfl | ⟨others, other, rfl⟩
    · rw [opened_append, ← List.append_assoc] at same
      exact absurd same drawn.not_opening
    · rw [List.concat_eq_append] at same overs' ⊢
      rw [opened_append, opened_append, ← List.append_assoc, ← List.append_assoc] at same
      obtain ⟨fronts, last⟩ := each arg (List.mem_append_right _ (List.mem_singleton_self _)) other
        (overs' other (List.mem_append_right _ (List.mem_singleton_self _))) _ _ same
      rw [List.map_append, List.map_append, List.map_singleton, List.map_singleton, last]
      rcases introduced_inj fronts with ⟨rfl, rfl, rfl⟩ | ⟨-, -, rest⟩
      · exact ⟨rfl, rfl⟩
      · obtain ⟨rfl, others⟩ := ih (fun arg member => overs arg (List.mem_append_left _ member))
          (fun other member => overs' other (List.mem_append_left _ member))
          (fun arg member => each arg (List.mem_append_left _ member)) rest
        exact ⟨rfl, by rw [others]⟩

theorem Over.alike {tree other : Bound σ} (drawn : Over catalog tree) (drawn' : Over catalog other)
    {before before' : List Char} (same : before ++ (signature tree).toList = before' ++ (signature other).toList) :
    Alike tree other := by
  obtain ⟨front, last, written, ends⟩ := drawn.endsIn
  obtain ⟨front', last', written', ends'⟩ := drawn'.endsIn
  rw [written, written', ← List.append_assoc, ← List.append_assoc] at same
  obtain ⟨-, rfl⟩ := append_singleton_inj same
  exact ends.alike ends'

private theorem Over.call_inj {binding binding' : Binding σ} {args args' : List (Bound σ)}
    (drawn : Over catalog (.call binding args)) (drawn' : Over catalog (.call binding' args'))
    (each : ∀ arg ∈ args, ∀ other, Over catalog other → ∀ before before',
      before ++ (signature arg).toList = before' ++ (signature other).toList →
        before = before' ∧ signature arg = signature other)
    {before before' : List Char}
    (same : before ++ (signature (.call binding args)).toList = before' ++ (signature (.call binding' args')).toList) :
    before = before' ∧ binding.chosen = binding'.chosen ∧ args.map signature = args'.map signature := by
  have sign : '#' ∉ Nat.toDigits 10 binding.chosen.id ∧ '#' ∉ Nat.toDigits 10 binding'.chosen.id :=
    ⟨fun member => absurd (Nat.isDigit_of_mem_toDigits (by decide) (by decide) member) (by decide),
      fun member => absurd (Nat.isDigit_of_mem_toDigits (by decide) (by decide) member) (by decide)⟩
  rw [signature_call, signature_call, callKey_toList, callKey_toList, ← List.append_assoc before,
    ← List.append_assoc before'] at same
  obtain ⟨same, -⟩ := append_singleton_inj same
  rw [← List.append_assoc before, ← List.append_assoc before'] at same
  obtain ⟨fronts, keys⟩ := opened_inj (fun _ => drawn.arg) (fun _ => drawn'.arg)
    each same
  rw [← List.append_assoc, ← List.append_assoc] at fronts
  obtain ⟨fronts, digits⟩ := append_cons_last sign.1 sign.2 fronts
  have entries : binding.chosen = binding'.chosen :=
    Catalog.registered_inj drawn.head drawn'.head (toDigits_inj digits)
  rw [entries] at fronts
  exact ⟨List.append_cancel_right fronts, entries, keys⟩

private theorem Over.signature_inj {tree other : Bound σ} (drawn : Over catalog tree) (drawn' : Over catalog other)
    {before before' : List Char}
    (same : before ++ (signature tree).toList = before' ++ (signature other).toList) :
    before = before' ∧ signature tree = signature other := by
  induction tree using Tree.induct generalizing other before before' with
  | raw mark =>
    cases other with
    | raw mark' => exact ⟨List.append_cancel_right same, rfl⟩
    | constant value' | call binding' args' => exact (drawn.alike drawn' same).elim
  | constant value =>
    cases other with
    | constant value' =>
      have free {value : Value} (scalar : value.IsScalar) : ':' ∉ value.display.toList := fun member =>
        (scalar.plain_display ':' member).not_reserved (by decide)
      have word (type : FieldType) : ':' ∉ type.name.toList := by cases type <;> decide
      rw [signature, signature, constantKey_toList, constantKey_toList, ← List.append_assoc before,
        ← List.append_assoc before'] at same
      obtain ⟨fronts, shown⟩ := append_cons_last (free drawn.value) (free drawn'.value) same
      have opening : "const:".toList = "const".toList ++ [':'] := rfl
      rw [opening, List.append_assoc "const".toList, List.append_assoc "const".toList, ← List.append_assoc before,
        ← List.append_assoc before'] at fronts
      obtain ⟨fronts, types⟩ := append_cons_last (word _) (word _) fronts
      refine ⟨List.append_cancel_right fronts, String.toList_inj.mp ?_⟩
      rw [signature, signature, constantKey_toList, constantKey_toList, types, shown]
    | raw mark' | call binding' args' => exact (drawn.alike drawn' same).elim
  | call binding args ih =>
    cases other with
    | call binding' args' =>
      obtain ⟨fronts, entries, keys⟩ := drawn.call_inj drawn'
        (fun arg member other drawn' _ _ => ih arg member (drawn.arg member) drawn') same
      exact ⟨fronts, by rw [signature_call, signature_call, entries, keys]⟩
    | raw mark' | constant value' => exact (drawn.alike drawn' same).elim

/-- Calls of equal signatures are calls of one entry on arguments of equal signatures. -/
theorem Over.of_signature_eq {binding binding' : Binding σ} {args args' : List (Bound σ)}
    (drawn : Over catalog (.call binding args)) (drawn' : Over catalog (.call binding' args'))
    (same : signature (.call binding args) = signature (.call binding' args')) :
    binding.chosen = binding'.chosen ∧ args.map signature = args'.map signature :=
  (drawn.call_inj drawn' (fun _ member _ drawn' _ _ => Over.signature_inj (drawn.arg member) drawn')
    (congrArg ([] ++ ·.toList) same)).2

end Bound

end FlowMetering
