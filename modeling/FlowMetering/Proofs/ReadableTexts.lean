import FlowMetering.Expression
import FlowMetering.Proofs.ConstantKeys
import Mathlib.Data.List.Forall2

/-! Texts of expressions can be read back, up to the types of constants: a whole number and a double may be written alike.
Words are set apart by brackets and commas, and a word is a name or the text of a constant. -/

namespace FlowMetering

/-- Expressions of one spelling: the same expression but for constants that have different types and the same text. -/
inductive Expression.Homograph : Expression → Expression → Prop
  | raw : Homograph (.raw ()) (.raw ())
  | constant {a b : Value} (same : a = b ∨ a.naturalType ≠ b.naturalType ∧ a.display = b.display) :
    Homograph (.constant a) (.constant b)
  | call {name : String} {args args' : List Expression} (each : List.Forall₂ Homograph args args') :
    Homograph (.call name args) (.call name args')

def separators : List Char :=
  ['(', ',', ')']

private def StartsIn (others rest : List Char) : Prop :=
  ∀ c, rest.head? = some c → c ∈ others

private theorem word_inj {others word word' rest rest' : List Char} (whole : ∀ c ∈ word, c ∉ others)
    (whole' : ∀ c ∈ word', c ∉ others) (starts : StartsIn others rest) (starts' : StartsIn others rest')
    (same : word ++ rest = word' ++ rest') : word = word' ∧ rest = rest' := by
  rcases List.append_eq_append_iff.mp same with ⟨between, rfl, rfl⟩ | ⟨between, rfl, rfl⟩
  · cases between with
    | nil => exact ⟨(List.append_nil _).symm, rfl⟩
    | cons c between => exact absurd (starts c rfl) (whole' c (by simp))
  · cases between with
    | nil => exact ⟨List.append_nil _, rfl⟩
    | cons c between => exact absurd (starts' c rfl) (whole c (by simp))

structure IsName (name : String) : Prop where
  whole : ∀ c ∈ name.toList, c ∉ separators
  lettered : ∃ c ∈ name.toList, ¬ IsNumeral c
  usual : name ∉ unusual

instance (name : String) : Decidable (IsName name) :=
  decidable_of_iff ((name.toList.all fun c => decide (c ∉ separators)) ∧ (name.toList.any fun c => decide ¬IsNumeral c) ∧
    name ∉ unusual) (by
      simp only [List.all_eq_true, List.any_eq_true, decide_eq_true_eq]
      exact ⟨fun ⟨whole, lettered, usual⟩ => ⟨whole, lettered, usual⟩, fun named => ⟨named.whole, named.lettered, named.usual⟩⟩)

private theorem IsName.ne_display {name : String} (named : IsName name) {v : Value} (scalar : v.IsScalar) : v.display ≠ name := by
  rintro rfl
  obtain ⟨c, member, other⟩ := named.lettered
  rcases scalar.display_cases with numeral | unusual
  · exact other (numeral c member)
  · exact named.usual unusual

namespace Expression

/-- An expression whose text can be read: calls have names, and the raw input stands for the arguments of a name alone. -/
inductive Legible : Expression → Prop
  | constant {value : Value} (scalar : value.IsScalar) : Legible (.constant value)
  | name {name : String} (named : IsName name) : Legible (.call name [.raw ()])
  | call {name : String} {arg : Expression} {args : List Expression} (named : IsName name) 
    (each : ∀ arg' ∈ arg :: args, Legible arg') : Legible (.call name (arg :: args))

private def closing : List Expression → List Char
  | [] => [')']
  | arg :: args => ',' :: arg.text.toList ++ closing args

private abbrev Ends (rest : List Char) : Prop :=
  StartsIn [',', ')'] rest

private theorem ends_closing (args : List Expression) (rest : List Char) : Ends (closing args ++ rest) := by
  cases args <;> rintro c ⟨⟩ <;> decide

private theorem Legible.not_raw {e : Expression} (legible : e.Legible) : e.isRaw = false := by
  cases legible <;> rfl

private theorem toList_text_call {name : String} {arg : Expression} {args : List Expression}
    (shown : ∀ arg' ∈ arg :: args, arg'.isRaw = false) :
    (text (.call name (arg :: args))).toList = name.toList ++ '(' :: (arg.text.toList ++ closing args) := by
  have visible : Tree.renderVisible id (arg :: args) = (arg :: args).map text := by
    rw [Tree.renderVisible_eq, List.filter_eq_self.mpr fun arg' member => by rw [shown arg' member]; rfl]
    rfl
  have joined (arg : Expression) (args : List Expression) :
      (",".intercalate ((arg :: args).map text)).toList ++ [')'] = arg.text.toList ++ closing args := by
    induction args generalizing arg with
    | nil => simp [closing]
    | cons next args ih =>
      rw [List.map_cons, List.map_cons, String.intercalate_cons_cons, ← List.map_cons (f := text), String.toList_append,
        String.toList_append, List.append_assoc, ih, closing]
      simp
  rw [text, Tree.render, visible, ← joined]
  simp [String.toList_append]

private def word : Expression → String
  | .raw _ => ""
  | .constant value => value.display
  | .call name _ => name

private def behind : Expression → List Char
  | .call _ (arg :: args) => if arg.isRaw then [] else '(' :: ((text arg).toList ++ closing args)
  | _ => []

private theorem behind_call {name : String} {arg : Expression} {args : List Expression} (shown : arg.isRaw = false) :
    behind (.call name (arg :: args)) = '(' :: ((text arg).toList ++ closing args) := by
  rw [behind, shown, if_neg Bool.false_ne_true]

namespace Legible

variable {e f : Expression}

private theorem toList_text (legible : e.Legible) : e.text.toList = e.word.toList ++ e.behind := by
  cases legible with
  | constant scalar => exact (List.append_nil _).symm
  | name named => exact (List.append_nil _).symm
  | call named each =>
    rw [toList_text_call fun arg member => (each arg member).not_raw, word, behind_call (each _ List.mem_cons_self).not_raw]

private theorem whole_word (legible : e.Legible) : ∀ c ∈ e.word.toList, c ∉ separators := by
  cases legible with
  | constant scalar =>
    have signs : separators ⊆ reserved := by decide
    exact fun c member sign => (scalar.plain_display c member).not_reserved (signs sign)
  | name named => exact named.whole
  | call named each => exact named.whole

private theorem startsIn_behind {rest : List Char} (ends : Ends rest) : StartsIn separators (e.behind ++ rest) := by
  have signs : [',', ')'] ⊆ separators := by decide
  unfold behind
  split
  · split
    · exact fun c first => signs (ends c first)
    · rintro c ⟨⟩
      decide
  · exact fun c first => signs (ends c first)

private theorem split_inj (legible : e.Legible) (legible' : f.Legible) {rest rest' : List Char} (ends : Ends rest) (ends' : Ends rest')
    (same : e.text.toList ++ rest = f.text.toList ++ rest') : e.word = f.word ∧ e.behind ++ rest = f.behind ++ rest' := by
  rw [legible.toList_text, legible'.toList_text, List.append_assoc, List.append_assoc] at same
  obtain ⟨words, last⟩ := word_inj legible.whole_word legible'.whole_word (startsIn_behind ends) (startsIn_behind ends') same
  exact ⟨String.toList_inj.mp words, last⟩

end Legible

/-- The text of an expression tells how it is spelled, and where it ends. -/
private def Readable (e : Expression) : Prop :=
  ∀ f rest rest', f.Legible → Ends rest → Ends rest' → e.text.toList ++ rest = f.text.toList ++ rest' →
    Homograph e f ∧ rest = rest'

private theorem closing_inj {args args' : List Expression} (each : ∀ arg ∈ args, arg.Readable) (each' : ∀ arg ∈ args', arg.Legible)
    {rest rest' : List Char} (same : closing args ++ rest = closing args' ++ rest') :
    List.Forall₂ Homograph args args' ∧ rest = rest' := by
  induction args generalizing args' with
  | nil =>
    cases args' with
    | nil => exact ⟨.nil, (List.cons.inj same).2⟩
    | cons => exact absurd (List.cons.inj same).1 (by decide)
  | cons arg args ih =>
    cases args' with
    | nil => exact absurd (List.cons.inj same).1 (by decide)
    | cons arg' args' =>
      rw [closing, closing, List.cons_append, List.cons_append, List.cons_append, List.cons_append, List.append_assoc,
        List.append_assoc] at same
      obtain ⟨first, others⟩ := each arg List.mem_cons_self arg' _ _ (each' arg' List.mem_cons_self) (ends_closing _ _)
        (ends_closing _ _) (List.cons.inj same).2
      obtain ⟨spelled, last⟩ := ih (fun arg member => each arg (List.mem_cons_of_mem _ member))
        (fun arg member => each' arg (List.mem_cons_of_mem _ member)) others
      exact ⟨.cons first spelled, last⟩

private theorem Legible.readable {e : Expression} (legible : e.Legible) : e.Readable := by
  intro f rest rest' legible' ends stops same
  induction e using Tree.induct generalizing f rest rest' with
  | raw mark => cases legible
  | constant value =>
    obtain ⟨words, last⟩ := legible.split_inj legible' ends stops same
    cases legible with
    | constant scalar =>
      cases legible' with
      | @constant other scalar' =>
        refine ⟨.constant ?_, last⟩
        by_cases sort : value.naturalType = other.naturalType
        · exact .inl (scalar.display_inj scalar' sort words)
        · exact .inr ⟨sort, words⟩
      | name named | call named => exact absurd words (named.ne_display scalar)
  | call name args ih =>
    obtain ⟨words, last⟩ := legible.split_inj legible' ends stops same
    cases legible with
    | name named =>
      cases legible' with
      | constant scalar => exact absurd words.symm (named.ne_display scalar)
      | name named' =>
        obtain rfl : name = _ := words
        exact ⟨.call (.cons .raw .nil), last⟩
      | call named' each' =>
        rw [behind_call (each' _ List.mem_cons_self).not_raw] at last
        exact absurd (ends '(' (congrArg List.head? last)) (by decide)
    | @call _ arg args named each =>
      rw [behind_call (each _ List.mem_cons_self).not_raw] at last
      cases legible' with
      | constant scalar => exact absurd words.symm (named.ne_display scalar)
      | name named' => exact absurd (stops '(' (congrArg List.head? last.symm)) (by decide)
      | @call _ arg' args' named' each' =>
        obtain rfl : name = _ := words
        rw [behind_call (each' _ List.mem_cons_self).not_raw] at last
        have all : closing (arg :: args) ++ rest = closing (arg' :: args') ++ rest' :=
          congrArg (',' :: ·) (List.cons.inj last).2
        obtain ⟨spelled, last⟩ := closing_inj (fun arg member => ih arg member (each arg member)) each' all
        exact ⟨.call spelled, last⟩

namespace Homograph

variable {e f : Expression}

theorem symm (spelled : Homograph e f) : Homograph f e := by
  induction e using Tree.induct generalizing f with
  | raw mark =>
    cases spelled
    exact .raw
  | constant value =>
    cases spelled with
    | constant same => exact .constant (same.imp Eq.symm fun ⟨types, texts⟩ => ⟨types.symm, texts.symm⟩)
  | call name args ih =>
    cases spelled with
    | call each =>
      refine .call ?_
      induction each with
      | nil => exact .nil
      | cons first rest ih' =>
        exact .cons (ih _ List.mem_cons_self first) (ih' fun arg member => ih arg (List.mem_cons_of_mem _ member))

private theorem isRaw_eq (spelled : Homograph e f) : e.isRaw = f.isRaw := by
  cases spelled <;> rfl

private theorem text_eq (spelled : Homograph e f) : e.text = f.text := by
  induction e using Tree.induct generalizing f with
  | raw mark =>
    cases spelled
    rfl
  | constant value =>
    cases spelled with
    | constant same => exact same.elim (congrArg Value.display) And.right
  | call name args ih =>
    cases spelled with
    | @call _ _ args' each =>
      have visible : Tree.renderVisible id args = Tree.renderVisible id args' := by
        induction each with
        | nil => rfl
        | @cons arg arg' args args' first rest ih' =>
          have others := ih' fun arg member => ih arg (List.mem_cons_of_mem _ member)
          have text := ih arg List.mem_cons_self first
          have raw := first.isRaw_eq
          rw [Tree.renderVisible_eq, Tree.renderVisible_eq] at others ⊢
          rw [List.filter_cons, List.filter_cons, raw]
          split
          · exact List.cons_eq_cons.mpr ⟨text, others⟩
          · exact others
      rw [text, text, Tree.render, Tree.render, visible]

/-- Without constants one spelling is one expression. -/
theorem eq_of_constantless (spelled : Homograph e f) (constantless : Tree.All (fun _ => False) (fun _ => True) e) : e = f := by
  induction e using Tree.induct generalizing f with
  | raw mark =>
    cases spelled
    rfl
  | constant value => exact constantless.value.elim
  | call name args ih =>
    cases spelled with
    | @call _ _ args' each =>
      refine congrArg (Tree.call name) ?_
      induction each with
      | nil => rfl
      | cons first rest ih' =>
        have others := ih' (fun arg member => ih arg (List.mem_cons_of_mem _ member))
          (.call trivial fun _ member => constantless.arg (List.mem_cons_of_mem _ member))
        rw [ih _ List.mem_cons_self first (constantless.arg List.mem_cons_self), others]

end Homograph

/-- Texts tell how expressions are spelled. -/
theorem Legible.text_eq_iff {e f : Expression} (legible : e.Legible) (legible' : f.Legible) :
    e.text = f.text ↔ Homograph e f := by
  have ends : Ends [] := nofun
  exact ⟨fun same => (legible.readable f [] [] legible' ends ends (by rw [same])).1, Homograph.text_eq⟩

end Expression

end FlowMetering
