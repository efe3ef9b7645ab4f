import FlowMetering.Proofs.AddressTexts
import FlowMetering.Value

/-! Values in JSON. The form of a value does not name its sort, so what is read back is the first sort that has the form: a
whole number is signed where it fits, and a text that spells an address is one. All other values are read back as they are. -/

namespace FlowMetering

theorem Value.ofNumber_ofInt64 (n : Int64) : Value.ofNumber (.ofInt64 n) = .signed n := by
  have range := n.toInt_lt
  rw [Json.Number.ofInt64]
  split
  next => rfl
  next natural =>
    have whole : (n.toInt.toNat.toUInt64.toNat : Int) = n.toInt := by
      have small : n.toInt.toNat < 18446744073709551616 := by omega
      rw [Nat.toUInt64_eq, UInt64.toNat_ofNat_of_lt' small]
      omega
    rw [Value.ofNumber, whole, Word.signed?_eq_some_iff.mpr rfl]

namespace Value

theorem octetOfJson?_octet (octet : UInt8) : octetOfJson? (.number (.natural octet.toNat.toUInt64)) = some octet := by
  have bound := octet.toNat_lt
  have small : octet.toNat < 18446744073709551616 := by omega
  rw [octetOfJson?, Nat.toUInt64_eq, UInt64.toNat_ofNat_of_lt' small, if_pos bound]
  simp

theorem mapM_octets (octets : List UInt8) :
    (octets.map fun octet => Json.number (.natural octet.toNat.toUInt64)).mapM octetOfJson? = some octets := by
  induction octets with
  | nil => rfl
  | cons octet octets ih =>
    rw [List.map_cons, List.mapM_cons, octetOfJson?_octet, ih]
    rfl

/-- In JSON, an unsigned whole number is taken for the signed one with its value, and a text for the address that it spells. -/
inductive Mistaken : Value → Value → Prop
  | signed {n : UInt64} {m : Int64} (same : m.toInt = n.toNat) : Mistaken (.unsigned n) (.signed m)
  | address {s : String} {a : Address} (spells : Address.parse? s = some a) : Mistaken (.text s) (.address a)

/-- A value, of which a double is finite, is read back from its JSON form as it is unless it is taken for another one. -/
theorem read_back_unless_mistaken (v : Value) (finite : ∀ x, v = .float x → x.isFinite = true) :
    (∀ other, Mistaken v other → ofJson? v.toJson = some other) ∧
    ((∀ other, ¬Mistaken v other) → ofJson? v.toJson = some v) := by
  constructor
  · intro other mistaken
    cases mistaken with
    | signed same => rw [toJson, ofJson?, ofNumber, Word.signed?_eq_some_iff.mpr same]
    | address spells => rw [toJson, ofJson?, spells]
  · intro plain
    cases v with
    | boolean b => rfl
    | signed n => exact congrArg some (ofNumber_ofInt64 n)
    | unsigned n =>
      rw [toJson, ofJson?, ofNumber]
      cases fits : Word.signed? n.toNat with
      | none => rfl
      | some m => exact absurd (.signed (Word.signed?_eq_some_iff.mp fits)) (plain _)
    | float x =>
      rw [toJson, if_pos (finite x rfl)]
      rfl
    | address a => rw [toJson, ofJson?, Address.parse?_text]
    | bytes octets => rw [toJson, ofJson?, mapM_octets, Option.map_some]
    | text s =>
      rw [toJson, ofJson?]
      cases spells : Address.parse? s with
      | none => rfl
      | some a => exact absurd (.address spells) (plain _)

theorem read_back_unless_mistaken_half : (∀ x, Value.float 0.5 = .float x → x.isFinite = true) ∧
    ofJson? (Value.float 0.5).toJson = some (.float 0.5) ∧
    (∀ other, ¬Mistaken (.unsigned 0xffffffffffffffff) other) ∧
    ofJson? (Value.unsigned 0xffffffffffffffff).toJson = some (.unsigned 0xffffffffffffffff) ∧
    ofJson? (Value.address (.v6 0xffff0a000001)).toJson = some (.address (.v6 0xffff0a000001)) := by
  have finite : ∀ x, Value.float 0.5 = .float x → x.isFinite = true := by
    rintro x ⟨⟩
    decide +kernel
  have large (other : Value) : ¬Mistaken (.unsigned 0xffffffffffffffff) other := by
    intro mistaken
    cases mistaken with
    | @signed _ m same =>
      have bound := m.toInt_lt
      have value : (0xffffffffffffffff : UInt64).toNat = 0xffffffffffffffff := rfl
      omega
  have whole := read_back_unless_mistaken (.unsigned 0xffffffffffffffff) fun _ same => nomatch same
  have mapped := read_back_unless_mistaken (.address (.v6 0xffff0a000001)) fun _ same => nomatch same
  exact ⟨finite, (read_back_unless_mistaken _ finite).2 nofun, large, whole.2 large, mapped.2 nofun⟩

/-- Not every value is read back as it is: a small unsigned number comes back signed, and the text of an address as the address. -/
theorem not_every_value_survives : ofJson? (Value.unsigned 5).toJson = some (.signed 5) ∧
    ofJson? (Value.text "10.0.0.1").toJson = some (.address (.v4 0x0a000001)) ∧
    ¬∀ v : Value, (∀ x, v = .float x → x.isFinite = true) → ofJson? v.toJson = some v := by
  have signed : ofJson? (Value.unsigned 5).toJson = some (.signed 5) := by rfl
  have spells : Address.parse? "10.0.0.1" = some (.v4 0x0a000001) := by decide +kernel
  refine ⟨signed, by rw [toJson, ofJson?, spells], ?_⟩
  intro survives
  have unsigned := survives (.unsigned 5) fun _ same => nomatch same
  cases signed.symm.trans unsigned

end Value

end FlowMetering
