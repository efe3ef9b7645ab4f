import FlowMetering.Address
import Mathlib.Data.List.Induction
import Mathlib.Data.List.TakeDrop

/-! The texts of addresses read back. A number in front of a text is read as far as its digits go, so the reader finds the
octets and groups that have been written. Two colons stand for the zeros that are missing from eight groups, and the groups
are the places of the address in radix 65536. -/

namespace FlowMetering

namespace Text

theorem ofDigits_append_singleton (radix : Nat) (digits : List Nat) (digit : Nat) :
    ofDigits radix (digits ++ [digit]) = radix * ofDigits radix digits + digit := by
  rw [ofDigits, List.foldl_append]
  rfl

structure Knows (read? : Char → Option Nat) (radix : Nat) : Prop where
  large : 1 < radix
  reads : ∀ d < radix, read? (Nat.digitChar d) = some d

theorem knows_digit? : Knows digit? 10 := ⟨by decide, by decide⟩

theorem knows_hexDigit? : Knows hexDigit? 16 := ⟨by decide, by decide⟩

theorem isSome_hexDigit? {c : Char} (digit : (digit? c).isSome = true) : (hexDigit? c).isSome = true := by
  rw [digit?] at digit
  split at digit
  next decimal => rw [hexDigit?, if_pos decimal, Option.isSome_some]
  next => cases digit

def Ends (read? : Char → Option Nat) (text : List Char) : Prop :=
  ∀ c ∈ text.head?, read? c = none

namespace Knows

variable {read? : Char → Option Nat} {radix : Nat} (knows : Knows read? radix)
include knows

private theorem induct {motive : Nat → List Char → Prop} (single : ∀ n < radix, motive n [Nat.digitChar n])
    (longer : ∀ n digits, ¬n < radix → motive (n / radix) digits → motive n (digits ++ [Nat.digitChar (n % radix)])) (n : Nat) :
    motive n (Nat.toDigits radix n) := by
  induction n using Nat.strongRecOn with
  | ind n ih =>
    by_cases small : n < radix
    · rw [Nat.toDigits_of_lt_base small]
      exact single n small
    · have large := knows.large
      rw [Nat.toDigits_of_base_le large (Nat.le_of_not_lt small)]
      exact longer n _ small (ih (n / radix) (Nat.div_lt_self (by omega) large))

private theorem ofDigits_toDigits (n : Nat) : ofDigits radix ((Nat.toDigits radix n).filterMap read?) = n := by
  have large := knows.large
  refine knows.induct (motive := fun n digits => ofDigits radix (digits.filterMap read?) = n) ?_ ?_ n
  · intro n small
    simp [knows.reads n small, ofDigits]
  · intro n digits _ ih
    have last := knows.reads (n % radix) (Nat.mod_lt n (by omega))
    rw [List.filterMap_append, List.filterMap_cons_some last, List.filterMap_nil, ofDigits_append_singleton, ih, Nat.div_add_mod]

private theorem isSome_of_mem (n : Nat) : ∀ c ∈ Nat.toDigits radix n, (read? c).isSome = true := by
  have large := knows.large
  refine knows.induct (motive := fun _ digits => ∀ c ∈ digits, (read? c).isSome = true) ?_ ?_ n
  · intro n small
    simp [knows.reads n small]
  · intro n digits _ ih
    have last := knows.reads (n % radix) (Nat.mod_lt n (by omega))
    simpa [or_imp, forall_and, last] using ih

private theorem eq_zero_of_head? {n : Nat} (zero : (Nat.toDigits radix n).head? = some '0') : n = 0 := by
  have large := knows.large
  refine (knows.induct (motive := fun n digits => digits ≠ [] ∧ (digits.head? = some '0' → n = 0)) ?_ ?_ n).2 zero
  · intro n small
    simp
  · rintro n digits big ⟨some, ih⟩
    refine ⟨by simp, ?_⟩
    intro zero
    rw [List.head?_append, Option.or_of_isSome (List.isSome_head?.mpr some)] at zero
    have below := ih zero
    rw [Nat.div_eq_zero_iff] at below
    omega

private theorem dropWhile_toDigits (n : Nat) (rest : List Char) :
    (Nat.toDigits radix n ++ rest).dropWhile (fun c => (read? c).isSome) = rest.dropWhile fun c => (read? c).isSome :=
  List.dropWhile_append_of_pos (knows.isSome_of_mem n)

private theorem readPlace_toDigits {most n : Nat} (short : (Nat.toDigits radix n).length ≤ most) {rest : List Char}
    (ends : Ends read? rest) : Address.readPlace read? radix most (Nat.toDigits radix n ++ rest) = some (n, rest) := by
  have split : (Nat.toDigits radix n ++ rest).span (fun c => (read? c).isSome) = (Nat.toDigits radix n, rest) := by
    rw [List.span_eq_takeWhile_dropWhile, knows.dropWhile_toDigits, List.takeWhile_append_of_pos (knows.isSome_of_mem n)]
    cases rest with
    | nil => simp
    | cons c rest => simp [ends c rfl]
  have some : (Nat.toDigits radix n).isEmpty = false := by simp
  rw [Address.readPlace, split]
  simp [some, Nat.not_lt.mpr short, knows.ofDigits_toDigits]

end Knows

end Text

namespace Address

open Text (Ends knows_digit? knows_hexDigit?)

theorem readOctet_toDigits {n : Nat} (small : n < 256) {rest : List Char} (ends : Ends Text.digit? rest) :
    readOctet (Nat.toDigits 10 n ++ rest) = some (n, rest) := by
  have short : (Nat.toDigits 10 n).length ≤ 3 := (Nat.length_toDigits_le_iff (by decide) (by decide)).mpr (by omega)
  have plain : (Nat.toDigits 10 n).head? = some '0' → (Nat.toDigits 10 n).length = 1 := by
    intro zero
    rw [knows_digit?.eq_zero_of_head? zero]
    rfl
  have some : Nat.toDigits 10 n ≠ [] := Nat.toDigits_ne_nil
  rw [readOctet, knows_digit?.readPlace_toDigits short ends]
  dsimp only
  rw [List.head?_append, Option.or_of_isSome (List.isSome_head?.mpr some), List.length_append, Nat.add_sub_cancel]
  by_cases zero : (Nat.toDigits 10 n).head? = Option.some '0'
  · simp [plain zero, Nat.not_lt.mpr (Nat.le_of_lt_succ small)]
  · simp [zero, Nat.not_lt.mpr (Nat.le_of_lt_succ small)]

theorem readGroup_toDigits {n : Nat} (small : n < 65536) {rest : List Char} (ends : Ends Text.hexDigit? rest) :
    readGroup (Nat.toDigits 16 n ++ rest) = some (n, rest) :=
  knows_hexDigit?.readPlace_toDigits ((Nat.length_toDigits_le_iff (by decide) (by decide)).mpr (by omega)) ends

theorem readOctet_rest {text rest : List Char} {n : Nat} (read : readOctet text = some (n, rest)) :
    rest = text.dropWhile fun c => (Text.digit? c).isSome := by
  rw [readOctet, readPlace, List.span_eq_takeWhile_dropWhile] at read
  dsimp only at read
  split at read
  next value rest' placed =>
    split at placed
    · cases placed
    · split at read
      · cases read
      · cases placed
        cases read
        rfl
  next => cases read

def quadChars (a b c d : Nat) (rest : List Char) : List Char :=
  Nat.toDigits 10 a ++ '.' :: (Nat.toDigits 10 b ++ '.' :: (Nat.toDigits 10 c ++ '.' :: (Nat.toDigits 10 d ++ rest)))

theorem readQuad_quadChars {a b c d : Nat} (each : ∀ n ∈ [a, b, c, d], n < 256) {rest : List Char}
    (ends : Ends Text.digit? rest) : readQuad (quadChars a b c d rest) = some ([a, b, c, d], rest) := by
  have point (text : List Char) : Ends Text.digit? ('.' :: text) := by
    rintro c ⟨⟩
    rfl
  simp only [List.forall_mem_cons, List.not_mem_nil, false_imp_iff, implies_true, and_true] at each
  obtain ⟨first, second, third, fourth⟩ := each
  simp [readQuad, quadChars, readOctet_toDigits first (point _), readOctet_toDigits second (point _),
    readOctet_toDigits third (point _), readOctet_toDigits fourth ends, skip]

/-- There is no dotted quad where something else than a point ends the hexadecimal digits at the front. -/
theorem readQuad_eq_none {text : List Char}
    (pointless : (text.dropWhile fun c => (Text.hexDigit? c).isSome).head? ≠ some '.') : readQuad text = none := by
  cases read : readOctet text with
  | none => simp [readQuad, read]
  | some octet =>
    obtain ⟨n, rest⟩ := octet
    have behind := readOctet_rest read
    suffices skipped : skip '.' rest = none by simp [readQuad, read, skipped]
    cases rest with
    | nil => rfl
    | cons c rest =>
      rw [skip, if_neg]
      rintro rfl
      apply pointless
      have digits : ∀ c ∈ text.takeWhile (fun c => (Text.digit? c).isSome), (Text.hexDigit? c).isSome = true := by
        intro c member
        exact Text.isSome_hexDigit? (List.all_eq_true.mp List.all_takeWhile c member)
      rw [← List.takeWhile_append_dropWhile (p := fun c => (Text.digit? c).isSome) (l := text), ← behind,
        List.dropWhile_append_of_pos digits]
      rfl

def Behind (rest : List Char) : Prop :=
  ∀ c ∈ rest.head?, c = ':'

inductive Closes : List Char → Prop
  | nothing : Closes []
  | gap (more : List Char) : Closes (':' :: ':' :: more)

private theorem Behind.ends {rest : List Char} (behind : Behind rest) : Ends Text.hexDigit? rest := by
  intro c front
  rw [behind c front]
  rfl

private theorem Closes.behind {rest : List Char} (closes : Closes rest) : Behind rest := by
  cases closes with
  | nothing => nofun
  | gap => rintro c ⟨⟩; rfl

private theorem Behind.pointless {rest : List Char} (behind : Behind rest) :
    (rest.dropWhile fun c => (Text.hexDigit? c).isSome).head? ≠ some '.' := by
  cases rest with
  | nil => simp
  | cons c rest =>
    rw [behind c rfl]
    exact show some ':' ≠ some '.' by decide

private theorem Behind.readQuad {rest : List Char} (behind : Behind rest) (g : Nat) :
    readQuad (Nat.toDigits 16 g ++ rest) = none := by
  apply readQuad_eq_none
  rw [knows_hexDigit?.dropWhile_toDigits]
  exact behind.pointless

section Groups

variable {first : Bool} {most g : Nat} {gs : List Nat} {text rest : List Char}

theorem readGroups_group (opened : (if first then some text else skip ':' text) = some (Nat.toDigits 16 g ++ rest))
    (small : g < 65536) (behind : Behind rest) :
    readGroups first (most + 1) text = (g :: (readGroups false most rest).1, (readGroups false most rest).2) := by
  rw [readGroups, opened]
  simp [behind.readQuad, readGroup_toDigits small behind.ends]

theorem readGroups_closes (closes : Closes rest) : readGroups first most rest = ([], false, rest) := by
  have nothing : readQuad [] = none := rfl
  have colon (more : List Char) : readQuad (':' :: more) = none ∧ readGroup (':' :: more) = none := ⟨rfl, rfl⟩
  cases most with
  | zero => rfl
  | succ most =>
    rw [readGroups]
    cases closes with
    | nothing => cases first <;> simp [skip, nothing, readGroup, readPlace]
    | gap more => cases first <;> simp [skip, colon]

def tailChars (gs : List Nat) : List Char :=
  gs.flatMap fun g => ':' :: Nat.toDigits 16 g

def groupChars : List Nat → List Char
  | [] => []
  | g :: gs => Nat.toDigits 16 g ++ tailChars gs

theorem toList_groupsText (gs : List Nat) : (groupsText gs).toList = groupChars gs := by
  rw [groupsText, String.toList_intercalate]
  induction gs with
  | nil => rfl
  | cons g gs ih =>
    cases gs with
    | nil => simp [groupChars, tailChars]
    | cons g' gs =>
      simp only [List.map_cons, List.intercalate_cons_cons] at ih ⊢
      rw [ih]
      simp [groupChars, tailChars]

private theorem Behind.tail (behind : Behind rest) (gs : List Nat) : Behind (tailChars gs ++ rest) := by
  cases gs with
  | nil => exact behind
  | cons g gs => rintro c ⟨⟩; rfl

private theorem Behind.pointless_groupChars (behind : Behind rest) (gs : List Nat) :
    ((groupChars gs ++ rest).dropWhile fun c => (Text.hexDigit? c).isSome).head? ≠ some '.' := by
  cases gs with
  | nil => exact behind.pointless
  | cons g gs =>
    rw [groupChars, List.append_assoc, knows_hexDigit?.dropWhile_toDigits]
    exact (behind.tail gs).pointless

theorem readGroups_tailChars (small : ∀ g ∈ gs, g < 65536) (fits : gs.length ≤ most) (closes : Closes rest) :
    readGroups false most (tailChars gs ++ rest) = (gs, false, rest) := by
  induction gs generalizing most with
  | nil => exact readGroups_closes closes
  | cons g gs ih =>
    rw [List.forall_mem_cons] at small
    cases most with
    | zero => cases fits
    | succ most =>
      have opened : (if false then some (tailChars (g :: gs) ++ rest) else skip ':' (tailChars (g :: gs) ++ rest)) =
          some (Nat.toDigits 16 g ++ (tailChars gs ++ rest)) := by
        simp [tailChars, skip]
      rw [readGroups_group opened small.1 (closes.behind.tail gs), ih small.2 (Nat.le_of_succ_le_succ fits)]

theorem readGroups_groupChars (small : ∀ g ∈ gs, g < 65536) (fits : gs.length ≤ most) (closes : Closes rest) :
    readGroups true most (groupChars gs ++ rest) = (gs, false, rest) := by
  cases gs with
  | nil => exact readGroups_closes closes
  | cons g gs =>
    rw [List.forall_mem_cons] at small
    cases most with
    | zero => cases fits
    | succ most =>
      have opened : (if true then some (groupChars (g :: gs) ++ rest) else skip ':' (groupChars (g :: gs) ++ rest)) =
          some (Nat.toDigits 16 g ++ (tailChars gs ++ rest)) := by
        simp [groupChars]
      rw [readGroups_group opened small.1 (closes.behind.tail gs),
        readGroups_tailChars small.2 (Nat.le_of_succ_le_succ fits) closes]

end Groups

section Sixes

variable {front back : List Nat} (small : ∀ g ∈ front, g < 65536) (small' : ∀ g ∈ back, g < 65536)
include small

theorem read6_groupChars (whole : front.length = 8) : read6 (groupChars front) = some (front, []) := by
  have read := readGroups_groupChars small (Nat.le_of_eq whole) .nothing
  rw [List.append_nil] at read
  simp [read6, read, whole]

include small'

/-- Two colons stand for as many zeros as are missing. -/
theorem read6_gap (short : front.length + back.length < 8) : read6 (groupChars front ++ ':' :: ':' :: groupChars back) =
    some (front ++ List.replicate (8 - front.length - back.length) 0 ++ back, []) := by
  have head := readGroups_groupChars small (show front.length ≤ 8 by omega) (.gap (groupChars back))
  have tail := readGroups_groupChars small' (show back.length ≤ 7 - front.length by omega) .nothing
  rw [List.append_nil] at tail
  have some : front.length ≠ 8 := by omega
  simp [read6, head, tail, some, skip]

end Sixes

theorem readGroups_quadChars {a b c d : Nat} (each : ∀ n ∈ [a, b, c, d], n < 256) (most : Nat) :
    readGroups false (most + 2) (':' :: quadChars a b c d []) = ([Text.ofDigits 256 [a, b], Text.ofDigits 256 [c, d]], true, []) := by
  have read := readQuad_quadChars each (show Ends Text.digit? [] from nofun)
  rw [readGroups]
  simp [skip, read]

theorem read6_mapped {a b c d : Nat} (each : ∀ n ∈ [a, b, c, d], n < 256) :
    read6 (':' :: ':' :: (Nat.toDigits 16 0xffff ++ ':' :: quadChars a b c d [])) =
      some (List.replicate 5 0 ++ [0xffff, Text.ofDigits 256 [a, b], Text.ofDigits 256 [c, d]], []) := by
  have head : readGroups true 8 (':' :: ':' :: (Nat.toDigits 16 0xffff ++ ':' :: quadChars a b c d [])) = ([], false, _) :=
    readGroups_closes (.gap _)
  have behind : Behind (':' :: quadChars a b c d []) := by
    rintro c ⟨⟩
    rfl
  have opened {text : List Char} : (if true then some text else skip ':' text) = some text := if_pos rfl
  have tail : readGroups true 7 (Nat.toDigits 16 0xffff ++ ':' :: quadChars a b c d []) = _ :=
    readGroups_group opened (by decide) behind
  rw [readGroups_quadChars each] at tail
  simp [read6, head, tail, skip]

theorem parse?_of_read6 {text : String} {groups : List Nat}
    (pointless : (text.toList.dropWhile fun c => (Text.hexDigit? c).isSome).head? ≠ some '.')
    (read : read6 text.toList = some (groups, [])) :
    parse? text = some (.v6 (BitVec.ofNat 128 (Text.ofDigits 65536 groups))) := by
  simp [parse?, readQuad_eq_none pointless, read]

theorem octets_eq (bits : BitVec 32) : octets bits =
    [bits.toNat / 0x1000000 % 256, bits.toNat / 0x10000 % 256, bits.toNat / 256 % 256, bits.toNat % 256] := by
  simp [octets, BitVec.extractLsb'_toNat, Nat.shiftRight_eq_div_pow]

theorem ofDigits_octets (bits : BitVec 32) : Text.ofDigits 256 (octets bits) = bits.toNat := by
  have bound := bits.isLt
  rw [octets_eq]
  simp only [Text.ofDigits, List.foldl_cons, List.foldl_nil]
  omega

theorem ofDigits_groups (bits : BitVec 128) : Text.ofDigits 65536 (groups bits) = bits.toNat := by
  have bound := bits.isLt
  simp only [groups, List.map_cons, List.map_nil, BitVec.extractLsb'_toNat, Nat.shiftRight_eq_div_pow, Text.ofDigits,
    List.foldl_cons, List.foldl_nil]
  omega

theorem groups_lt (bits : BitVec 128) : ∀ g ∈ groups bits, g < 65536 := by
  intro g member
  obtain ⟨place, -, rfl⟩ := List.mem_map.mp member
  exact BitVec.isLt _

theorem length_groups (bits : BitVec 128) : (groups bits).length = 8 := rfl

theorem zeroRun_prefix (groups : List Nat) : (List.replicate (zeroRun groups) 0).IsPrefix groups := by
  have zeros : groups.takeWhile (· == 0) = List.replicate (zeroRun groups) 0 := by
    apply List.eq_replicate_iff.mpr
    refine ⟨rfl, fun g member => ?_⟩
    exact eq_of_beq (List.all_eq_true.mp List.all_takeWhile g member)
  rw [← zeros]
  exact List.takeWhile_prefix _

theorem longestZeroRun_prefix (groups : List Nat) :
    (List.replicate (longestZeroRun groups).2 0).IsPrefix (groups.drop (longestZeroRun groups).1) := by
  rw [longestZeroRun]
  refine List.foldlRecOn (motive := fun (found : Nat × Nat) => (List.replicate found.2 0).IsPrefix (groups.drop found.1)) _ _ ?_ ?_
  · exact List.nil_prefix
  · intro found ih i member
    dsimp only
    split
    · exact zeroRun_prefix _
    · exact ih

theorem octets_cases (bits : BitVec 32) : ∃ a b c d, octets bits = [a, b, c, d] ∧ ∀ n ∈ [a, b, c, d], n < 256 := by
  refine ⟨_, _, _, _, octets_eq bits, ?_⟩
  simp only [List.forall_mem_cons, List.not_mem_nil, false_imp_iff, implies_true, and_true]
  omega

theorem toList_quadText (a b c d : Nat) : (quadText [a, b, c, d]).toList = quadChars a b c d [] := by
  simp [quadText, quadChars]

theorem parse?_text4 (bits : BitVec 32) : parse? (quadText (octets bits)) = some (.v4 bits) := by
  have number := ofDigits_octets bits
  obtain ⟨a, b, c, d, same, each⟩ := octets_cases bits
  rw [same] at number ⊢
  have read := readQuad_quadChars each (show Ends Text.digit? [] from nofun)
  simp [parse?, toList_quadText, read, number]

/-- The text of groups with two colons for a run of zeros. -/
theorem parse?_gap {front back : List Nat} {length : Nat} {bits : BitVec 128}
    (parts : groups bits = front ++ List.replicate length 0 ++ back) (run : 0 < length) :
    parse? (groupsText front ++ "::" ++ groupsText back) = some (.v6 bits) := by
  have small := groups_lt bits
  have count := length_groups bits
  have number := ofDigits_groups bits
  rw [parts] at small count number
  rw [List.forall_mem_append, List.forall_mem_append] at small
  rw [List.length_append, List.length_append, List.length_replicate] at count
  have written : (groupsText front ++ "::" ++ groupsText back).toList = groupChars front ++ ':' :: ':' :: groupChars back := by
    simp [toList_groupsText]
  have read := read6_gap small.1.1 small.2 (by omega)
  rw [show 8 - front.length - back.length = length by omega, ← written] at read
  have pointless := (Closes.gap (groupChars back)).behind.pointless_groupChars front
  rw [← written] at pointless
  rw [parse?_of_read6 pointless read, number, BitVec.ofNat_toNat, BitVec.setWidth_eq]

/-- A mapped address has the octets of the address of the older family in its last places. -/
theorem ofDigits_mapped {bits : BitVec 128} (mapped : (bits.extractLsb' 32 96).toNat = 0xffff) {a b c d : Nat}
    (number : Text.ofDigits 256 [a, b, c, d] = (bits.truncate 32).toNat) : Text.ofDigits 65536
      (List.replicate 5 0 ++ [0xffff, Text.ofDigits 256 [a, b], Text.ofDigits 256 [c, d]]) = bits.toNat := by
  have bound := bits.isLt
  rw [BitVec.extractLsb'_toNat, Nat.shiftRight_eq_div_pow] at mapped
  simp only [BitVec.truncate_eq_setWidth, BitVec.toNat_setWidth, Text.ofDigits, List.foldl_cons, List.foldl_nil,
    List.replicate, List.cons_append, List.nil_append] at number ⊢
  omega

theorem parse?_mapped {bits : BitVec 128} (mapped : (bits.extractLsb' 32 96).toNat = 0xffff) :
    parse? ("::ffff:" ++ quadText (octets (bits.truncate 32))) = some (.v6 bits) := by
  have number := ofDigits_octets (bits.truncate 32)
  obtain ⟨a, b, c, d, same, each⟩ := octets_cases (bits.truncate 32)
  rw [same] at number ⊢
  have digits : Nat.toDigits 16 0xffff = ['f', 'f', 'f', 'f'] := by simp [Nat.toDigits_eq_if]
  have written : ("::ffff:" ++ quadText [a, b, c, d]).toList =
      ':' :: ':' :: (Nat.toDigits 16 0xffff ++ ':' :: quadChars a b c d []) := by
    rw [String.toList_append, toList_quadText, digits]
    rfl
  have read := read6_mapped each
  have pointless := (Closes.gap (Nat.toDigits 16 0xffff ++ ':' :: quadChars a b c d [])).behind.pointless
  rw [← written] at read pointless
  rw [parse?_of_read6 pointless read, ofDigits_mapped mapped number, BitVec.ofNat_toNat, BitVec.setWidth_eq]

theorem parse?_text6 (bits : BitVec 128) : parse? (text6 bits) = some (.v6 bits) := by
  rw [text6]
  split
  next mapped => exact parse?_mapped mapped
  next =>
    dsimp only
    split
    next run =>
      obtain ⟨rest, prefixed⟩ := longestZeroRun_prefix (groups bits)
      apply parse?_gap _ (Nat.lt_of_succ_lt run)
      rw [← List.drop_drop, ← prefixed, List.drop_left' List.length_replicate, List.append_assoc, prefixed,
        List.take_append_drop]
    next =>
      have written := toList_groupsText (groups bits)
      have read := read6_groupChars (groups_lt bits) (length_groups bits)
      have pointless := Closes.nothing.behind.pointless_groupChars (groups bits)
      rw [List.append_nil] at pointless
      rw [← written] at read pointless
      rw [parse?_of_read6 pointless read, ofDigits_groups, BitVec.ofNat_toNat, BitVec.setWidth_eq]

/-- The text of an address spells it. -/
theorem parse?_text (a : Address) : parse? a.text = some a := by
  cases a with
  | v4 bits => exact parse?_text4 bits
  | v6 bits => exact parse?_text6 bits

end Address

end FlowMetering
