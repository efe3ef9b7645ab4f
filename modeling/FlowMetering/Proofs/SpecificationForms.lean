import FlowMetering.Proofs.Stages
import Mathlib.Data.List.Induction
import Mathlib.Data.List.Nodup

/-! The JSON forms of specifications. A specification is read from a list of features, or from an object with lists under the
keys of its sections and nothing else. What is written for a specification is one of its forms, so that it is read back. -/

namespace FlowMetering

/-- The value under a key of an object. Where a key comes more than once its last value counts. -/
def Json.lastMember? (members : List (String × Json)) (key : String) : Option Json :=
  (members.reverse.find? (·.1 == key)).map (·.2)

theorem Json.lastMember?_here (members : List (String × Json)) (key : String) (value : Json) :
    lastMember? (members ++ [(key, value)]) key = some value := by
  simp [lastMember?]

theorem Json.lastMember?_past (members : List (String × Json)) {key other : String} (apart : other ≠ key) (value : Json) :
    lastMember? (members ++ [(other, value)]) key = lastMember? members key := by
  simp [lastMember?, apart]

/-- Where every key comes once, the order of the members is of no importance. -/
theorem Json.lastMember?_perm {members members' : List (String × Json)} (perm : members'.Perm members)
    (distinct : (members.map (·.1)).Nodup) (key : String) : lastMember? members' key = lastMember? members key := by
  have found {members : List (String × Json)} (distinct : (members.map (·.1)).Nodup) (value : Json) :
      lastMember? members key = some value ↔ (key, value) ∈ members := by
    rw [lastMember?, Option.map_eq_some_iff]
    constructor
    · rintro ⟨⟨other, _⟩, found, rfl⟩
      have named := List.find?_some found
      obtain rfl : other = key := eq_of_beq named
      exact List.mem_reverse.mp (List.mem_of_find?_eq_some found)
    · intro member
      have some : (members.reverse.find? (·.1 == key)).isSome = true :=
        List.find?_isSome.mpr ⟨_, List.mem_reverse.mpr member, beq_self_eq_true key⟩
      obtain ⟨last, found⟩ := Option.isSome_iff_exists.mp some
      have held := List.mem_reverse.mp (List.mem_of_find?_eq_some found)
      have named := List.find?_some found
      have same := List.inj_on_of_nodup_map distinct held member (eq_of_beq named)
      exact ⟨last, found, congrArg (·.2) same⟩
  apply Option.ext
  intro value
  rw [found distinct, found ((perm.map _).nodup_iff.mpr distinct), perm.mem_iff]

namespace Specification

def texts (names : List String) : Json :=
  .array (names.map .string)

inductive Section : String × Json → Prop
  | features (items : List Json) : Section ("features", .array items)
  | control (items : List Json) : Section ("control", .array items)
  | filter (names : List String) : Section ("filter", texts names)

/-- A list is what a form has under a key, and empty where the form has nothing there. -/
def Lists {α : Type} (value? : Option Json) (form : List α → Json) (items : List α) : Prop :=
  value? = some (form items) ∨ value? = none ∧ items = []

/-- The JSON values that list the features, the controls and the filters of a specification. -/
inductive Spells (s : Specification) : Json → Prop
  | features (control : s.control = []) (filter : s.filter = []) : Spells s (.array s.features)
  | sections {members : List (String × Json)} (known : ∀ member ∈ members, Section member)
    (features : Json.lastMember? members "features" = some (.array s.features))
    (control : Lists (Json.lastMember? members "control") .array s.control)
    (filter : Lists (Json.lastMember? members "filter") texts s.filter) : Spells s (.object members)

private theorem sequence_eq_ok {found : Json} {items : List Json} : sequence found = .ok items ↔ found = .array items := by
  cases found <;> simp [sequence]

private theorem texts_inj {names names' : List String} (same : texts names = texts names') : names = names' := by
  have same : names.map Json.string = names'.map Json.string := Json.array.inj same
  exact List.map_injective_iff.mpr (fun _ _ => Json.string.inj) same

private theorem mapM_text_eq_ok {items : List Json} {names : List String} :
    items.mapM text = .ok names ↔ items = names.map .string := by
  induction items generalizing names with
  | nil => cases names <;> simp [pure, Except.pure]
  | cons item items ih =>
    rw [List.mapM_cons, bind_eq_ok]
    constructor
    · rintro ⟨name, read, rest⟩
      obtain ⟨others, reads, same⟩ := bind_eq_ok.mp rest
      cases same
      cases item <;> cases read
      rw [ih.mp reads, List.map_cons]
    · intro same
      cases names with
      | nil => cases same
      | cons name names =>
        obtain ⟨rfl, rest⟩ := List.cons.inj same
        exact ⟨name, rfl, bind_eq_ok.mpr ⟨names, ih.mpr rest, rfl⟩⟩

namespace Members

/-- What is taken up from a member depends on its key. -/
theorem add_cases {found found' : Members} {key : String} {value : Json} (added : found.add key value = .ok found') :
    (∃ items, (key, value) = ("features", .array items) ∧ found' = { found with features := some items }) ∨
      (∃ items, (key, value) = ("control", .array items) ∧ found' = { found with control := some items }) ∨
      ∃ names, (key, value) = ("filter", texts names) ∧ found' = { found with filter := some names } := by
  rw [add] at added
  split at added
  next named =>
    obtain ⟨items, read, same⟩ := bind_eq_ok.mp added
    exact .inl ⟨items, by rw [named, sequence_eq_ok.mp read], (Except.ok.inj same).symm⟩
  next =>
    split at added
    next named =>
      obtain ⟨items, read, same⟩ := bind_eq_ok.mp added
      exact .inr (.inl ⟨items, by rw [named, sequence_eq_ok.mp read], (Except.ok.inj same).symm⟩)
    next =>
      split at added
      next named =>
        obtain ⟨items, read, added⟩ := bind_eq_ok.mp added
        obtain ⟨names, reads, same⟩ := bind_eq_ok.mp added
        refine .inr (.inr ⟨names, ?_, (Except.ok.inj same).symm⟩)
        rw [named, sequence_eq_ok.mp read, mapM_text_eq_ok.mp reads, texts]
      next => cases added

theorem exists_add {member : String × Json} (known : Section member) (found : Members) :
    ∃ found', found.add member.1 member.2 = .ok found' := by
  cases known with
  | features items | control items => exact ⟨_, rfl⟩
  | filter names =>
    have reads : (names.map Json.string).mapM text = .ok names := mapM_text_eq_ok.mpr rfl
    exact ⟨{ found with filter := some names }, bind_eq_ok.mpr ⟨_, rfl, bind_eq_ok.mpr ⟨names, reads, rfl⟩⟩⟩

/-- What has been taken up from some members are the lists under the keys. -/
structure Gathered (members : List (String × Json)) (found : Members) : Prop where
  known : ∀ member ∈ members, Section member
  features : Json.lastMember? members "features" = found.features.map .array
  control : Json.lastMember? members "control" = found.control.map .array
  filter : Json.lastMember? members "filter" = found.filter.map texts

private theorem Gathered.add {members : List (String × Json)} {found found' : Members} (gathered : Gathered members found)
    {member : String × Json} (added : found.add member.1 member.2 = .ok found') : Gathered (members ++ [member]) found' := by
  obtain ⟨known, features, control, filter⟩ := gathered
  have all (own : Section member) : ∀ other ∈ members ++ [member], Section other :=
    List.forall_mem_append.mpr ⟨known, List.forall_mem_singleton.mpr own⟩
  obtain ⟨key, value⟩ := member
  rcases add_cases added with ⟨items, same, rfl⟩ | ⟨items, same, rfl⟩ | ⟨names, same, rfl⟩ <;> rw [same] at all ⊢
  · exact ⟨all (.features items), Json.lastMember?_here .., (Json.lastMember?_past _ (by decide) _).trans control,
      (Json.lastMember?_past _ (by decide) _).trans filter⟩
  · exact ⟨all (.control items), (Json.lastMember?_past _ (by decide) _).trans features, Json.lastMember?_here ..,
      (Json.lastMember?_past _ (by decide) _).trans filter⟩
  · exact ⟨all (.filter names), (Json.lastMember?_past _ (by decide) _).trans features,
      (Json.lastMember?_past _ (by decide) _).trans control, Json.lastMember?_here ..⟩

theorem gathered_of_foldlM {members : List (String × Json)} {found : Members}
    (done : members.foldlM (fun (found : Members) (key, value) => found.add key value) ⟨none, none, none⟩ = .ok found) :
    Gathered members found := by
  induction members using List.reverseRecOn generalizing found with
  | nil =>
    cases done
    exact ⟨List.forall_mem_nil _, rfl, rfl, rfl⟩
  | append_singleton members member ih =>
    rw [List.foldlM_append] at done
    obtain ⟨before, first, last⟩ := bind_eq_ok.mp done
    rw [List.foldlM_cons] at last
    obtain ⟨after, added, same⟩ := bind_eq_ok.mp last
    cases same
    exact (ih first).add added

theorem exists_foldlM {members : List (String × Json)} (known : ∀ member ∈ members, Section member) (found : Members) :
    ∃ found', members.foldlM (fun (found : Members) (key, value) => found.add key value) found = .ok found' := by
  induction members generalizing found with
  | nil => exact ⟨found, rfl⟩
  | cons member members ih =>
    rw [List.forall_mem_cons] at known
    obtain ⟨middle, added⟩ := exists_add known.1 found
    obtain ⟨last, done⟩ := ih known.2 middle
    exact ⟨last, bind_eq_ok.mpr ⟨middle, added, done⟩⟩

end Members

private theorem lists_getD {α : Type} (form : List α → Json) (kept : Option (List α)) :
    Lists (kept.map form) form (kept.getD []) := by
  cases kept with
  | none => exact .inr ⟨rfl, rfl⟩
  | some items => exact .inl rfl

private theorem Lists.getD_eq {α : Type} {form : List α → Json} {kept : Option (List α)} {items : List α}
    (lists : Lists (kept.map form) form items) (injective : Function.Injective form) : kept.getD [] = items := by
  rcases lists with present | ⟨absent, rfl⟩
  · obtain ⟨items', rfl, same⟩ := Option.map_eq_some_iff.mp present
    exact injective same
  · rw [Option.map_eq_none_iff.mp absent]
    rfl

private theorem ofMembers_eq_ok {members : List (String × Json)} {s : Specification} :
    ofMembers members = .ok s ↔ Spells s (.object members) := by
  rw [ofMembers, bind_eq_ok]
  constructor
  · rintro ⟨found, done, rest⟩
    obtain ⟨known, features, control, filter⟩ := Members.gathered_of_foldlM done
    split at rest
    next items same =>
      cases rest
      refine .sections known (features.trans (by rw [same]; rfl)) ?_ ?_
      · rw [control]
        exact lists_getD ..
      · rw [filter]
        exact lists_getD ..
    next => cases rest
  · intro spells
    cases spells with
    | sections known features control filter =>
      obtain ⟨found, done⟩ := Members.exists_foldlM known ⟨none, none, none⟩
      have gathered := Members.gathered_of_foldlM done
      rw [gathered.features] at features
      rw [gathered.control] at control
      rw [gathered.filter] at filter
      obtain ⟨items, same, listed⟩ := Option.map_eq_some_iff.mp features
      refine ⟨found, done, ?_⟩
      rw [same]
      dsimp only
      rw [Json.array.inj listed, control.getD_eq fun _ _ => Json.array.inj, filter.getD_eq fun _ _ => texts_inj]
      rfl

private theorem validate_eq_ok {s : Specification} :
    s.validate = .ok () ↔ s.features ≠ [] ∧ ∀ name ∈ s.filter, ∃ c ∈ name.toList, Text.isBlank c = false := by
  have named : s.filter.findIdx? Text.allBlank = none ↔ ∀ name ∈ s.filter, ∃ c ∈ name.toList, Text.isBlank c = false := by
    simp [List.findIdx?_eq_none_iff, Text.allBlank]
  rw [← named, validate]
  cases s.features with
  | nil => simp
  | cons item items => cases s.filter.findIdx? Text.allBlank <;> simp

private theorem ofJson_eq_ok {value : Json} {s : Specification} : ofJson value = .ok s ↔ Spells s value ∧ s.validate = .ok () := by
  have checked (read : Except Defect Specification) :
      (read >>= fun specification => specification.validate >>= fun _ => pure specification) = .ok s ↔
        read = .ok s ∧ s.validate = .ok () := by
    rw [bind_eq_ok]
    constructor
    · rintro ⟨other, done, rest⟩
      obtain ⟨_, valid, same⟩ := bind_eq_ok.mp rest
      cases same
      exact ⟨done, valid⟩
    · rintro ⟨done, valid⟩
      exact ⟨s, done, bind_eq_ok.mpr ⟨(), valid, rfl⟩⟩
  cases value with
  | array items =>
    refine (checked (.ok (ofFeatures items))).trans (and_congr_left fun _ => ?_)
    constructor
    · rintro ⟨⟩
      exact .features rfl rfl
    · intro spells
      obtain ⟨features, control, filter⟩ := s
      cases spells with
      | features noControl noFilter =>
        cases noControl
        cases noFilter
        rfl
  | object members => exact (checked (ofMembers members)).trans (and_congr_left fun _ => ofMembers_eq_ok)
  | null | boolean _ | number _ | string _ => exact (checked (.error _)).trans ⟨nofun, nofun⟩

/-- The member that is written for a section, if there is anything in it. -/
private def written {α : Type} (key : String) (form : List α → Json) (items : List α) : List (String × Json) :=
  if items.isEmpty then [] else [(key, form items)]

private theorem written_cases {α : Type} (key : String) (form : List α → Json) (items : List α) :
    written key form items = [] ∧ items = [] ∨ written key form items = [(key, form items)] := by
  cases items with
  | nil => exact .inl ⟨rfl, rfl⟩
  | cons item items => exact .inr rfl

private theorem toJson_eq (s : Specification) : s.toJson = .object
    (("features", .array s.features) :: (written "control" .array s.control ++ written "filter" texts s.filter)) := rfl

private theorem spells_toJson (s : Specification) : ∃ members, s.toJson = .object members ∧
    ∀ members', members'.Perm members → Spells s (.object members') := by
  refine ⟨_, s.toJson_eq, ?_⟩
  intro members perm
  rcases written_cases "control" Json.array s.control with ⟨control, none⟩ | control <;>
  rcases written_cases "filter" texts s.filter with ⟨filter, none'⟩ | filter <;>
  rw [control, filter] at perm
  -- Each of the two sections is there or not.
  all_goals
    have last := Json.lastMember?_perm perm (by simp)
    refine .sections ?_ ?_ ?_ ?_
    · intro member held
      have held := perm.subset held
      simp only [List.nil_append, List.append_nil, List.singleton_append, List.mem_cons, List.not_mem_nil, or_false] at held
      rcases held with rfl | rfl | rfl <;> constructor
    · rw [last]
      rfl
    · rw [last]
      simp [Lists, Json.lastMember?, *]
    · rw [last]
      simp [Lists, Json.lastMember?, *]

/-- Exactly the forms of valid specifications are read, each as the specification of which it is a form. What is written for a
valid specification is read back as it, in whatever order the members stand. -/
theorem ofJson_reads_forms (s : Specification) :
    (∀ value, ofJson value = .ok s ↔ Spells s value ∧ s.features ≠ [] ∧
      ∀ name ∈ s.filter, ∃ c ∈ name.toList, Text.isBlank c = false) ∧
    (s.validate = .ok () → ∃ members, s.toJson = .object members ∧
      ∀ members', members'.Perm members → ofJson (.object members') = .ok s) := by
  constructor
  · intro value
    rw [ofJson_eq_ok, validate_eq_ok]
  · intro valid
    obtain ⟨members, same, spells⟩ := s.spells_toJson
    exact ⟨members, same, fun members' perm => ofJson_eq_ok.mpr ⟨spells members' perm, valid⟩⟩

def filtered : Specification :=
  ⟨[.string "octetTotalCount"], [], ["tcp", " forward "]⟩

theorem ofJson_reads_forms_filtered : filtered.validate = .ok () ∧ ofJson (.object
    [("filter", .array [.string "tcp", .string " forward "]), ("features", .array [.string "octetTotalCount"])]) = .ok filtered := by
  have valid : filtered.validate = .ok () := by rfl
  obtain ⟨members, same, reads⟩ := (ofJson_reads_forms filtered).2 valid
  cases same
  exact ⟨valid, reads _ (List.Perm.swap _ _ _)⟩

end Specification

end FlowMetering
