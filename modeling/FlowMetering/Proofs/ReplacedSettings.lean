import FlowMetering.Error
import FlowMetering.Proofs.Stages

/-! Settings from files and from the environment. What the environment gives comes before what the file says, but the file
is judged by itself first: a setting that cannot be used is refused even where it is replaced. Where no replaced setting
is of this sort, the file's own value of a replaced setting does not matter at all. -/

namespace FlowMetering

private theorem Stored.text?_toUTF8 (text : String) : (Stored.file text.toUTF8).text? = .ok (some text) := by
  have read : String.fromUTF8? text.toUTF8 = some text := by
    simp only [String.fromUTF8?, Option.dite_none_right_eq_some]
    exact ⟨text.isValidUTF8, rfl⟩
  rw [Stored.text?, read]

namespace Configuration

/-- The defects in the order in which they are looked for. -/
def defects : List Defect :=
  [.logLevel, .logFormat, .noCombinations, .blankPath]

/-- Whether the setting that a defect is about cannot be used. -/
def has (c : Configuration) : Defect → Bool
  | .logLevel => !levels.contains c.logLevel
  | .logFormat => !formats.contains c.logFormat
  | .noCombinations => c.maxCombinations = 0
  | .blankPath => Text.allBlank c.specificationPath

/-- Whether the environment replaces the setting that a defect is about. -/
def Overrides.replaces (o : Overrides) : Defect → Bool
  | .logLevel => o.logLevel.isSome
  | .logFormat => o.logFormat.isSome
  | .noCombinations => (o.maxCombinations.bind count?).isSome
  | .blankPath => o.specificationPath.isSome

def Overrides.given (environment : String → Option String) : Overrides :=
  Id.run (ofEnvironment environment)

theorem mem_defects (d : Defect) : d ∈ defects := by
  cases d <;> decide

theorem validate_scan (c : Configuration) : c.validate =
    if c.has .logLevel then .error .logLevel
    else if c.has .logFormat then .error .logFormat
    else if c.has .noCombinations then .error .noCombinations
    else if c.has .blankPath then .error .blankPath
    else .ok () := by
  have none : (c.has .noCombinations = true) = (c.maxCombinations = 0) := decide_eq_true_eq
  simp only [none]
  rfl

theorem validate_eq (c : Configuration) :
    c.validate = match defects.find? c.has with
      | none => .ok ()
      | some d => .error d := by
  rw [validate_scan]
  simp only [defects, List.find?_cons, List.find?_nil]
  cases c.has .logLevel with
  | true => rfl
  | false =>
    cases c.has .logFormat with
    | true => rfl
    | false =>
      cases c.has .noCombinations with
      | true => rfl
      | false => cases c.has .blankPath <;> rfl

theorem validate_eq_ok {c : Configuration} : c.validate = .ok () ↔ ∀ d, c.has d = false := by
  rw [validate_eq]
  constructor
  · intro usable d
    cases found : defects.find? c.has with
    | none => simpa using List.find?_eq_none.mp found d (mem_defects d)
    | some d' => simp [found] at usable
  · intro usable
    have none : defects.find? c.has = none := List.find?_eq_none.mpr fun d _ => by simp [usable d]
    rw [none]

variable {o : Overrides}

/-- A setting that is not replaced stays what it is. -/
theorem has_override (c : Configuration) {d : Defect} (kept : o.replaces d = false) : (c.override o).has d = c.has d := by
  cases d with
  | logLevel | logFormat | blankPath => simp_all [Overrides.replaces, has, override]
  | noCombinations =>
    have none : o.maxCombinations.bind count? = none := Option.not_isSome_iff_eq_none.mp (by simpa [Overrides.replaces] using kept)
    simp [has, override, none]

/-- Where all replaced settings are usable, the other settings are those of the configuration with the replacements. -/
theorem has_of_usable {c : Configuration} (usable : ∀ d, o.replaces d = true → c.has d = false) (d : Defect) :
    c.has d = (!o.replaces d && (c.override o).has d) := by
  cases replaced : o.replaces d with
  | true => simpa using usable d replaced
  | false => simpa using (has_override c replaced).symm

theorem validate_of_usable {c : Configuration} (usable : ∀ d, o.replaces d = true → c.has d = false)
    (valid : (c.override o).validate = .ok ()) : c.validate = .ok () := by
  apply validate_eq_ok.mpr
  intro d
  rw [has_of_usable usable d, validate_eq_ok.mp valid d, Bool.and_false]

variable {path : String} {stored : Stored} {text : String}

theorem validated_eq_ok {c c' : Configuration} : c.validated = .ok c' ↔ c.validate = .ok () ∧ c' = c := by
  rw [validated]
  cases c.validate with
  | error d => simp
  | ok _ => simp [eq_comm]

theorem mapError_eq_ok {ε ε' α : Type} {f : ε → ε'} {attempt : Except ε α} {result : α} :
    attempt.mapError f = .ok result ↔ attempt = .ok result := by
  cases attempt <;> simp [Except.mapError]

/-- A file is judged before anything of it is replaced, and the outcome once more. -/
theorem load_eq (o : Overrides) (path : String) (readable : stored.text? = .ok (some text)) :
    load o path stored = (do
      let written ← ((parse text).bind validated).mapError .configuration
      (written.override o).validated.mapError .configuration) := by
  rw [load, ofStored, readable]

theorem load_eq_ok (o : Overrides) (path : String) (readable : stored.text? = .ok (some text)) {c : Configuration} :
    load o path stored = .ok c ↔ ∃ written, parse text = .ok written ∧ written.validate = .ok () ∧
      (written.override o).validate = .ok () ∧ c = written.override o := by
  rw [load_eq o path readable]
  constructor
  · intro loaded
    obtain ⟨written, read, replaced⟩ := bind_eq_ok.mp loaded
    obtain ⟨parsed, kept, own⟩ := bind_eq_ok.mp (mapError_eq_ok.mp read)
    obtain ⟨own, rfl⟩ := validated_eq_ok.mp own
    obtain ⟨valid, rfl⟩ := validated_eq_ok.mp (mapError_eq_ok.mp replaced)
    exact ⟨_, kept, own, valid, rfl⟩
  · rintro ⟨written, parsed, own, valid, rfl⟩
    apply bind_eq_ok.mpr
    refine ⟨written, mapError_eq_ok.mpr ?_, mapError_eq_ok.mpr (validated_eq_ok.mpr ⟨valid, rfl⟩)⟩
    exact bind_eq_ok.mpr ⟨written, parsed, validated_eq_ok.mpr ⟨own, rfl⟩⟩

/-- Files that agree in all settings that are not replaced have the same outcome. -/
theorem load_congr {path' : String} {stored' : Stored} {text' : String} {written written' : Configuration}
    (readable : stored.text? = .ok (some text)) (readable' : stored'.text? = .ok (some text'))
    (parsed : parse text = .ok written) (parsed' : parse text' = .ok written')
    (usable : ∀ d, o.replaces d = true → written.has d = false)
    (usable' : ∀ d, o.replaces d = true → written'.has d = false) (same : written.override o = written'.override o) :
    load o path stored = load o path' stored' := by
  have alike : written.has = written'.has := by
    funext d
    rw [has_of_usable usable d, has_of_usable usable' d, same]
  have valid : written.validate = written'.validate := by rw [validate_eq, validate_eq, alike]
  rw [load_eq o path readable, load_eq o path' readable', parsed, parsed']
  simp only [Except.bind, validated, valid]
  cases written'.validate with
  | error d => rfl
  | ok _ =>
    change (written.override o).validated.mapError _ = (written'.override o).validated.mapError _
    rw [same]

/-- The environment comes before the file, provided that every setting of the file that is replaced could be used: then
loading succeeds exactly if the file can be read and the replaced configuration is usable, it gives this
configuration, and the file's values of replaced settings do not matter. A replaced setting that cannot be used is an
error, whatever replaces it. -/
theorem load_replaces (environment : String → Option String) (path : String) (stored : Stored) (text : String)
    (readable : stored.text? = .ok (some text)) :
    (∀ c, load (.given environment) path stored = .ok c ↔ ∃ written, parse text = .ok written ∧
      (∀ d, (Overrides.given environment).replaces d = true → written.has d = false) ∧
      (written.override (.given environment)).validate = .ok () ∧ c = written.override (.given environment)) ∧
    ∀ path' stored' text' written written', stored'.text? = .ok (some text') →
      parse text = .ok written → parse text' = .ok written' →
      (∀ d, (Overrides.given environment).replaces d = true → written.has d = false ∧ written'.has d = false) →
      written.override (.given environment) = written'.override (.given environment) →
      load (.given environment) path stored = load (.given environment) path' stored' := by
  refine ⟨fun c => ?_, fun path' stored' text' written written' readable' parsed parsed' usable same => ?_⟩
  · rw [load_eq_ok _ path readable]
    constructor
    · rintro ⟨written, parsed, own, valid, rfl⟩
      exact ⟨written, parsed, fun d _ => validate_eq_ok.mp own d, valid, rfl⟩
    · rintro ⟨written, parsed, usable, valid, rfl⟩
      exact ⟨written, parsed, validate_of_usable usable valid, valid, rfl⟩
  · exact load_congr readable readable' parsed parsed' (fun d replaced => (usable d replaced).1)
      (fun d replaced => (usable d replaced).2) same

def zeroLimit : String :=
  "[compiler]\nmax_variant_combinations = 0\n"

def limited : String :=
  "[compiler]\nmax_variant_combinations = 7\n"

def sixteen (name : String) : Option String :=
  if name = "FLOWPROBE_COMPILER_MAX_VARIANT_COMBINATIONS" then some "16" else none

theorem parse_zeroLimit : parse zeroLimit = .ok { maxCombinations := 0 } := by
  have read : (Toml.parse? zeroLimit).bind ofToml = some { maxCombinations := 0 } := by decide +kernel
  rw [parse, read]

theorem parse_limited : parse limited = .ok { maxCombinations := 7 } := by
  have read : (Toml.parse? limited).bind ofToml = some { maxCombinations := 7 } := by decide +kernel
  rw [parse, read]

/-- The limit of the environment comes before the one of a file, which might as well be empty. -/
theorem load_replaces_limit :
    (Stored.file limited.toUTF8).text? = .ok (some limited) ∧ parse limited = .ok { maxCombinations := 7 } ∧
    load (.given sixteen) "flowprobe.toml" (.file limited.toUTF8) = .ok { maxCombinations := 16 } ∧
    load (.given sixteen) "flowprobe.toml" (.file limited.toUTF8) = load (.given sixteen) "empty.toml" (.file "".toUTF8) := by
  have readable := Stored.text?_toUTF8 limited
  obtain ⟨loads, unseen⟩ := load_replaces sixteen "flowprobe.toml" _ limited readable
  refine ⟨readable, parse_limited, (loads _).mpr ?_, ?_⟩
  · refine ⟨_, parse_limited, fun d _ => ?_, by decide +kernel, by decide +kernel⟩
    cases d <;> decide +kernel
  · refine unseen "empty.toml" _ "" _ {} (Stored.text?_toUTF8 "") parse_limited ?_ (fun d _ => ?_) (by decide +kernel)
    · have read : (Toml.parse? "").bind ofToml = some {} := by decide +kernel
      rw [parse, read]
    · cases d <;> decide +kernel

/-- A file is refused for a limit that the environment replaces. -/
theorem replaced_limit_refused :
    (Stored.file zeroLimit.toUTF8).text? = .ok (some zeroLimit) ∧ parse zeroLimit = .ok { maxCombinations := 0 } ∧
    (override (.given sixteen) { maxCombinations := 0 }) = { maxCombinations := 16 } ∧
    (override (.given sixteen) { maxCombinations := 0 }).validate = .ok () ∧
    load (.given sixteen) "flowprobe.toml" (.file zeroLimit.toUTF8) = .error (.configuration (.invalid .noCombinations)) := by
  have readable := Stored.text?_toUTF8 zeroLimit
  refine ⟨readable, parse_zeroLimit, by decide +kernel, by decide +kernel, ?_⟩
  rw [load_eq _ _ readable, parse_zeroLimit]
  rfl

end Configuration

end FlowMetering
