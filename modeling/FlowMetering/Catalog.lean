import FlowMetering.Element
import FlowMetering.Json.Basic
import FlowMetering.Kind

/-!
Catalogs: what the names in expressions may stand for. An entry is one overload of a feature; entries of one
name differ in the kind they give or in the kinds they take. Composites stand for whole expressions, and
filters decide which packets a record sees.

A catalog is generic in the states of its features (`σ`) and filters (`φ`): compiling needs no more of them
than that an entry has one.
-/

namespace FlowMetering

/-- Which type the values of an entry have. -/
inductive Output where
  | untyped
  | fixed (element : Element)
  | variants (elements : List Element)
  | resolved (resolve : List FieldType → Option FieldType)

def Output.display : Output → String
  | .untyped => "-"
  | .fixed element => element.type.name
  | .variants elements => "|".intercalate (elements.map (·.type.name))
  | .resolved _ => "<resolved>"

/-- One overload of a feature. An entry without a `build` is a substitution in two arguments: it stands for its
first argument with the second put in the place of the raw input. -/
structure Entry (σ : Type) where
  name : String
  result : Kind
  arguments : List Kind
  output : Output
  build : Option (Kind → σ)
  implicitInput : Bool

/-- Why a registration fails. -/
inductive CatalogError where
  | alreadyRegistered (name signature : String)
  | invalidDefinition (name reason : String)
  deriving DecidableEq, Repr

def CatalogError.message : CatalogError → String
  | .alreadyRegistered name signature => "already registered: " ++ name ++ " " ++ signature
  | .invalidDefinition name reason => "invalid definition of '" ++ name ++ "': " ++ reason

namespace Entry

variable {σ : Type}

def isVariadic (e : Entry σ) : Bool :=
  e.arguments.getLast? == some .ellipsis

/-- The kinds of `count` arguments, if the entry takes that many. A variadic entry repeats its last kind. -/
def argumentKinds (e : Entry σ) (count : Nat) : Option (List Kind) :=
  if e.isVariadic then
    let fixed := e.arguments.dropLast
    match fixed.getLast? with
    | some repeated =>
      if count < fixed.length then none
      else some (fixed ++ List.replicate (count - fixed.length) repeated)
    | none => none
  else if e.arguments.length = count then some e.arguments
  else none

def signature (e : Entry σ) : String :=
  e.result.name ++ "(" ++ ", ".intercalate (e.arguments.map (·.name)) ++ ")"

/-- Whether an ellipsis comes anywhere but last behind another argument. -/
def misplacedEllipsis (arguments : List Kind) : Bool :=
  match arguments.idxOf? .ellipsis with
  | some i => i + 1 != arguments.length || i == 0
  | none => false

/-- What is wrong with an entry, if anything is. -/
def defect? (e : Entry σ) : Option String :=
  if e.name = "" then some "name must not be empty"
  else if !e.result.isResult then some "return kind cannot be used as a feature result"
  else if misplacedEllipsis e.arguments then
    some "ellipsis must follow at least one argument and come last"
  else if e.arguments.contains .control then some "control cannot be used as an argument kind"
  else if e.result = .control ∧ e.arguments ≠ [.rawPacket] then
    some "control features take exactly one RawPacket argument"
  else if e.build.isNone && e.arguments.length != 2 then
    some "entries without a factory are rewrites taking (feature, selection)"
  else none

/-- The entry with its instances seen as states of another type. -/
def map {σ' : Type} (f : σ → σ') (e : Entry σ) : Entry σ' where
  name := e.name
  result := e.result
  arguments := e.arguments
  output := e.output
  build := e.build.map fun build kind => f (build kind)
  implicitInput := e.implicitInput

end Entry

/-- An entry together with its number in the catalog. -/
structure Registered (σ : Type) where
  id : Nat
  entry : Entry σ

/-- A name for an expression. A declared element replaces the type of the expression where it is exported. -/
structure Composite where
  name : String
  definition : Json
  declared : Option Element

structure Catalog (σ φ : Type) where
  entries : List (Entry σ)
  composites : List Composite
  filters : List (String × φ)

namespace Catalog

variable {σ φ : Type}

def empty : Catalog σ φ := ⟨[], [], []⟩

/-- The catalog with its instances and filters seen as states of other types, so that more can be registered
beside them. -/
def map {σ' φ' : Type} (f : σ → σ') (g : φ → φ') (c : Catalog σ φ) : Catalog σ' φ' :=
  ⟨c.entries.map (·.map f), c.composites, c.filters.map fun (name, filter) => (name, g filter)⟩

/-- Entries with their numbers, which count registrations from zero. -/
def registered (c : Catalog σ φ) : List (Registered σ) :=
  c.entries.zipIdx.map fun (entry, id) => ⟨id, entry⟩

/-- Adds an entry; its number is the number of entries before it. No two entries agree in name, result and
arguments. -/
def register (c : Catalog σ φ) (e : Entry σ) : Except CatalogError (Catalog σ φ × Nat) :=
  match e.defect? with
  | some reason => .error (.invalidDefinition e.name reason)
  | none =>
    if c.entries.any fun other =>
        other.name == e.name && other.result == e.result && other.arguments == e.arguments then
      .error (.alreadyRegistered e.name e.signature)
    else .ok ({ c with entries := c.entries ++ [e] }, c.entries.length)

def composite? (c : Catalog σ φ) (name : String) : Option Composite :=
  c.composites.find? (·.name == name)

def filter? (c : Catalog σ φ) (name : String) : Option φ :=
  (c.filters.find? (·.1 == name)).map (·.2)

def registerComposite (c : Catalog σ φ) (composite : Composite) : Except CatalogError (Catalog σ φ) :=
  if (c.composite? composite.name).isSome then .error (.alreadyRegistered composite.name "composite")
  else match composite.definition with
    | .null => .error (.invalidDefinition composite.name "definition must not be null")
    | _ => .ok { c with composites := c.composites ++ [composite] }

def registerFilter (c : Catalog σ φ) (name : String) (filter : φ) : Except CatalogError (Catalog σ φ) :=
  if (c.filter? name).isSome then .error (.alreadyRegistered name "filter")
  else .ok { c with filters := c.filters ++ [(name, filter)] }

/-- Whether a name stands for an entry or a composite. -/
def contains (c : Catalog σ φ) (name : String) : Bool :=
  c.entries.any (·.name == name) || (c.composite? name).isSome

/-- The entries that may give `kind` from `count` arguments, the preferred ones first: those of exactly that
kind before those of the kind the context asks for, a fixed number of arguments before a variable one, and
otherwise the order of registration. -/
def find (c : Catalog σ φ) (name : String) (kind : Kind) (count : Nat) : List (Registered σ) :=
  let fitting := c.registered.filter fun r => r.entry.name == name && (r.entry.argumentKinds count).isSome
  let exact := fitting.filter fun r => r.entry.result == kind
  let matching := fitting.filter fun r =>
    r.entry.result == .matchType && kind != .matchType && kind != .control
  let byArity (rs : List (Registered σ)) :=
    rs.filter (!·.entry.isVariadic) ++ rs.filter (·.entry.isVariadic)
  byArity exact ++ byArity matching

/-- The control of a name. -/
def findControl (c : Catalog σ φ) (name : String) : Option (Registered σ) :=
  c.registered.find? fun r =>
    r.entry.name == name && r.entry.result == .control && r.entry.arguments == [.rawPacket]

end Catalog

end FlowMetering
