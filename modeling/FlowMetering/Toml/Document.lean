import FlowMetering.Toml.Line

/-!
TOML documents: the lines of a text gathered into one table. Every key is given once and every table is opened
once, except that tables which are only named on the way to others may still be opened.
-/

namespace FlowMetering.Toml

/-- How a table came about: named on the way to a table that a header opens, by the points in a key, or opened
by a header itself. -/
inductive Origin where
  | passed
  | dotted
  | opened
  deriving DecidableEq, Repr

/-- A member while the document is read. The rows of an array of tables come last first. -/
inductive Draft where
  | closed (value : Toml)
  | table (origin : Origin) (members : List (String × Draft))
  | series (rows : List (List (String × Draft)))

namespace Draft

/-- The members of a table that is being read. -/
abbrev Members := List (String × Draft)

/-- Changes the member of a key, or adds one; the change is told what is there. -/
def alter (key : String) (change : Option Draft → Option Draft) : Members → Option Members
  | [] => (change none).map fun member => [(key, member)]
  | (other, member) :: members =>
    if other = key then (change (some member)).map fun member => (other, member) :: members
    else (alter key change members).map ((other, member) :: ·)

/-- Changes the table that the path of a header leads to. In an array of tables it is the last row. -/
def within (change : Members → Option Members) : Path → Members → Option Members
  | [], members => change members
  | key :: path, members =>
    alter key (fun
      | none => (within change path []).map (.table .passed)
      | some (.table origin inner) => (within change path inner).map (.table origin)
      | some (.series (row :: rows)) => (within change path row).map fun row => .series (row :: rows)
      | some (.series []) | some (.closed _) => none) members

/-- Gives a value to the key at the end of a path. The path leads through tables that were made by such paths;
on its way to a further one it may pass a table that no header has opened. -/
def assign (value : Draft) : Path → Members → Option Members
  | [], _ => none
  | [key], members =>
    alter key (fun
      | none => some value
      | some _ => none) members
  | key :: next :: path, members =>
    alter key (fun
      | none => (assign value (next :: path) []).map (.table .dotted)
      | some (.table .dotted inner) => (assign value (next :: path) inner).map (.table .dotted)
      | some (.table .passed inner) =>
        if path.isEmpty then none else (assign value (next :: path) inner).map (.table .passed)
      | some _ => none) members

/-- Opens the table at the end of a path. -/
def openTable (path : Path) (members : Members) : Option Members :=
  match path.getLast? with
  | none => none
  | some key =>
    within (alter key fun
      | none => some (.table .opened [])
      | some (.table .passed inner) => some (.table .opened inner)
      | some _ => none) path.dropLast members

/-- Opens a further row of the array of tables at the end of a path. -/
def openRow (path : Path) (members : Members) : Option Members :=
  match path.getLast? with
  | none => none
  | some key =>
    within (alter key fun
      | none => some (.series [[]])
      | some (.series rows) => some (.series ([] :: rows))
      | some _ => none) path.dropLast members

mutual
/-- The finished value. -/
def value : Draft → Toml
  | .closed value => value
  | .table _ members => .table (memberValues members)
  | .series rows => .array (rowValues rows).reverse
termination_by structural draft => draft

def memberValues : List (String × Draft) → List (String × Toml)
  | [] => []
  | (key, member) :: members => (key, value member) :: memberValues members
termination_by structural members => members

def rowValues : List (List (String × Draft)) → List Toml
  | [] => []
  | row :: rows => .table (memberValues row) :: rowValues rows
termination_by structural rows => rows
end

end Draft

mutual
/-- The value of what is written, with at most `levels` arrays and braces inside each other. -/
def Written.value? (levels : Nat) : Written → Option Toml
  | .scalar value => some value
  | .array items => if levels = 0 then none else (Written.values? (levels - 1) items).map .array
  | .braces members =>
    if levels = 0 then none
    else (Written.members? (levels - 1) [] members).map fun members => .table (Draft.memberValues members)
termination_by structural written => written

def Written.values? (levels : Nat) : List Written → Option (List Toml)
  | [] => some []
  | item :: items => do
    let value ← Written.value? levels item
    let values ← Written.values? levels items
    return value :: values
termination_by structural items => items

def Written.members? (levels : Nat) (found : Draft.Members) : List (Path × Written) → Option Draft.Members
  | [] => some found
  | (path, item) :: items => do
    let value ← Written.value? levels item
    let found ← Draft.assign (.closed value) path found
    Written.members? levels found items
termination_by structural items => items
end

/-- How many arrays and braces may stand inside each other. -/
def maxLevels : Nat := 80

/-- Takes up the lines of a document; `place` is the path of the last header. -/
def gather (place : Path) (found : Draft.Members) : List Line → Option Draft.Members
  | [] => some found
  | .table path :: lines => do gather path (← Draft.openTable path found) lines
  | .row path :: lines => do gather path (← Draft.openRow path found) lines
  | .entry path written :: lines => do
    let value ← written.value? maxLevels
    let found ← Draft.within (Draft.assign (.closed value) path) place found
    gather place found lines

/-- The table that a TOML text denotes. -/
def parse? (text : String) : Option Toml := do
  let lines ← lines? text
  let members ← gather [] [] lines
  return .table (Draft.memberValues members)

end FlowMetering.Toml
