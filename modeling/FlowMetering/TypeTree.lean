import FlowMetering.Element
import FlowMetering.Word

/-!
Types that depend on run-time choices. An expression over an address has one type for each family, and which
one it is shows only at run time. A type tree branches on such a source, named by the signature of the
expression that makes the choice; the same source may occur in many trees and is always chosen alike.

`combine` gives the type of a call from the types of its arguments: it goes through all choices of their
sources and drops a source on which nothing depends.
-/

namespace FlowMetering

/-- The type of an expression. `untyped` is for selections and controls, which carry no data; `dead` marks a
choice under which the expression has no type. -/
inductive TypeTree where
  | untyped
  | dead
  | fixed (element : Element)
  | variants (source : String) (branches : List TypeTree)

namespace TypeTree

mutual
def decideEq : (a b : TypeTree) → Decidable (a = b)
  | .untyped, .untyped => isTrue rfl
  | .dead, .dead => isTrue rfl
  | .fixed a, .fixed b => decidable_of_iff (a = b) (by simp)
  | .variants s as, .variants t bs =>
    match decEq s t, decideEqs as bs with
    | isTrue h, isTrue g => isTrue (by rw [h, g])
    | isFalse h, _ => isFalse (by simp [h])
    | _, isFalse g => isFalse (by simp [g])
  | .untyped, .dead | .untyped, .fixed _ | .untyped, .variants _ _ => isFalse nofun
  | .dead, .untyped | .dead, .fixed _ | .dead, .variants _ _ => isFalse nofun
  | .fixed _, .untyped | .fixed _, .dead | .fixed _, .variants _ _ => isFalse nofun
  | .variants _ _, .untyped | .variants _ _, .dead | .variants _ _, .fixed _ => isFalse nofun
termination_by structural a => a

def decideEqs : (as bs : List TypeTree) → Decidable (as = bs)
  | [], [] => isTrue rfl
  | a :: as, b :: bs =>
    match decideEq a b, decideEqs as bs with
    | isTrue h, isTrue g => isTrue (by rw [h, g])
    | isFalse h, _ => isFalse (by simp [h])
    | _, isFalse g => isFalse (by simp [g])
  | [], _ :: _ | _ :: _, [] => isFalse nofun
termination_by structural as => as
end

instance : DecidableEq TypeTree := decideEq

mutual
/-- Whether there is a type under no choice. -/
def isDead : TypeTree → Bool
  | .dead => true
  | .variants _ branches => allDead branches
  | .untyped | .fixed _ => false
termination_by structural tree => tree

def allDead : List TypeTree → Bool
  | [] => true
  | tree :: trees => isDead tree && allDead trees
termination_by structural trees => trees
end

/-- Whether the tree branches. -/
def isVariant : TypeTree → Bool
  | .variants _ _ => true
  | _ => false

mutual
/-- All branching points from the root down: the source of each and its number of branches. -/
def branchings : TypeTree → List (String × Nat)
  | .variants source branches => (source, branches.length) :: allBranchings branches
  | .untyped | .dead | .fixed _ => []
termination_by structural tree => tree

def allBranchings : List TypeTree → List (String × Nat)
  | [] => []
  | tree :: trees => branchings tree ++ allBranchings trees
termination_by structural trees => trees
end

/-- Adds a source that has not been met before. -/
def addSource (sources : List (String × Nat)) (found : String × Nat) : List (String × Nat) :=
  if sources.any (·.1 == found.1) then sources else sources ++ [found]

/-- The distinct sources of a tree in the order in which they first occur, after some that are known. -/
def collect (sources : List (String × Nat)) (tree : TypeTree) : List (String × Nat) :=
  tree.branchings.foldl addSource sources

/-- The distinct sources of some trees in the order in which they first occur. -/
def sources (trees : List TypeTree) : List (String × Nat) :=
  trees.foldl collect []

/-- What is chosen for each source. -/
abbrev Choice := List (String × Nat)

/-- The branch that a choice takes at a source. -/
def Choice.branch? (choice : Choice) (source : String) : Option Nat :=
  (choice.find? (·.1 == source)).map (·.2)

mutual
/-- The type under a choice; dead where the choice names no branch. -/
def select (choice : Choice) : TypeTree → TypeTree
  | .variants source branches =>
    match choice.branch? source with
    | some i => selectAt choice i branches
    | none => .dead
  | .untyped => .untyped
  | .dead => .dead
  | .fixed element => .fixed element
termination_by structural tree => tree

def selectAt (choice : Choice) : Nat → List TypeTree → TypeTree
  | _, [] => .dead
  | 0, tree :: _ => select choice tree
  | i + 1, _ :: trees => selectAt choice i trees
termination_by structural _ trees => trees
end

mutual
/-- Replaces, from the leaves up, every branching point whose branches are all alike by its branch. -/
def collapse : TypeTree → TypeTree
  | .variants source branches =>
    match collapseAll branches with
    | [] => .dead
    | first :: rest => if rest.all (· = first) then first else .variants source (first :: rest)
  | .untyped => .untyped
  | .dead => .dead
  | .fixed element => .fixed element
termination_by structural tree => tree

def collapseAll : List TypeTree → List TypeTree
  | [] => []
  | tree :: trees => collapse tree :: collapseAll trees
termination_by structural trees => trees
end

/-- How many choices there are; a number that does not fit 64 bits counts as the largest that does. -/
def combinations (sources : List (String × Nat)) : Nat :=
  let product := sources.foldlM
    (fun count source => if count * source.2 ≤ Word.maxUnsigned then some (count * source.2) else none) 1
  product.getD Word.maxUnsigned

/-- Builds the tree that branches on all sources in turn and has a given leaf under each choice. -/
def enumerate (leaf : Choice → TypeTree) : List (String × Nat) → Choice → TypeTree
  | [], chosen => leaf chosen
  | (source, count) :: sources, chosen =>
    .variants source ((List.range count).map fun i => enumerate leaf sources (chosen ++ [(source, i)]))

/-- Why a call has no type. -/
inductive CombineError where
  | tooMany (combinations : Nat)
  | allDead
  deriving DecidableEq, Repr

/-- The type of a call whose type under one choice is `eval` of its arguments' types under that choice, or
dead if one of these is. -/
def combine (limit : Nat) (eval : List TypeTree → TypeTree) (arguments : List TypeTree) :
    Except CombineError TypeTree :=
  let sources := sources arguments
  if limit < combinations sources then .error (.tooMany (combinations sources))
  else
    let leaf (choice : Choice) : TypeTree :=
      let leaves := arguments.map (select choice)
      if leaves.any (· = .dead) then .dead else eval leaves
    let tree := (enumerate leaf sources []).collapse
    if tree.isDead then .error .allDead else .ok tree

mutual
/-- The type in one line: branches stand in brackets. -/
def display : TypeTree → String
  | .untyped => "-"
  | .dead => "!"
  | .fixed element => element.type.name
  | .variants _ branches => "[" ++ "|".intercalate (displayAll branches) ++ "]"
termination_by structural tree => tree

def displayAll : List TypeTree → List String
  | [] => []
  | tree :: trees => display tree :: displayAll trees
termination_by structural trees => trees
end

end TypeTree

end FlowMetering
