import FlowMetering.CompileError
import FlowMetering.TypeTree

/-!
Export templates. A record is exported under the template that fits the choices its variant registers have
made. The templates are the leaves of a tree that branches on these registers.
-/

namespace FlowMetering

/-- The elements of an exported row, under a number. -/
structure Template where
  id : Nat
  elements : List Element
  deriving DecidableEq, Repr

def Template.names (t : Template) : List String :=
  t.elements.map (·.name)

/-- A tree of templates. A leaf without a template is a choice under which nothing can be exported. -/
inductive TemplateTree where
  | leaf (template : Option Template)
  | choice (register : Nat) (alternatives : List TemplateTree)

namespace TemplateTree

mutual
def decideEq : (a b : TemplateTree) → Decidable (a = b)
  | .leaf a, .leaf b => decidable_of_iff (a = b) (by simp)
  | .choice r as, .choice s bs =>
    match decEq r s, decideEqs as bs with
    | isTrue h, isTrue g => isTrue (by rw [h, g])
    | isFalse h, _ => isFalse (by simp [h])
    | _, isFalse g => isFalse (by simp [g])
  | .leaf _, .choice _ _ | .choice _ _, .leaf _ => isFalse nofun
termination_by structural a => a

def decideEqs : (as bs : List TemplateTree) → Decidable (as = bs)
  | [], [] => isTrue rfl
  | a :: as, b :: bs =>
    match decideEq a b, decideEqs as bs with
    | isTrue h, isTrue g => isTrue (by rw [h, g])
    | isFalse h, _ => isFalse (by simp [h])
    | _, isFalse g => isFalse (by simp [g])
  | [], _ :: _ | _ :: _, [] => isFalse nofun
termination_by structural as => as
end

instance : DecidableEq TemplateTree := decideEq

mutual
/-- The template for the variants of the registers; none where a variant is out of range. -/
def select (variant : Nat → Nat) : TemplateTree → Option Template
  | .leaf template => template
  | .choice register alternatives => selectAt variant (variant register) alternatives
termination_by structural tree => tree

def selectAt (variant : Nat → Nat) : Nat → List TemplateTree → Option Template
  | _, [] => none
  | 0, tree :: _ => select variant tree
  | i + 1, _ :: trees => selectAt variant i trees
termination_by structural _ trees => trees
end

mutual
/-- All templates, from left to right. -/
def templates : TemplateTree → List Template
  | .leaf template => template.toList
  | .choice _ alternatives => allTemplates alternatives
termination_by structural tree => tree

def allTemplates : List TemplateTree → List Template
  | [] => []
  | tree :: trees => templates tree ++ allTemplates trees
termination_by structural trees => trees
end

mutual
/-- The registers of all branching points from the root down. -/
def branchings : TemplateTree → List Nat
  | .leaf _ => []
  | .choice register alternatives => register :: allBranchings alternatives
termination_by structural tree => tree

def allBranchings : List TemplateTree → List Nat
  | [] => []
  | tree :: trees => branchings tree ++ allBranchings trees
termination_by structural trees => trees
end

/-- The distinct registers that the tree branches on, in the order in which they first occur. -/
def registers (tree : TemplateTree) : List Nat :=
  tree.branchings.foldl (fun found r => if found.contains r then found else found ++ [r]) []

mutual
/-- Replaces, from the leaves up, every branching point whose alternatives are all alike by its alternative. -/
def collapse : TemplateTree → TemplateTree
  | .leaf template => .leaf template
  | .choice register alternatives =>
    match collapseAll alternatives with
    | [] => .leaf none
    | first :: rest => if rest.all (· = first) then first else .choice register (first :: rest)
termination_by structural tree => tree

def collapseAll : List TemplateTree → List TemplateTree
  | [] => []
  | tree :: trees => collapse tree :: collapseAll trees
termination_by structural trees => trees
end

mutual
/-- Numbers the templates from left to right and gives the next number. -/
def number : TemplateTree → Nat → TemplateTree × Nat
  | .leaf (some template), next => (.leaf (some { template with id := next }), next + 1)
  | .leaf none, next => (.leaf none, next)
  | .choice register alternatives, next =>
    let (alternatives, next) := numberAll alternatives next
    (.choice register alternatives, next)
termination_by structural tree => tree

def numberAll : List TemplateTree → Nat → List TemplateTree × Nat
  | [], next => ([], next)
  | tree :: trees, next =>
    let (tree, next) := number tree next
    let (trees, next) := numberAll trees next
    (tree :: trees, next)
termination_by structural trees => trees
end

/-- One exported field as templates see it: its name, the name of its feature, the element declared for it,
its type, and the number of the feature in the specification. -/
structure Slot where
  name : String
  feature : String
  declared : Option Element
  type : TypeTree
  position : Nat

/-- The element of a field whose type under some choice is `leaf`. A declared element comes first. A field
called after its feature keeps the feature's element, and any other field gets one of its own name. -/
def Slot.element? (slot : Slot) (leaf : TypeTree) : Option Element :=
  match leaf with
  | .fixed element =>
    match slot.declared with
    | some declared => some declared
    | none => some (if slot.name = slot.feature then element else element.renamed slot.name)
  | _ => none

/-- The template of some fields under a choice, if all of them have a type. -/
def template? (slots : List Slot) (choice : TypeTree.Choice) : Option Template :=
  (slots.mapM fun (slot : Slot) => slot.element? (slot.type.select choice)).map (⟨0, ·⟩)

/-- Branches on all sources in turn. -/
def enumerate (slots : List Slot) (registerOf : String → Nat) :
    List (String × Nat) → TypeTree.Choice → TemplateTree
  | [], chosen => .leaf (template? slots chosen)
  | (source, count) :: sources, chosen =>
    .choice (registerOf source)
      ((List.range count).map fun i => enumerate slots registerOf sources (chosen ++ [(source, i)]))

/-- The distinct sources of the fields. The first field at which there are too many choices is a problem. -/
def sources (limit : Nat) (slots : List Slot) : Except CompileError (List (String × Nat)) :=
  slots.foldlM
    (fun found slot =>
      let sources := TypeTree.collect found slot.type
      let count := TypeTree.combinations sources
      if limit < count then .error ⟨slot.position, slot.name, .tooManyVariants count limit⟩ else .ok sources)
    []

/-- The template tree of some fields. `registerOf` gives the register that makes the choice of a source. -/
def ofSlots (limit : Nat) (registerOf : String → Nat) (slots : List Slot) : Except CompileError TemplateTree := do
  let sources ← sources limit slots
  return ((enumerate slots registerOf sources []).collapse.number 0).1

end TemplateTree

end FlowMetering
