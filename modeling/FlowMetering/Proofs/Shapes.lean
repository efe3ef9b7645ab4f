import FlowMetering.Proofs.ConstantKeys
import FlowMetering.Proofs.FeatureLowering

/-! The shapes of expressions: what is left when one forgets which kinds an expression has been bound for. Signatures
write shapes down without loss. Typed expressions are those whose calls carry their own signature and type. -/

namespace FlowMetering

/-- A constant is known by its type and its text, a call by the name and the number of its entry. -/
inductive Shape where
  | raw
  | constant (type : FieldType) (text : String)
  | call (name : String) (id : Nat) (args : List Shape)

namespace Bound

variable {σ φ : Type} {catalog : Catalog σ φ}

mutual
def shape : Bound σ → Shape
  | .raw _ => .raw
  | .constant value => .constant value.naturalType value.display
  | .call binding args => .call binding.chosen.entry.name binding.chosen.id (shapes args)
termination_by structural tree => tree

def shapes : List (Bound σ) → List Shape
  | [] => []
  | arg :: args => shape arg :: shapes args
termination_by structural args => args
end

private theorem shapes_eq_map (args : List (Bound σ)) : shapes args = args.map shape := by
  induction args with
  | nil => rfl
  | cons arg args ih => rw [shapes, ih, List.map_cons]

@[simp] theorem shape_call (binding : Binding σ) (args : List (Bound σ)) :
    shape (.call binding args) = .call binding.chosen.entry.name binding.chosen.id (args.map shape) := by
  rw [shape, shapes_eq_map]

private theorem map_eq_of_map_eq {α β γ : Type} {f : α → β} {g : α → γ} {as bs : List α}
    (each : ∀ a ∈ as, ∀ b ∈ bs, f a = f b → g a = g b) (same : as.map f = bs.map f) : as.map g = bs.map g := by
  induction as generalizing bs with
  | nil =>
    rw [List.map_nil, eq_comm, List.map_eq_nil_iff] at same
    rw [same]
  | cons a as ih =>
    cases bs with
    | nil => cases same
    | cons b bs =>
      obtain ⟨first, rest⟩ := List.cons.inj same
      have others := ih (fun a held b held' => each a (List.mem_cons_of_mem _ held) b (List.mem_cons_of_mem _ held')) rest
      rw [List.map_cons, List.map_cons, each a List.mem_cons_self b List.mem_cons_self first, others]

private theorem signature_of_shape_eq {tree other : Bound σ} (same : tree.shape = other.shape) :
    tree.signature = other.signature := by
  induction tree using Tree.induct generalizing other with
  | raw mark =>
    cases other with
    | raw mark' => rfl
    | constant value' | call binding' args' => cases same
  | constant value =>
    cases other with
    | constant value' =>
      obtain ⟨type, text⟩ := Shape.constant.inj same
      rw [signature, signature, Typed.constantKey, Typed.constantKey, type, text]
    | raw mark' | call binding' args' => cases same
  | call binding args ih =>
    cases other with
    | call binding' args' =>
      rw [shape_call, shape_call] at same
      obtain ⟨name, id, each⟩ := Shape.call.inj same
      have args := map_eq_of_map_eq (fun arg member _ _ => ih arg member) each
      rw [signature_call, signature_call, Typed.callKey, Typed.callKey, name, id, args]
    | raw mark' | constant value' => cases same

private theorem Over.signature_eq_iff {tree other : Bound σ} (drawn : Over catalog tree) (drawn' : Over catalog other) :
    tree.signature = other.signature ↔ tree.shape = other.shape := by
  constructor
  · intro same
    induction tree using Tree.induct generalizing other with
    | raw mark =>
      cases other with
      | raw mark' => rfl
      | constant value' | call binding' args' => exact (drawn.alike drawn' (congrArg ([] ++ ·.toList) same)).elim
    | constant value =>
      cases other with
      | constant value' =>
        rw [constantKey_inj drawn.value drawn'.value same]
      | raw mark' | call binding' args' => exact (drawn.alike drawn' (congrArg ([] ++ ·.toList) same)).elim
    | call binding args ih =>
      cases other with
      | call binding' args' =>
        obtain ⟨chosen, each⟩ := drawn.of_signature_eq drawn' same
        have args := map_eq_of_map_eq (fun arg member _ held => ih arg member (drawn.arg member) (drawn'.arg held)) each
        rw [shape_call, shape_call, chosen, args]
      | raw mark' | constant value' => exact (drawn.alike drawn' (congrArg ([] ++ ·.toList) same)).elim
  · exact signature_of_shape_eq

end Bound

namespace Typed

variable {σ φ : Type} {catalog : Catalog σ φ} {limit : Nat}

def shape (t : Typed σ) : Shape :=
  t.erase.shape

/-- Every call of a typed expression has an entry of the catalog, its signature, and the type that its arguments give. -/
inductive WellTyped (catalog : Catalog σ φ) (limit : Nat) : Typed σ → Prop
  | raw (mark : Kind) : WellTyped catalog limit (.raw mark)
  | constant {value : Value} (scalar : value.IsScalar) : WellTyped catalog limit (.constant value)
  | call {typing : Typing σ} {args : List (Typed σ)} (registered : typing.binding.chosen ∈ catalog.registered)
    (key : typing.signature = callKey typing.binding.chosen (args.map signature))
    (typed : callType limit typing.binding.chosen.entry typing.signature (args.map type) = .ok typing.type)
    (each : ∀ arg ∈ args, WellTyped catalog limit arg) : WellTyped catalog limit (.call typing args)

namespace WellTyped

theorem arg {typing : Typing σ} {args : List (Typed σ)} (typed : WellTyped catalog limit (.call typing args))
    {arg : Typed σ} (member : arg ∈ args) : WellTyped catalog limit arg := by
  cases typed with
  | call registered key typed each => exact each arg member

theorem subtree {t node : Typed σ} (typed : WellTyped catalog limit t) (member : node ∈ t.subtrees) :
    WellTyped catalog limit node := by
  induction t using Tree.induct with
  | raw mark => exact List.mem_singleton.mp member ▸ typed
  | constant value => exact List.mem_singleton.mp member ▸ typed
  | call typing args ih =>
    rcases Tree.mem_subtrees_call.mp member with ⟨arg, held, inside⟩ | rfl
    · exact ih arg held (typed.arg held) inside
    · exact typed

theorem drawn {t : Typed σ} (typed : WellTyped catalog limit t) : Bound.Over catalog t.erase := by
  induction t using Tree.induct with
  | raw mark => exact .raw mark
  | constant value =>
    cases typed with
    | constant scalar => exact .constant scalar
  | call typing args ih =>
    rw [erase_call]
    cases typed with
    | call registered key typed each =>
      exact .call registered (List.forall_mem_map.mpr fun arg member => ih arg member (each arg member))

theorem signature_eq {t : Typed σ} (typed : WellTyped catalog limit t) : t.signature = t.erase.signature := by
  induction t using Tree.induct with
  | raw mark => rfl
  | constant value => rfl
  | call typing args ih =>
    cases typed with
    | call registered key typed each =>
      have keys : args.map signature = (args.map erase).map Bound.signature := by
        rw [List.map_map]
        exact List.map_congr_left fun arg member => ih arg member (each arg member)
      rw [erase_call, Bound.signature_call, ← keys]
      exact key

/-- Typed expressions have one signature exactly if they have one shape. -/
theorem signature_eq_iff {t u : Typed σ} (typed : WellTyped catalog limit t) (typed' : WellTyped catalog limit u) :
    t.signature = u.signature ↔ t.shape = u.shape := by
  rw [typed.signature_eq, typed'.signature_eq]
  exact typed.drawn.signature_eq_iff typed'.drawn

/-- Calls of one signature have one entry, and arguments of the same signatures. -/
theorem call_signature_eq_iff {typing typing' : Typing σ} {args args' : List (Typed σ)}
    (typed : WellTyped catalog limit (.call typing args)) (typed' : WellTyped catalog limit (.call typing' args')) :
    typing.signature = typing'.signature ↔
      typing.binding.chosen = typing'.binding.chosen ∧ args.map signature = args'.map signature := by
  have erased {args : List (Typed σ)} (each : ∀ arg ∈ args, WellTyped catalog limit arg) :
      (args.map erase).map Bound.signature = args.map signature := by
    rw [List.map_map]
    exact List.map_congr_left fun arg member => (each arg member).signature_eq.symm
  have drawn := typed.drawn
  have drawn' := typed'.drawn
  have own := typed.signature_eq
  have own' := typed'.signature_eq
  rw [erase_call] at drawn drawn' own own'
  constructor
  · intro same
    have signatures := drawn.of_signature_eq drawn' (own.symm.trans (same.trans own'))
    rwa [erased fun _ => typed.arg, erased fun _ => typed'.arg] at signatures
  · rintro ⟨chosen, each⟩
    cases typed with
    | call registered key typed each' =>
      cases typed' with
      | call registered' key' typed' each'' => rw [key, key', chosen, each]

theorem type_eq {t u : Typed σ} (typed : WellTyped catalog limit t) (typed' : WellTyped catalog limit u)
    (same : t.signature = u.signature) : t.type = u.type := by
  induction t using Tree.induct generalizing u with
  | raw mark =>
    have shapes := (typed.signature_eq_iff typed').mp same
    cases u with
    | raw mark' => rfl
    | constant value => cases shapes
    | call typing args =>
      rw [Typed.shape, Typed.shape, erase_call, Bound.shape_call] at shapes
      cases shapes
  | constant value =>
    have shapes := (typed.signature_eq_iff typed').mp same
    cases u with
    | raw mark' => cases shapes
    | constant value' =>
      obtain ⟨type, text⟩ := Shape.constant.inj shapes
      rw [Typed.type, Typed.type, type, text]
    | call typing args =>
      rw [Typed.shape, Typed.shape, erase_call, Bound.shape_call] at shapes
      cases shapes
  | call typing args ih =>
    cases u with
    | raw mark' | constant value =>
      have shapes := (typed.signature_eq_iff typed').mp same
      rw [Typed.shape, Typed.shape, erase_call, Bound.shape_call] at shapes
      cases shapes
    | call typing' args' =>
      obtain ⟨chosen, signatures⟩ := (typed.call_signature_eq_iff typed').mp same
      have types := Bound.map_eq_of_map_eq
        (fun arg member arg' member' => ih arg member (typed.arg member) (typed'.arg member')) signatures
      cases typed with
      | call registered key typed each =>
        cases typed' with
        | call registered' key' typed' each' =>
          rw [show typing.signature = typing'.signature from same, chosen, types, typed'] at typed
          exact (Except.ok.inj typed).symm

end WellTyped

theorem wellTyped_ofBound {tree : Bound σ} {t : Typed σ} (drawn : Bound.Over catalog tree)
    (resolved : ofBound limit tree = .ok t) : WellTyped catalog limit t := by
  induction tree using Tree.induct generalizing t with
  | raw mark =>
    cases resolved
    exact .raw mark
  | constant value =>
    cases resolved
    exact .constant drawn.value
  | call binding args ih =>
    obtain ⟨typed, each, resolved⟩ := bind_eq_ok.mp resolved
    dsimp only at resolved
    split at resolved
    next type called =>
      cases resolved
      refine .call drawn.head rfl called fun arg member => ?_
      obtain ⟨tree, held, done⟩ := forall₂_mem_right (ofBounds_eq_ok.mp each) member
      exact ih tree held (drawn.arg held) done
    next => cases resolved

theorem combine_eq_ok {eval : List TypeTree → TypeTree} {arguments : List TypeTree} {tree : TypeTree}
    (combined : TypeTree.combine limit eval arguments = .ok tree) :
    tree = (TypeTree.enumerate (TypeTree.combinedUnder eval arguments) (TypeTree.sources arguments) []).collapse := by
  rw [TypeTree.combine] at combined
  dsimp only at combined
  split at combined
  · cases combined
  · split at combined
    · cases combined
    · exact (Except.ok.inj combined).symm

/-- Where a typed expression branches, the source is the signature of a call in it with so many types. -/
theorem WellTyped.source {t : Typed σ} (typed : WellTyped catalog limit t) {source : String} {count : Nat}
    (branching : (source, count) ∈ t.type.branchings) :
    ∃ typing args elements, .call typing args ∈ t.subtrees ∧ typing.signature = source ∧
      typing.binding.chosen.entry.output = .variants elements ∧ elements.length = count := by
  induction t using Tree.induct with
  | raw mark => exact absurd branching List.not_mem_nil
  | constant value => exact absurd branching List.not_mem_nil
  | call typing args ih =>
    cases typed with
    | call registered key typed each =>
      change (source, count) ∈ typing.type.branchings at branching
      rw [callType] at typed
      split at typed
      next =>
        rw [← Except.ok.inj typed] at branching
        exact absurd branching List.not_mem_nil
      next element _ =>
        rw [← Except.ok.inj typed] at branching
        exact absurd branching List.not_mem_nil
      next elements several =>
        rw [← Except.ok.inj typed, TypeTree.mem_branchings_variants, List.length_map] at branching
        rcases branching with same | ⟨branch, member, inside⟩
        · cases same
          exact ⟨typing, args, elements, Tree.mem_subtrees_self _, rfl, several, rfl⟩
        · obtain ⟨element, -, rfl⟩ := List.mem_map.mp member
          exact absurd inside List.not_mem_nil
      next resolve computed =>
        -- the call itself makes no choice, so the source comes from the type of an argument
        rw [combine_eq_ok typed] at branching
        have plain := TypeTree.combinedUnder_plain (args.map type)
          (resolvedType_plain typing.binding.chosen.entry.name resolve)
        have collected := (TypeTree.collected_sources (args.map type)).subset
          (TypeTree.enumerate_branchings plain _ _ (TypeTree.collapse_branchings _ branching))
        obtain ⟨_, member, inside⟩ := List.mem_flatMap.mp collected
        obtain ⟨arg, held, rfl⟩ := List.mem_map.mp member
        obtain ⟨typing', args', elements, part, found⟩ := ih arg held (each arg held) inside
        exact ⟨typing', args', elements, Tree.mem_subtrees_call.mpr (.inl ⟨arg, held, part⟩), found⟩

end Typed

end FlowMetering
