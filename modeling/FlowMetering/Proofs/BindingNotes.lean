import FlowMetering.Proofs.BoundFeatures

/-! Binding as a search that writes into the expression. A node carries a note of the entry taken for it and of the
kind it gives. An attempt leaves notes all over the arguments it has bound; if it fails, the notes below the call are
cleared before the next entry is tried. The notes that remain in the end are those of the bound expression, or none. -/

namespace FlowMetering

structure Note (σ : Type) where
  chosen : Option (Registered σ)
  kind : Option Kind

def Note.blank {σ : Type} : Note σ := ⟨none, none⟩

/-- The notes of an expression. A node is found by the argument positions that lead to it. -/
abbrev Notes (σ : Type) := List Nat → Note σ

namespace Notes

variable {σ : Type}

def blank : Notes σ := fun _ => .blank

def put (notes : Notes σ) (place : List Nat) (note : Note σ) : Notes σ :=
  fun path => if path = place then note else notes path

def graft (notes : Notes σ) (place : List Nat) (others : Notes σ) : Notes σ :=
  fun path => if place <+: path then others (path.drop place.length) else notes path

def clear (notes : Notes σ) (place : List Nat) : Notes σ :=
  notes.graft place blank

def Clean (notes : Notes σ) (place : List Nat) : Prop :=
  ∀ path, notes (place ++ path) = .blank

theorem clean_blank (place : List Nat) : Clean (blank : Notes σ) place :=
  fun _ => rfl

variable {notes others : Notes σ} {place path : List Nat}

theorem graft_below (notes others : Notes σ) (place path : List Nat) :
    notes.graft place others (place ++ path) = others path := by
  rw [graft, if_pos (List.prefix_append place path), List.drop_left]

private theorem graft_elsewhere (elsewhere : ¬place <+: path) : notes.graft place others path = notes path :=
  if_neg elsewhere

private theorem eq_graft {result : Notes σ} (here : result place = others [])
    (below : ∀ j rest, result (place ++ j :: rest) = others (j :: rest))
    (elsewhere : ∀ path, ¬place <+: path → result path = notes path) : result = notes.graft place others := by
  funext path
  by_cases held : place <+: path
  · obtain ⟨rest, rfl⟩ := held
    rw [graft_below]
    cases rest with
    | nil => rw [List.append_nil, here]
    | cons j rest => exact below j rest
  · rw [graft_elsewhere held, elsewhere path held]

private theorem put_here (notes : Notes σ) (place : List Nat) (note : Note σ) : notes.put place note place = note :=
  if_pos rfl

private theorem put_other {note : Note σ} (other : path ≠ place) : notes.put place note path = notes path :=
  if_neg other

private theorem put_below {note : Note σ} (j : Nat) (rest : List Nat) :
    notes.put place note (place ++ j :: rest) = notes (place ++ j :: rest) := by
  apply put_other
  intro same
  exact List.cons_ne_nil j rest (List.append_right_eq_self.mp same)

private theorem put_elsewhere {note : Note σ} (elsewhere : ¬place <+: path) : notes.put place note path = notes path := by
  apply put_other
  rintro rfl
  exact elsewhere (List.prefix_refl _)

private theorem Clean.put (clean : Clean notes place) {note : Note σ} (here : others [] = note)
    (leaf : ∀ j rest, others (j :: rest) = .blank) : notes.put place note = notes.graft place others := by
  apply eq_graft
  · rw [put_here, here]
  · intro j rest
    rw [put_below, clean, leaf]
  · intro path elsewhere
    exact put_elsewhere elsewhere

private theorem graft_beside {i j : Nat} (other : j ≠ i) :
    notes.graft (place ++ [i]) others (place ++ j :: path) = notes (place ++ j :: path) := by
  apply graft_elsewhere
  intro below
  rw [List.prefix_append_right_inj, List.cons_prefix_cons] at below
  exact other below.1.symm

private theorem clear_graft (notes others : Notes σ) (place more : List Nat) :
    (notes.graft (place ++ more) others).clear place = notes.clear place := by
  funext path
  by_cases below : place <+: path
  · obtain ⟨rest, rfl⟩ := below
    rw [clear, clear, graft_below, graft_below]
  · have further : ¬place ++ more <+: path := fun held => below ((List.prefix_append place more).trans held)
    rw [clear, clear, graft_elsewhere below, graft_elsewhere below, graft_elsewhere further]

private theorem Clean.clear (clean : Clean notes place) : notes.clear place = notes := by
  funext path
  by_cases below : place <+: path
  · obtain ⟨rest, rfl⟩ := below
    rw [Notes.clear, graft_below, clean rest]
    rfl
  · exact graft_elsewhere below

end Notes

namespace Bound

variable {σ φ : Type} {catalog : Catalog σ φ}

/-- Tries candidates in order. What a failed attempt has noted is undone before the next one. -/
def tryEach {α ε : Type} (attempt : α → Notes σ → Except ε Unit × Notes σ) (undo : Notes σ → Notes σ) :
    List α → Notes σ → Except (List ε) Unit × Notes σ
  | [], notes => (.error [], notes)
  | candidate :: candidates, notes =>
    match attempt candidate notes with
    | (.ok (), notes) => (.ok (), notes)
    | (.error problem, notes) =>
      match tryEach attempt undo candidates (undo notes) with
      | (.ok (), notes) => (.ok (), notes)
      | (.error problems, notes) => (.error (problem :: problems), notes)

/-- The candidates that take so many arguments, with the kinds they ask for. -/
def takers (candidates : List (Registered σ)) (count : Nat) : List (Registered σ × List Kind) :=
  candidates.filterMap fun candidate => (candidate.entry.argumentKinds count).map fun kinds => (candidate, kinds)

mutual
/-- Binds an expression that stands at `place` and notes what is taken. -/
def annotate (catalog : Catalog σ φ) (required : Kind) (e : Expression) (place : List Nat) (notes : Notes σ) :
    Except Problem Unit × Notes σ :=
  match e with
  | .raw _ =>
    if required.isRaw then (.ok (), notes.put place ⟨none, some required⟩)
    else (.error ⟨"<raw>", .typeMismatch ("raw input cannot be used as " ++ required.name)⟩, notes)
  | .constant value =>
    if required.acceptsConstant then (.ok (), notes.put place ⟨none, some .constant⟩)
    else (.error ⟨value.display, .typeMismatch ("constant cannot be used as " ++ required.name)⟩, notes)
  | .call name args =>
    match catalog.find name required args.length with
    | [] => (.error (noCandidate catalog name required args.length), notes)
    | candidates =>
      let attempt (taker : Registered σ × List Kind) (notes : Notes σ) : Except Problem Unit × Notes σ :=
        match annotateAll catalog (taker.2.map (argumentKind required)) args place 0 notes with
        | (.ok (), notes) => (.ok (), notes.put place ⟨some taker.1, some required⟩)
        | (.error problem, notes) => (.error problem, notes)
      match tryEach attempt (·.clear place) (takers candidates args.length) notes with
      | (.ok (), notes) => (.ok (), notes)
      | (.error problems, notes) => (.error (joinProblems name problems), notes)
termination_by structural e

def annotateAll (catalog : Catalog σ φ) (kinds : List Kind) (args : List Expression) (place : List Nat) (i : Nat)
    (notes : Notes σ) : Except Problem Unit × Notes σ :=
  match args with
  | [] => (.ok (), notes)
  | arg :: args =>
    match kinds with
    | [] => (.ok (), notes)
    | kind :: kinds =>
      match annotate catalog kind arg (place ++ [i]) notes with
      | (.ok (), notes) => annotateAll catalog kinds args place (i + 1) notes
      | (.error problem, notes) => (.error problem, notes)
termination_by structural args
end

def noted (b : Bound σ) (path : List Nat) : Note σ :=
  match path, b with
  | [], .raw kind => ⟨none, some kind⟩
  | [], .constant _ => ⟨none, some .constant⟩
  | [], .call binding _ => ⟨some binding.chosen, some binding.kind⟩
  | i :: path, .call _ args =>
    match args[i]? with
    | some arg => noted arg path
    | none => .blank
  | _ :: _, .raw _ => .blank
  | _ :: _, .constant _ => .blank
termination_by structural path

private def graftAll (notes : Notes σ) (place : List Nat) : Nat → List (Bound σ) → Notes σ
  | _, [] => notes
  | i, bound :: bounds => graftAll (notes.graft (place ++ [i]) bound.noted) place (i + 1) bounds

private theorem graftAll_before {notes : Notes σ} {place path : List Nat} {bounds : List (Bound σ)} {i j : Nat}
    (before : j < i) : graftAll notes place i bounds (place ++ j :: path) = notes (place ++ j :: path) := by
  induction bounds generalizing i notes with
  | nil => rfl
  | cons bound bounds ih =>
    rw [graftAll, ih (Nat.lt_succ_of_lt before)]
    exact Notes.graft_beside (Nat.ne_of_lt before)

private theorem graftAll_below {notes : Notes σ} {place path : List Nat} {bounds : List (Bound σ)} {i k : Nat} :
    graftAll notes place i bounds (place ++ (i + k) :: path) =
      match bounds[k]? with
      | some bound => bound.noted path
      | none => notes (place ++ (i + k) :: path) := by
  induction bounds generalizing i k notes with
  | nil => rfl
  | cons bound bounds ih =>
    cases k with
    | zero =>
      have below : place ++ i :: path = place ++ [i] ++ path := by rw [List.append_assoc, List.singleton_append]
      change graftAll (notes.graft (place ++ [i]) bound.noted) place (i + 1) bounds (place ++ i :: path) =
        bound.noted path
      rw [graftAll_before (Nat.lt_add_one i), below, Notes.graft_below]
    | succ k =>
      have later : i + (k + 1) = i + 1 + k := by omega
      rw [graftAll, later, ih, List.getElem?_cons_succ, Notes.graft_beside (by omega)]

private theorem graftAll_elsewhere {notes : Notes σ} {place path : List Nat} {bounds : List (Bound σ)} {i : Nat}
    (elsewhere : ∀ j rest, path ≠ place ++ j :: rest) : graftAll notes place i bounds path = notes path := by
  induction bounds generalizing i notes with
  | nil => rfl
  | cons bound bounds ih =>
    rw [graftAll, ih]
    apply Notes.graft_elsewhere
    rintro ⟨rest, rfl⟩
    exact elsewhere i rest (by rw [List.append_assoc, List.singleton_append])

private theorem put_graftAll {notes : Notes σ} {place : List Nat} (clean : notes.Clean place) (binding : Binding σ)
    (bounds : List (Bound σ)) :
    (graftAll notes place 0 bounds).put place ⟨some binding.chosen, some binding.kind⟩ =
      notes.graft place (noted (.call binding bounds)) := by
  apply Notes.eq_graft
  · rw [Notes.put_here, noted]
  · intro j rest
    have held : graftAll notes place 0 bounds (place ++ (0 + j) :: rest) = _ := graftAll_below
    rw [Nat.zero_add, clean] at held
    rw [Notes.put_below, held, noted]
    rfl
  · intro path elsewhere
    rw [Notes.put_elsewhere elsewhere]
    apply graftAll_elsewhere
    rintro j rest rfl
    exact elsewhere (List.prefix_append _ _)

/-- What a search that starts from `notes` ends with, where binding ends with `result`. -/
def outcome {ε : Type} (notes : Notes σ) (place : List Nat) : Except ε (Bound σ) → Except ε Unit × Notes σ
  | .ok bound => (.ok (), notes.graft place bound.noted)
  | .error problem => (.error problem, notes)

/-- A search among candidates takes the first one that can be bound. No failed attempt shows in its outcome. -/
private theorem tryEach_eq {α ε : Type} {attempt : α → Notes σ → Except ε Unit × Notes σ} (bind : α → Except ε (Bound σ))
    {notes : Notes σ} {place : List Nat} {candidates : List α}
    (bound : ∀ candidate ∈ candidates, ∀ result, bind candidate = .ok result →
      attempt candidate notes = (.ok (), notes.graft place result.noted))
    (failed : ∀ candidate ∈ candidates, ∀ problem, bind candidate = .error problem →
      ∃ left, attempt candidate notes = (.error problem, left) ∧ left.clear place = notes) :
    tryEach attempt (·.clear place) candidates notes = outcome notes place (firstOk bind candidates) := by
  induction candidates with
  | nil => rfl
  | cons candidate candidates ih =>
    rw [List.forall_mem_cons] at bound failed
    cases taken : bind candidate with
    | ok result => rw [tryEach, firstOk, taken, bound.1 result taken, outcome]
    | error problem =>
      obtain ⟨left, tried, undone⟩ := failed.1 problem taken
      rw [tryEach, firstOk, taken, tried]
      dsimp only
      rw [undone, ih bound.2 failed.2]
      cases firstOk bind candidates with
      | ok result => rfl
      | error problems => rfl

private theorem takers_eq {candidates : List (Registered σ)} {count : Nat}
    (takes : ∀ candidate ∈ candidates, ∃ kinds, candidate.entry.argumentKinds count = some kinds) :
    takers candidates count =
      candidates.map fun candidate => (candidate, (candidate.entry.argumentKinds count).getD []) := by
  induction candidates with
  | nil => rfl
  | cons candidate candidates ih =>
    rw [List.forall_mem_cons] at takes
    obtain ⟨⟨kinds, asked⟩, others⟩ := takes
    have rest := ih others
    rw [takers] at rest ⊢
    rw [List.filterMap_cons, asked, List.map_cons, asked, rest]
    rfl

private theorem tryEach_map {α α' ε : Type} (attempt : α' → Notes σ → Except ε Unit × Notes σ) (undo : Notes σ → Notes σ)
    (f : α → α') (candidates : List α) (notes : Notes σ) :
    tryEach attempt undo (candidates.map f) notes =
      tryEach (fun candidate => attempt (f candidate)) undo candidates notes := by
  induction candidates generalizing notes with
  | nil => rfl
  | cons candidate candidates ih => simp only [List.map_cons, tryEach, ih]

private theorem annotateAll_eq (kinds : List Kind) {args : List Expression}
    (each : ∀ arg ∈ args, ∀ kind place notes, Notes.Clean notes place →
      annotate catalog kind arg place notes = outcome notes place (ofExpression catalog kind arg))
    {place : List Nat} {i : Nat} {notes : Notes σ} (fresh : ∀ j, i ≤ j → notes.Clean (place ++ [j])) :
    match ofExpressions catalog kinds args with
    | .ok bounds => annotateAll catalog kinds args place i notes = (.ok (), graftAll notes place i bounds)
    | .error problem => ∃ left, annotateAll catalog kinds args place i notes = (.error problem, left) ∧
        left.clear place = notes.clear place := by
  induction args generalizing kinds i notes with
  | nil => rfl
  | cons arg args ih =>
    cases kinds with
    | nil => rfl
    | cons kind kinds =>
      rw [List.forall_mem_cons] at each
      have first := each.1 kind (place ++ [i]) notes (fresh i (Nat.le_refl i))
      rw [ofExpressions, annotateAll, first]
      cases taken : ofExpression catalog kind arg with
      | error problem => exact ⟨notes, rfl, rfl⟩
      | ok bound =>
        have later : ∀ j, i + 1 ≤ j → (notes.graft (place ++ [i]) bound.noted).Clean (place ++ [j]) := by
          intro j behind path
          have clean := fresh j (Nat.le_of_succ_le behind) path
          rw [List.append_assoc, List.singleton_append] at clean ⊢
          rw [Notes.graft_beside (Nat.ne_of_gt behind), clean]
        have rest := ih kinds each.2 later
        cases others : ofExpressions catalog kinds args with
        | ok bounds =>
          rw [others] at rest
          exact rest
        | error problem =>
          rw [others] at rest
          obtain ⟨left, ended, cleared⟩ := rest
          exact ⟨left, ended, by rw [cleared, Notes.clear_graft]⟩

def bindWith (catalog : Catalog σ φ) (required : Kind) (args : List Expression) (candidate : Registered σ) :
    Except Problem (Bound σ) :=
  (ofExpressions catalog (((candidate.entry.argumentKinds args.length).getD []).map (argumentKind required)) args).map
    (.call ⟨candidate, required⟩)

/-- Where there are candidates for a call, one of them binds it or the problems of all are joined. -/
theorem ofExpression_find {required : Kind} {name : String} {args : List Expression} {first : Registered σ}
    {others : List (Registered σ)} (found : catalog.find name required args.length = first :: others) :
    ofExpression catalog required (.call name args) =
      (firstOk (bindWith catalog required args) (first :: others)).mapError (joinProblems name) := by
  rw [ofExpression, found]
  dsimp only
  split
  next bound taken =>
    have taken : firstOk (bindWith catalog required args) (first :: others) = .ok bound := taken
    rw [taken]
    rfl
  next problems failed =>
    have failed : firstOk (bindWith catalog required args) (first :: others) = .error problems := failed
    rw [failed]
    rfl

/-- From a clean subtree the search ends as binding does, with the notes of the bound expression or with none. -/
theorem annotate_eq (required : Kind) (e : Expression) {place : List Nat} {notes : Notes σ} (clean : notes.Clean place) :
    annotate catalog required e place notes = outcome notes place (ofExpression catalog required e) := by
  induction e using Tree.induct generalizing required place notes with
  | raw mark =>
    rw [annotate, ofExpression]
    split
    · exact Prod.ext rfl (clean.put rfl fun _ _ => rfl)
    · rfl
  | constant value =>
    rw [annotate, ofExpression]
    split
    · exact Prod.ext rfl (clean.put rfl fun _ _ => rfl)
    · rfl
  | call name args ih =>
    have each : ∀ arg ∈ args, ∀ kind place notes, Notes.Clean notes place →
        annotate catalog kind arg place notes = outcome notes place (ofExpression catalog kind arg) :=
      fun arg member kind _ _ clean => ih arg member kind clean
    have fresh : ∀ j, 0 ≤ j → notes.Clean (place ++ [j]) := fun j _ path => by
      rw [List.append_assoc]
      exact clean _
    have takes : ∀ candidate ∈ catalog.find name required args.length, _ := fun candidate member =>
      (Catalog.mem_find member).2.2.1
    rw [annotate]
    cases found : catalog.find name required args.length with
    | nil =>
      rw [ofExpression, found]
      rfl
    | cons first others =>
      dsimp only
      rw [ofExpression_find found, ← found, takers_eq takes, tryEach_map, tryEach_eq (bindWith catalog required args)]
      · cases firstOk (bindWith catalog required args) (catalog.find name required args.length) <;> rfl
      · intro candidate _ result bound
        obtain ⟨bounds, taken, rfl⟩ := map_eq_ok.mp bound
        have done := annotateAll_eq (((candidate.entry.argumentKinds args.length).getD []).map (argumentKind required))
          each fresh
        rw [taken] at done
        dsimp only at done ⊢
        rw [done]
        exact Prod.ext rfl (put_graftAll clean ⟨candidate, required⟩ bounds)
      · intro candidate _ problem failed
        have done := annotateAll_eq (((candidate.entry.argumentKinds args.length).getD []).map (argumentKind required))
          each fresh
        cases taken : ofExpressions catalog
            (((candidate.entry.argumentKinds args.length).getD []).map (argumentKind required)) args with
        | ok bounds =>
          rw [bindWith, taken] at failed
          cases failed
        | error other =>
          rw [bindWith, taken] at failed
          cases failed
          rw [taken] at done
          obtain ⟨left, ended, cleared⟩ := done
          -- what the failed arguments have left is all below the call, where nothing was noted before
          refine ⟨left, ?_, by rw [cleared, clean.clear]⟩
          dsimp only
          rw [ended]

end Bound

end FlowMetering
