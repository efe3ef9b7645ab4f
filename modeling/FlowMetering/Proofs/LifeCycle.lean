import FlowMetering.Proofs.RegisterOrder
import FlowMetering.Record

/-! The life cycle of instances. Whatever the features, filters and exporters do, the journal of a record is made
of start sweeps, deliveries and stop sweeps with their exports, and no instance is called between its stop and
its next start. -/

namespace FlowMetering

inductive Operation where
  | event (packet : Packet)
  | stop (reason : EndReason) (now : Int64)

theorem Turn.idle_or_held {σ φ : Type} (t : Turn σ φ) (r : Nat) :
    (∀ s, t.record.instances[r]? ≠ some (some s)) ∨ ∃ s, t.record.instances[r]? = some (some s) := by
  by_cases held : ∃ s, t.record.instances[r]? = some (some s)
  · exact .inr held
  · exact .inl (not_exists.mp held)

theorem Turn.map_of_idle {σ φ : Type} {t : Turn σ φ} {r : Nat} (idle : ∀ s, t.record.instances[r]? ≠ some (some s))
    (f : σ → σ) : t.record.instances[r]?.map (Option.map f) = t.record.instances[r]? := by
  cases found : t.record.instances[r]? with
  | none => rfl
  | some held =>
    cases held with
    | none => rfl
    | some s => exact absurd found (idle s)

namespace Meter

variable {σ φ : Type}

section Call

variable {m : Meter σ φ} {now : Int64} {r : Nat} {phase : Phase} {answer : Context → σ → σ × Reaction} {t : Turn σ φ}

/-- What a call of an instance does to a record that has one. -/
theorem call_eq {s : σ} (held : t.record.instances[r]? = some (some s)) :
    m.call now r phase answer t =
      (((t.setInstance r (answer (m.context t now r) s).1).raise (answer (m.context t now r) s).2.signals).log
          (.call r phase (answer (m.context t now r) s).2.remarks),
        (answer (m.context t now r) s).2.emission) := by
  rw [call, held]

theorem call_idle (idle : ∀ s, t.record.instances[r]? ≠ some (some s)) : m.call now r phase answer t = (t, .nothing) := by
  rw [call]
  split
  next s held => exact absurd held (idle s)
  next => rfl

end Call

/-- The registers that have an instance, in ascending order. -/
def built (m : Meter σ φ) : List Nat :=
  (List.range m.program.size).filter fun r => (m.program.nodes[r]?.bind Node.build?).isSome

variable [Feature σ] [Filter φ]

def perform (m : Meter σ φ) (r : Record σ φ) : Operation → Record σ φ × Journal
  | .event packet => (m.event r packet).2
  | .stop reason now => m.stop r reason now

/-- Performs operations in their order; the journals follow each other. -/
def performAll (m : Meter σ φ) (r : Record σ φ) : List Operation → Record σ φ × Journal
  | [] => (r, [])
  | operation :: operations =>
    ((m.performAll (m.perform r operation).1 operations).1,
     (m.perform r operation).2 ++ (m.performAll (m.perform r operation).1 operations).2)

end Meter

namespace LifeCycle

/-- A start sweep over the given instances: one call of each in their order, and nothing else. -/
inductive Starts : List Nat → Journal → Prop
  | done : Starts [] []
  | start {waiting : List Nat} {calls : Journal} (r : Nat) (remarks : List String) (rest : Starts waiting calls) :
      Starts (r :: waiting) (.call r .start remarks :: calls)

/-- A stop sweep over the given instances: one stop of each in their order, and in between events for instances
that wait for their stop. -/
inductive Stops (reason : EndReason) : List Nat → Journal → Prop
  | done : Stops reason [] []
  | stop {waiting : List Nat} {calls : Journal} (r : Nat) (remarks : List String)
      (rest : Stops reason waiting calls) : Stops reason (r :: waiting) (.call r (.stop reason) remarks :: calls)
  | event {waiting : List Nat} {calls : Journal} (d : Nat) (input : Input) (remarks : List String)
      (member : d ∈ waiting) (rest : Stops reason waiting calls) :
      Stops reason waiting (.call d (.event input) remarks :: calls)

/-- One attempt to export: either there is no template, or one row goes to every exporter once. -/
inductive Attempt (exporters : List Exporter) (reason : EndReason) : Journal → Prop
  | noTemplate : Attempt exporters reason [.noTemplate reason]
  | row (row : Row) : Attempt exporters reason
      (.row reason row :: exporters.map fun exporter => .export exporter.name row (exporter.fails row))

/-- What is said in a journal without a call of an instance or an exporter. -/
inductive Quiet : Happening → Prop
  | filter (index : Nat) (call : FilterCall) (remarks : List String) : Quiet (.filter index call remarks)
  | veto : Quiet .veto
  | controlStop (reason : EndReason) : Quiet (.controlStop reason)

/-- The journals that lead from one activity of a record to another. Only a start sweep makes a record active,
and only a stop sweep with its export makes it inactive; packets are delivered in between. -/
inductive Leads (built : List Nat) (exporters : List Exporter) : Bool → Journal → Bool → Prop
  | done (active : Bool) : Leads built exporters active [] active
  | quiet {first last : Bool} {journal : Journal} (h : Happening) (quiet : Quiet h)
      (rest : Leads built exporters first journal last) : Leads built exporters first (h :: journal) last
  | start {last : Bool} {journal sweep : Journal} (first : Bool) (now : Int64) (starts : Starts built sweep)
      (rest : Leads built exporters true journal last) :
      Leads built exporters first (.segment now :: sweep ++ journal) last
  | event {last : Bool} {journal : Journal} (d : Nat) (input : Input) (remarks : List String) (member : d ∈ built)
      (rest : Leads built exporters true journal last) :
      Leads built exporters true (.call d (.event input) remarks :: journal) last
  | finishEvent {last : Bool} {journal : Journal} (d : Nat) (remarks : List String) (member : d ∈ built)
      (rest : Leads built exporters true journal last) :
      Leads built exporters true (.call d .finishEvent remarks :: journal) last
  | finish {last : Bool} {journal sweep attempt : Journal} (reason : EndReason) (time : Int64)
      (stops : Stops reason built sweep) (exported : Attempt exporters reason attempt)
      (rest : Leads built exporters false journal last) :
      Leads built exporters true (.finish reason time :: sweep ++ attempt ++ journal) last

/-- The instances that have been started and not stopped since, as the happenings go by. -/
def after (live : List Nat) : Happening → List Nat
  | .call r .start _ => r :: live
  | .call r (.stop _) _ => live.filter (· ≠ r)
  | _ => live

/-- Every call other than a start goes to an instance that has been started and not stopped since. -/
def Served : List Nat → Journal → Prop
  | _, [] => True
  | live, h :: journal =>
    (match h with
      | .call _ .start _ => True
      | .call r _ _ => r ∈ live
      | _ => True) ∧ Served (after live h) journal

variable {built : List Nat} {exporters : List Exporter}

theorem Leads.append {first middle last : Bool} {one other : Journal} (a : Leads built exporters first one middle)
    (b : Leads built exporters middle other last) : Leads built exporters first (one ++ other) last := by
  induction a with
  | done active => exact b
  | quiet h quiet rest ih => exact .quiet h quiet (ih b)
  | start first now starts rest ih =>
    rw [List.append_assoc]
    exact .start first now starts (ih b)
  | event d input remarks member rest ih => exact .event d input remarks member (ih b)
  | finishEvent d remarks member rest ih => exact .finishEvent d remarks member (ih b)
  | finish reason time stops attempt rest ih =>
    rw [List.append_assoc]
    exact .finish reason time stops attempt (ih b)

private theorem served_append {live : List Nat} {one other : Journal} :
    Served live (one ++ other) ↔ Served live one ∧ Served (one.foldl after live) other := by
  induction one generalizing live with
  | nil => exact ⟨fun served => ⟨trivial, served⟩, fun served => served.2⟩
  | cons h one ih =>
    simp only [List.cons_append, Served, List.foldl_cons, ih]
    exact ⟨fun served => ⟨⟨served.1, served.2.1⟩, served.2.2⟩, fun served => ⟨served.1.1, served.1.2, served.2⟩⟩

private theorem Starts.served {waiting : List Nat} {calls : Journal} (starts : Starts waiting calls) (live : List Nat) :
    Served live calls ∧ (∀ r ∈ live, r ∈ calls.foldl after live) ∧ ∀ r ∈ waiting, r ∈ calls.foldl after live := by
  induction starts generalizing live with
  | done => exact ⟨trivial, fun _ member => member, nofun⟩
  | start r remarks rest ih =>
    obtain ⟨served, kept, started⟩ := ih (r :: live)
    refine ⟨⟨trivial, served⟩, fun q member => kept q (List.mem_cons_of_mem r member), ?_⟩
    intro q member
    rcases List.mem_cons.mp member with rfl | member
    · exact kept q List.mem_cons_self
    · exact started q member

private theorem Stops.served {reason : EndReason} {waiting : List Nat} {calls : Journal} (stops : Stops reason waiting calls)
    (distinct : waiting.Nodup) {live : List Nat} (held : ∀ r ∈ waiting, r ∈ live) : Served live calls := by
  induction stops generalizing live with
  | done => trivial
  | stop r remarks rest ih =>
    obtain ⟨fresh, distinct⟩ := List.nodup_cons.mp distinct
    refine ⟨held r List.mem_cons_self, ih distinct ?_⟩
    intro q member
    have other : q ≠ r := by rintro rfl; exact fresh member
    exact List.mem_filter.mpr ⟨held q (List.mem_cons_of_mem r member), by simpa using other⟩
  | event d input remarks member rest ih => exact ⟨held d member, ih distinct held⟩

private theorem Attempt.served {reason : EndReason} {calls : Journal} (attempt : Attempt exporters reason calls)
    (live : List Nat) : Served live calls := by
  have exported : ∀ (row : Row) (exporters : List Exporter), Served live
      (exporters.map fun exporter => .export exporter.name row (exporter.fails row)) := by
    intro row exporters
    induction exporters with
    | nil => trivial
    | cons exporter exporters ih => exact ⟨trivial, ih⟩
  cases attempt with
  | noTemplate => exact ⟨trivial, trivial⟩
  | row row => exact ⟨trivial, exported row exporters⟩

/-- A journal that leads from one activity to another never calls an instance that is stopped. -/
theorem Leads.served {first last : Bool} {journal : Journal} (leads : Leads built exporters first journal last)
    (distinct : built.Nodup) {live : List Nat} (held : first = true → ∀ r ∈ built, r ∈ live) :
    Served live journal := by
  induction leads generalizing live with
  | done active => trivial
  | quiet h quiet rest ih => cases quiet <;> exact ⟨trivial, ih held⟩
  | start first now starts rest ih =>
    obtain ⟨served, _, started⟩ := starts.served live
    exact ⟨trivial, served_append.mpr ⟨served, ih fun _ => started⟩⟩
  | event d input remarks member rest ih => exact ⟨held rfl d member, ih held⟩
  | finishEvent d remarks member rest ih => exact ⟨held rfl d member, ih held⟩
  | finish reason time stops attempt rest ih =>
    refine ⟨trivial, served_append.mpr ⟨served_append.mpr ⟨?_, attempt.served _⟩, ih nofun⟩⟩
    exact stops.served distinct (held rfl)

private theorem Starts.calls {waiting : List Nat} {calls : Journal} (starts : Starts waiting calls) :
    ∀ h ∈ calls, ∃ r phase remarks, h = .call r phase remarks := by
  induction starts with
  | done => exact List.forall_mem_nil _
  | start r remarks rest ih => exact List.forall_mem_cons.mpr ⟨⟨r, _, remarks, rfl⟩, ih⟩

private theorem Stops.calls {reason : EndReason} {waiting : List Nat} {calls : Journal} (stops : Stops reason waiting calls) :
    ∀ h ∈ calls, ∃ r phase remarks, h = .call r phase remarks := by
  induction stops with
  | done => exact List.forall_mem_nil _
  | stop r remarks rest ih => exact List.forall_mem_cons.mpr ⟨⟨r, _, remarks, rfl⟩, ih⟩
  | event d input remarks member rest ih => exact List.forall_mem_cons.mpr ⟨⟨d, _, remarks, rfl⟩, ih⟩

private theorem Attempt.ne_finish {reason : EndReason} {calls : Journal} (attempt : Attempt exporters reason calls) :
    ∀ h ∈ calls, ∀ ended time, h ≠ .finish ended time := by
  cases attempt with
  | noTemplate => exact List.forall_mem_singleton.mpr nofun
  | row row => exact List.forall_mem_cons.mpr ⟨nofun, List.forall_mem_map.mpr fun _ _ => nofun⟩

private theorem eq_append_of_absent {front journal before after : Journal} {h : Happening} (absent : ∀ h' ∈ front, h' ≠ h)
    (same : front ++ journal = before ++ h :: after) : ∃ between, journal = between ++ h :: after := by
  rcases List.append_eq_append_iff.mp same with ⟨between, -, journal⟩ | ⟨overlap, front, after⟩
  · exact ⟨between, journal⟩
  · cases overlap with
    | nil => exact ⟨[], after.symm⟩
    | cons first overlap =>
      rw [List.cons_append, List.cons.injEq] at after
      rw [front] at absent
      exact absurd after.1.symm (absent first (List.mem_append_right _ List.mem_cons_self))

/-- A finish is followed by its stop sweep and its attempt to export. -/
theorem Leads.finishes {first last : Bool} {journal before after : Journal} {reason : EndReason} {time : Int64}
    (leads : Leads built exporters first journal last) (found : journal = before ++ .finish reason time :: after) :
    ∃ sweep attempt rest, after = sweep ++ attempt ++ rest ∧ Stops reason built sweep ∧ Attempt exporters reason attempt := by
  have calls {sweep : Journal} (calls : ∀ h ∈ sweep, ∃ r phase remarks, h = .call r phase remarks) :
      ∀ h ∈ sweep, h ≠ .finish reason time := by
    rintro _ member rfl
    obtain ⟨r, phase, remarks, same⟩ := calls _ member
    cases same
  induction leads generalizing before with
  | done active => exact absurd found (List.append_ne_nil_of_right_ne_nil _ (List.cons_ne_nil _ _)).symm
  | quiet h quiet rest ih =>
    have absent : ∀ h' ∈ [h], h' ≠ .finish reason time :=
      List.forall_mem_singleton.mpr (by rintro rfl; cases quiet)
    obtain ⟨between, found⟩ := eq_append_of_absent absent found
    exact ih found
  | start first now starts rest ih =>
    have other : Happening.segment now ≠ .finish reason time := by rintro ⟨⟩
    obtain ⟨between, found⟩ := eq_append_of_absent (List.forall_mem_cons.mpr ⟨other, calls starts.calls⟩) found
    exact ih found
  | event d input remarks member rest ih =>
    have absent : ∀ h ∈ [Happening.call d (.event input) remarks], h ≠ .finish reason time :=
      List.forall_mem_singleton.mpr (by rintro ⟨⟩)
    obtain ⟨between, found⟩ := eq_append_of_absent absent found
    exact ih found
  | finishEvent d remarks member rest ih =>
    have absent : ∀ h ∈ [Happening.call d .finishEvent remarks], h ≠ .finish reason time :=
      List.forall_mem_singleton.mpr (by rintro ⟨⟩)
    obtain ⟨between, found⟩ := eq_append_of_absent absent found
    exact ih found
  | finish ended time' stops attempt rest ih =>
    cases before with
    | nil =>
      cases found
      exact ⟨_, _, _, rfl, stops, attempt⟩
    | cons h before =>
      have absent := List.forall_mem_append.mpr ⟨calls stops.calls, fun h member => attempt.ne_finish h member reason time⟩
      obtain ⟨between, found⟩ := eq_append_of_absent absent (List.tail_eq_of_cons_eq found)
      exact ih found

end LifeCycle

end FlowMetering
