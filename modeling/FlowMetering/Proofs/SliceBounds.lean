import FlowMetering.Proofs.PoisedRecords

/-! Bounds of slices. When a segment starts, a slice takes its bounds from the constants among its arguments; and it has these
bounds for as long as the segment is open. -/

namespace FlowMetering

variable {σ φ : Type}

/-- What an instance sees when it is started: the instances before it have been started already. -/
def Meter.startContext [Feature σ] (m : Meter σ φ) (now : Int64) (t : Turn σ φ) (r : Nat) : Context :=
  let cleared : Turn σ φ := { t.log (.segment now) with
    record := { t.record with values := m.program.nodes.map (·.constant) } }
  m.context ((List.range r).foldl (m.startOne now) cleared) now r

namespace Library

variable {m : Meter Instance φ}

theorem argument_startContext (m : Meter Instance φ) (now : Int64) (t : Turn Instance φ) (r i : Nat) :
    (m.startContext now t r).argument i = ((m.program.args r)[i]?).bind m.program.known :=
  argument_of_constants rfl (start_sweep now _ r).1 i

/-- The bounds that a slice takes. A start that is missing, negative or no number counts as zero, and such a stop as none. -/
def sliceBounds (start stop : Option Value) : Nat × Option Nat :=
  (((start.bind index?).getD 0).toNat, ((stop.bind index?).filter (0 ≤ ·)).map Int.toNat)

/-- The bounds that the constants among the arguments of a register give to a slice. -/
def knownBounds (p : Program Instance φ) (r : Nat) : Nat × Option Nat :=
  sliceBounds (((p.args r)[0]?).bind p.known) (((p.args r)[1]?).bind p.known)

namespace Instance

def bounds? : Instance → Option (Nat × Option Nat)
  | .slice start stop _ => some (start, stop)
  | _ => none

theorem bounds?_start (c : Context) (s : Instance) :
    (s.start c).bounds? = s.bounds?.map fun _ => sliceBounds (c.argument 0) (c.argument 1) := by
  cases s <;> rfl

theorem bounds?_event (input : Input) (c : Context) (s : Instance) : (s.event input c).1.bounds? = s.bounds? := by
  cases input with
  | packet packet source => cases s <;> rfl
  | value v source =>
    cases s with
    | mean sum count =>
      rw [event, value]
      cases v.asFloat <;> rfl
    | _ => rfl

theorem bounds?_finishEvent (s : Instance) : s.finishEvent.bounds? = s.bounds? := by
  cases s <;> rfl

theorem bounds?_stop (reason : EndReason) (s : Instance) : (s.stop reason).1.bounds? = s.bounds? := by
  cases s <;> rfl

theorem slice_of_bounds? {s : Instance} {start : Nat} {stop : Option Nat} (found : s.bounds? = some (start, stop)) :
    ∃ index, s = .slice start stop index := by
  cases s with
  | slice start' stop' index =>
    cases found
    exact ⟨index, rfl⟩
  | _ => cases found

end Instance

def boundsAt (instances : List (Option Instance)) (r : Nat) : Option (Nat × Option Nat) :=
  (instances[r]?).join.bind Instance.bounds?

private theorem boundsAt_set {instances : List (Option Instance)} {r : Nat} {s : Instance} (held : instances[r]? = some (some s))
    (s' : Instance) (q : Nat) :
    boundsAt (instances.set r (some s')) q = if q = r then s'.bounds? else boundsAt instances q := by
  rw [boundsAt]
  split
  next same =>
    rw [same, List.getElem?_set_self (List.getElem?_eq_some_iff.mp held).1]
    rfl
  next other => rw [List.getElem?_set_ne (Ne.symm other), boundsAt]

private theorem boundsAt_of_held {instances : List (Option Instance)} {r : Nat} {s : Instance} (held : instances[r]? = some (some s)) :
    boundsAt instances r = s.bounds? := by
  rw [boundsAt, held]
  rfl

private theorem boundsAt_of_idle {instances : List (Option Instance)} {r : Nat} (idle : ∀ s, instances[r]? ≠ some (some s)) :
    boundsAt instances r = none := by
  rw [boundsAt]
  cases found : instances[r]? with
  | none => rfl
  | some kept =>
    cases kept with
    | none => rfl
    | some s => exact absurd found (idle s)

private def Bounded (bounds : Nat → Option (Nat × Option Nat)) : Picture Instance := fun instances _ =>
  ∀ r, boundsAt instances r = bounds r

namespace Bounded

variable {bounds : Nat → Option (Nat × Option Nat)} {t : Turn Instance φ}

private theorem setInstance (bounded : t.Shows (Bounded bounds)) {r : Nat} {s s' : Instance}
    (held : t.record.instances[r]? = some (some s)) (same : s'.bounds? = s.bounds?) :
    (t.setInstance r s').Shows (Bounded bounds) := by
  intro q
  rw [Turn.setInstance, boundsAt_set held, ← bounded q]
  split
  next here => rw [here, boundsAt_of_held held, same]
  next => rfl

private theorem call (bounded : t.Shows (Bounded bounds)) (m : Meter Instance φ) (now : Int64) (r : Nat) (phase : Phase)
    {answer : Context → Instance → Instance × Reaction} (same : ∀ c s, (answer c s).1.bounds? = s.bounds?) :
    (m.call now r phase answer t).1.Shows (Bounded bounds) := by
  rcases t.idle_or_held r with idle | ⟨s, held⟩
  · rwa [Meter.call_idle idle]
  · rw [Meter.call_eq held]
    exact setInstance bounded held (same _ s)

private theorem propagate (bounded : t.Shows (Bounded bounds)) (m : Meter Instance φ)
    {next : Nat → Input → Turn Instance φ → Turn Instance φ}
    (each : ∀ d input t, t.Shows (Bounded bounds) → (next d input t).Shows (Bounded bounds)) (packet : Option Packet) (r : Nat)
    (emission : Emission) : (m.propagate next packet r t emission).Shows (Bounded bounds) := by
  cases emission with
  | nothing => exact bounded
  | value v =>
    cases v with
    | none => exact bounded
    | some v => exact Turn.shows_foldl (fun d _ => each d (.value v r)) bounded
  | forward =>
    cases packet with
    | none => exact bounded
    | some p => exact Turn.shows_foldl (fun d _ => each d (.packet p (.register r))) bounded

private theorem deliver (bounded : t.Shows (Bounded bounds)) (m : Meter Instance φ) (now : Int64) (packet : Option Packet)
    (fuel r : Nat) (input : Input) : (m.deliver now packet fuel r input t).Shows (Bounded bounds) := by
  induction fuel generalizing r input t with
  | zero => exact bounded
  | succ fuel ih =>
    have called := call bounded m now r (.event input) (Instance.bounds?_event input)
    exact propagate called m (fun d input t bounded => ih bounded d input) packet r _

private theorem stopOne (bounded : t.Shows (Bounded bounds)) (m : Meter Instance φ) (reason : EndReason) (time : Int64) (r : Nat) :
    (m.stopOne reason time t r).Shows (Bounded bounds) := by
  have called := call bounded m time r (.stop reason) fun _ => Instance.bounds?_stop reason
  exact propagate called m (fun d input t bounded => deliver bounded m time none _ d input) none r _

private theorem finishEventOne (bounded : t.Shows (Bounded bounds)) (r : Nat) :
    (Meter.finishEventOne t r).Shows (Bounded bounds) := by
  rw [Meter.finishEventOne]
  split
  next s held => exact setInstance bounded held s.bounds?_finishEvent
  next => exact bounded

end Bounded

private theorem startOne_bounds (now : Int64) (t : Turn Instance φ) (r q : Nat) :
    boundsAt (m.startOne now t r).record.instances q =
      if q = r then (boundsAt t.record.instances r).map fun _ =>
        sliceBounds ((m.context t now r).argument 0) ((m.context t now r).argument 1)
      else boundsAt t.record.instances q := by
  rw [Meter.startOne_eq]
  rcases t.idle_or_held r with idle | ⟨s, held⟩
  · rw [Meter.call_idle idle, boundsAt_of_idle idle]
    split
    next same =>
      rw [same]
      exact boundsAt_of_idle idle
    next => rfl
  · rw [Meter.call_eq held, boundsAt_of_held held, ← Instance.bounds?_start]
    exact boundsAt_set held _ q

private theorem startSweep_bounds (now : Int64) {t : Turn Instance φ} (values : t.record.values = m.program.nodes.map (·.constant))
    (count r : Nat) : boundsAt ((List.range count).foldl (m.startOne now) t).record.instances r =
      if r < count then (boundsAt t.record.instances r).map fun _ => knownBounds m.program r
      else boundsAt t.record.instances r := by
  induction count with
  | zero => rfl
  | succ count ih =>
    rw [List.range_succ, List.foldl_append, List.foldl_cons, List.foldl_nil, startOne_bounds]
    by_cases here : r = count
    · subst here
      have seen := (start_sweep (m := m) now t r).1.trans values
      rw [if_pos rfl, if_pos (by omega), ih, if_neg (by omega), argument_of_constants rfl seen, argument_of_constants rfl seen]
      rfl
    · rw [if_neg here, ih]
      by_cases below : r < count
      · rw [if_pos below, if_pos (by omega)]
      · rw [if_neg below, if_neg (by omega)]

private def Sliced (m : Meter Instance φ) : Picture Instance := fun instances _ =>
  ∀ r, (boundsAt instances r).isSome = (boundsAt m.make.instances r).isSome

private def openBounds (m : Meter Instance φ) (r : Nat) : Option (Nat × Option Nat) :=
  (boundsAt m.make.instances r).map fun _ => knownBounds m.program r

private theorem sliced_of_bounded {instances : List (Option Instance)} {values : List (Option Value)}
    (bounded : Bounded (openBounds m) instances values) : Sliced m instances values := by
  intro r
  rw [bounded r, openBounds, Option.isSome_map]

private theorem map_of_isSome {α β : Type} {found found' : Option α} (same : found.isSome = found'.isSome) (b : β) :
    found.map (fun _ => b) = found'.map fun _ => b := by
  cases found <;> cases found' <;> cases same <;> rfl

private theorem start_bounded (m : Meter Instance φ) (now : Int64) {t : Turn Instance φ} (sliced : t.Shows (Sliced m)) :
    (m.start now t).Shows (Bounded (openBounds m)) := by
  intro r
  have placed := startSweep_bounds (m := m) now (t := { t.log (.segment now) with
    record := { t.record with values := m.program.nodes.map (·.constant) } }) rfl m.program.size r
  refine placed.trans ?_
  have same : (boundsAt t.record.instances r).isSome = (boundsAt m.make.instances r).isSome := sliced r
  rw [openBounds]
  split
  next => exact map_of_isSome same _
  next outside =>
    have missing : boundsAt m.make.instances r = none := by
      apply boundsAt_of_idle
      intro s found
      have inside := (List.getElem?_eq_some_iff.mp found).1
      rw [Meter.make, List.length_map] at inside
      exact outside inside
    rw [missing] at same ⊢
    exact Option.isNone_iff_eq_none.mp (by simpa using same)

private theorem bounded_rounds (m : Meter Instance φ) :
    m.Rounds (fun _ => True) (Sliced m) (Bounded (openBounds m)) (Sliced m) where
  make _ := rfl
  start now _ shown := start_bounded m now (shown.elim id sliced_of_bounded)
  control packet r _ _ _ bounded := Bounded.deliver bounded m packet.time (some packet) _ r _
  deliver packet _ _ bounded :=
    Meter.shows_deliverPacket (fun r _ _ bounded => Bounded.deliver bounded m packet.time (some packet) _ r _)
      (fun r _ bounded => Bounded.finishEventOne bounded r) bounded
  finish reason time _ bounded :=
    sliced_of_bounded (Turn.shows_foldl (fun r _ _ bounded => Bounded.stopOne bounded m reason time r) bounded)
  rest _ _ := id

/-- In an open segment a slice has the bounds that the constants among its arguments give it. -/
theorem performAll_bounds [Filter φ] (m : Meter Instance φ) (operations : List Operation)
    (active : (m.performAll m.make operations).1.active = true) {r : Nat} {node : Node Instance} {build : Kind → Instance}
    (found : m.program.nodes[r]? = some node) (built : node.build? = some build) (slice : (build node.kind).bounds?.isSome) :
    ∃ index, (m.performAll m.make operations).1.instances[r]? =
      some (some (.slice (knownBounds m.program r).1 (knownBounds m.program r).2 index)) := by
  have every : ∀ packet, .event packet ∈ operations → True := fun _ _ => trivial
  have rests := ((bounded_rounds m).performAll every (r := m.make) ⟨nofun, fun _ => (bounded_rounds m).make⟩).1
  have bounded := rests.live active r
  have made : m.make.instances[r]? = some (some (build node.kind)) := by
    rw [Meter.make, List.getElem?_map, found, Option.map_some, built, Option.map_some]
  obtain ⟨bounds, initial⟩ := Option.isSome_iff_exists.mp slice
  rw [openBounds, boundsAt_of_held made, initial, Option.map_some] at bounded
  rcases Turn.idle_or_held (.ofRecord (m.performAll m.make operations).1) r with idle | ⟨s, held⟩
  · cases (boundsAt_of_idle idle).symm.trans bounded
  · obtain ⟨index, rfl⟩ := Instance.slice_of_bounds? ((boundsAt_of_held held).symm.trans bounded)
    exact ⟨index, held⟩

end Library

end FlowMetering
