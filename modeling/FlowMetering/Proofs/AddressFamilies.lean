import FlowMetering.Proofs.AddressRegisters

/-! Families of exported addresses. The type of an exported address follows from the family of the last address that the
register for it has been given. This is the family of the address itself, unless an aggregate keeps an older one. -/

namespace FlowMetering

private theorem Meter.deliver_below {σ φ : Type} [Feature σ] {m : Meter σ φ} (ordered : m.program.Ordered) (now : Int64)
    (packet : Option Packet) {q : Nat} (fuel r : Nat) (below : q < r) (input : Input) (t : Turn σ φ) :
    (m.deliver now packet fuel r input t).record.instances[q]? = t.record.instances[q]? := by
  induction fuel generalizing r input t with
  | zero => rfl
  | succ fuel ih =>
    have called : (m.call now r (.event input) (Feature.event input) t).1.record.instances[q]? =
        t.record.instances[q]? := by
      rw [call]
      split
      · exact List.getElem?_set_ne (Nat.ne_of_gt below)
      · rfl
    have spread (input : Input) (ds : List Nat) (after : ∀ d ∈ ds, r < d) (t : Turn σ φ) :
        (ds.foldl (fun t d => m.deliver now packet fuel d input t) t).record.instances[q]? = t.record.instances[q]? := by
      induction ds generalizing t with
      | nil => rfl
      | cons d ds ih' =>
        rw [List.forall_mem_cons] at after
        rw [List.foldl_cons, ih' after.2, ih d (Nat.lt_trans below after.1)]
    have readers : ∀ d ∈ m.program.dependents r, r < d := fun d reads => ordered.lt_of_dependent reads
    rw [deliver]
    dsimp only
    rw [← called]
    cases (m.call now r (.event input) (Feature.event input) t).2 with
    | nothing => rfl
    | value v =>
      cases v with
      | none => rfl
      | some v => exact spread _ _ readers _
    | forward =>
      cases packet with
      | none => rfl
      | some p => exact spread _ _ readers _

namespace Library

variable {p : Program Instance PacketFilter} {seen : Endpoint → Nat → Prop} {instances : List (Option Instance)}
variable {r q x : Nat} {s s' : Instance} {rule : Aggregate} {a : Address}

/-- The register for addresses has the family of an address as its choice. -/
def Chosen (instances : List (Option Instance)) (q : Nat) (a : Address) : Prop :=
  ∃ endpoint, instances[q]? = some (some (.packetAddress endpoint (family a)))

/-- An aggregate keeps to the last family: it keeps the last value, or there is one family only. -/
def UpToDate (seen : Endpoint → Nat → Prop) (rule : Aggregate) : Prop :=
  rule = .last ∨ ∀ endpoint n n', seen endpoint n → seen endpoint n' → n = n'

/-- The address that an aggregate keeps is of the family that has been chosen. -/
def Matching (p : Program Instance PacketFilter) (seen : Endpoint → Nat → Prop) (instances : List (Option Instance))
    (r : Nat) : Prop :=
  ∀ rule a q, instances[r]? = some (some (.running rule (some (.address a)))) → UpToDate seen rule →
    p.args r = [.register q] → Chosen instances q a

private theorem Chosen.set (chosen : Chosen instances q a) (held : instances[r]? = some (some s))
    (stays : ∀ endpoint variant, s = .packetAddress endpoint variant → s' = s) : Chosen (instances.set r (some s')) q a := by
  obtain ⟨endpoint, found⟩ := chosen
  by_cases same : r = q
  · subst same
    cases held.symm.trans found
    rw [stays _ _ rfl]
    exact ⟨endpoint, List.getElem?_set_self (List.getElem?_eq_some_iff.mp held).1⟩
  · exact ⟨endpoint, (List.getElem?_set_ne same).trans found⟩

private theorem Matching.set (held : instances[r]? = some (some s))
    (stays : ∀ endpoint variant, s = .packetAddress endpoint variant → s' = s)
    (own : x = r → ∀ rule a q, s' = .running rule (some (.address a)) → UpToDate seen rule → p.args r = [.register q] →
      Chosen instances q a)
    (other : x ≠ r → Matching p seen instances x) : Matching p seen (instances.set r (some s')) x := by
  intro rule a q found steady single
  by_cases same : x = r
  · subst same
    rw [List.getElem?_set_self (List.getElem?_eq_some_iff.mp held).1] at found
    exact (own rfl rule a q (Option.some.inj (Option.some.inj found)) steady single).set held stays
  · rw [List.getElem?_set_ne (Ne.symm same)] at found
    exact (other same rule a q found steady single).set held stays

private theorem packetAddressEntry_inj {endpoint endpoint' : Endpoint}
    (same : packetAddressEntry endpoint = packetAddressEntry endpoint') : endpoint = endpoint' := by
  have names := congrArg Entry.name same
  cases endpoint <;> cases endpoint' <;> first | rfl | exact absurd names (by decide)

private theorem chosen_of_step {before : Option Value} {v : Value} (gathers : Gathers p seen r (.running rule before))
    (steady : UpToDate seen rule) (reads : r ∈ p.dependents q) (tells : Tells p seen q v)
    (stepped : rule.step before v = some (.address a)) (new : ∀ a, v = .address a → Chosen instances q a)
    (old : (∀ a, v ≠ .address a) → before = some (.address a) → Chosen instances q a) : Chosen instances q a := by
  rcases step_address stepped with kept | given
  · by_cases address : ∃ a', v = .address a'
    · obtain ⟨a', rfl⟩ := address
      rcases steady with last | single
      · subst last kept
        cases stepped
        exact new a rfl
      · have reads' := Program.mem_args_of_dependent reads
        obtain ⟨endpoint, found, known⟩ := gathers.kept rule a (congrArg _ kept) q (gathers.attended.fed reads').1
        obtain ⟨endpoint', found', known'⟩ := tells.comes gathers.attended reads' rfl
        cases packetAddressEntry_inj (found.unique found')
        obtain ⟨endpoint', chosen⟩ := new a' rfl
        rw [single endpoint _ _ known' known] at chosen
        exact ⟨endpoint', chosen⟩
    · push Not at address
      exact old address kept
  · exact new a given

/-- What comes to a register during a segment: a packet of known families, or a value that goes with the choice of the
register that it comes from. -/
inductive Arrives (p : Program Instance PacketFilter) (seen : Endpoint → Nat → Prop) (instances : List (Option Instance))
    (r : Nat) : Input → Prop
  | packet {packet : Packet} (source : Source) (familiar : Familiar seen packet) :
    Arrives p seen instances r (.packet packet source)
  | value {v : Value} {q : Nat} (reads : r ∈ p.dependents q) (tells : Tells p seen q v)
    (chosen : ∀ a, v = .address a → Chosen instances q a) : Arrives p seen instances r (.value v q)

private def Tidings (input : Input) : Prop :=
  ∃ a q, input = .value (.address a) q

/-- Where addresses are during a segment. Registers for the addresses of packets have them; what aggregates keep matches
the choices, but for those that are yet to be told of a new one. -/
structure Flowing (p : Program Instance PacketFilter) (seen : Endpoint → Nat → Prop) (pending : List Nat)
    (instances : List (Option Instance)) (values : List (Option Value)) : Prop where
  sound : Meter.Sound (Gathers p seen) (Tells p seen) instances values
  values : ∀ (r : Nat) a, values[r]? = some (some (.address a)) → ∃ endpoint, p.EntryAt r (packetAddressEntry endpoint)
  matching : ∀ r ∉ pending, Matching p seen instances r

section Deliveries

variable {m : Meter Instance PacketFilter} {t : Turn Instance PacketFilter} {input : Input} {pending : List Nat}

private theorem mem_dependents_of_args (attended : Attended m.program r s) (attended' : Attended m.program x s')
    (reads : .register r ∈ m.program.args x) : x ∈ m.program.dependents r := by
  obtain ⟨entry, represents, -⟩ := attended
  obtain ⟨entry', represents', -⟩ := attended'
  obtain ⟨node, chosen, found, varies, -, -⟩ := represents.found
  obtain ⟨node', chosen', found', -, -, -⟩ := represents'.found
  rw [Program.args_of_found found'] at reads
  have argues := Program.mem_arguments.mpr ⟨node', found', reads⟩
  refine Program.mem_dependents.mpr ⟨?_, (List.getElem?_eq_some_iff.mp found').1, argues⟩
  rw [Program.isConstant, Program.node?, found]
  dsimp only
  rw [varies]
  rfl

private theorem Matching.of_unread (held : instances[r]? = some (some s)) (forgets : ∀ rule current, s' ≠ .running rule current)
    (unread : ∀ s, instances[x]? = some (some s) → .register r ∉ p.args x) (other : x ≠ r → Matching p seen instances x) :
    Matching p seen (instances.set r (some s')) x := by
  intro rule a q found upToDate single
  by_cases same : r = x
  · subst same
    rw [List.getElem?_set_self (List.getElem?_eq_some_iff.mp held).1] at found
    exact absurd (Option.some.inj (Option.some.inj found)) (forgets _ _)
  · rw [List.getElem?_set_ne same] at found
    have elsewhere : r ≠ q := by
      rintro rfl
      exact unread _ found (single ▸ List.mem_singleton_self _)
    obtain ⟨endpoint, chosen⟩ := other (Ne.symm same) rule a q found upToDate single
    exact ⟨endpoint, (List.getElem?_set_ne elsewhere).trans chosen⟩

private theorem matching_of_untold {c : Context} (arrives : Arrives p seen instances r input)
    (held : instances[r]? = some (some s)) (gathers : Gathers p seen r s)
    (untold : ∀ a, (s.event input c).2.emission ≠ .value (some (.address a)))
    (matching : x = r ∧ Tidings input ∨ Matching p seen instances x) :
    Matching p seen (instances.set r (some (s.event input c).1)) x := by
  refine Matching.set held ?_ ?_ fun other => matching.resolve_left fun told => other told.1
  · rintro endpoint variant rfl
    cases arrives with
    | value reads given chosen => rfl
    | packet source known =>
      rename_i packet
      have missing : endpoint.address packet = none := by
        cases found : endpoint.address packet with
        | none => rfl
        | some a =>
          refine absurd ?_ (untold a)
          change Emission.value ((endpoint.address packet).map Value.address) = _
          rw [found]
          rfl
      change Instance.packetAddress endpoint _ = _
      rw [missing]
      rfl
  · rintro rfl rule a q after upToDate single
    have known : ¬Tidings input → Matching p seen instances x :=
      fun plain => matching.resolve_left fun told => plain told.2
    cases arrives with
    | packet source fine =>
      rw [running_of_packet after] at held
      exact known (by rintro ⟨_, _, same⟩; cases same) rule a q held upToDate single
    | value reads given chosen =>
      obtain ⟨before, rfl, stepped⟩ := running_of_value after
      have source := (gathers.attended.fed (Program.mem_args_of_dependent reads)).1
      rw [single] at source
      cases source
      refine chosen_of_step gathers upToDate reads given stepped chosen fun plain kept => ?_
      rw [kept] at held
      refine known ?_ rule a q held upToDate single
      rintro ⟨a', q', same⟩
      cases same
      exact plain a' rfl

private theorem call_matching (now : Int64) (arrives : Arrives m.program seen t.record.instances r input)
    (sound : t.Shows (Meter.Sound (Gathers m.program seen) (Tells m.program seen)))
    (matching : ∀ x ∉ pending, x = r ∧ Tidings input ∨ Matching m.program seen t.record.instances x) :
    (∃ a endpoint, (m.call now r (.event input) (Feature.event input) t).2 = .value (some (.address a)) ∧
        m.program.EntryAt r (packetAddressEntry endpoint) ∧
        (m.call now r (.event input) (Feature.event input) t).1.record.instances[r]? =
          some (some (.packetAddress endpoint (family a))) ∧
        ∀ x ∉ pending, x ∉ m.program.dependents r →
          Matching m.program seen (m.call now r (.event input) (Feature.event input) t).1.record.instances x) ∨
      (∀ a, (m.call now r (.event input) (Feature.event input) t).2 ≠ .value (some (.address a))) ∧
        ∀ x ∉ pending, Matching m.program seen (m.call now r (.event input) (Feature.event input) t).1.record.instances x := by
  rcases t.idle_or_held r with idle | ⟨s, held⟩
  · rw [Meter.call_idle idle]
    refine .inr ⟨nofun, fun x outside => ?_⟩
    rcases matching x outside with ⟨rfl, -⟩ | known
    · exact fun rule a q found => absurd found (idle _)
    · exact known
  · have gathers := sound.1 r s held
    obtain ⟨entry, represents, serves⟩ := gathers.attended
    rw [Meter.call_eq held]
    generalize m.context t now r = c
    by_cases told : ∃ a, (s.event input c).2.emission = .value (some (.address a))
    · obtain ⟨a, emitted⟩ := told
      obtain ⟨endpoint, variant, packet, source, rfl, rfl, found⟩ := event_address represents serves emitted
      have chosen : (Instance.event (.packet packet source) c (.packetAddress endpoint variant)).1 =
          .packetAddress endpoint (family a) := by
        change Instance.packetAddress endpoint _ = _
        rw [found]
        rfl
      refine .inl ⟨a, endpoint, emitted, serves.entry_packetAddress ▸ represents.found, ?_, fun x outside unread => ?_⟩
      · exact (List.getElem?_set_self (List.getElem?_eq_some_iff.mp held).1).trans (congrArg (some <| some ·) chosen)
      · refine Matching.of_unread held (fun _ _ same => nomatch chosen.symm.trans same) (fun s kept reads => ?_)
          fun other => (matching x outside).resolve_left fun same => other same.1
        exact unread (mem_dependents_of_args gathers.attended (sound.1 x s kept).attended reads)
    · exact .inr ⟨not_exists.mp told, fun x outside =>
        matching_of_untold arrives held gathers (not_exists.mp told) (matching x outside)⟩

private theorem Flowing.setValue {v : Option Value} (flowing : t.Shows (Flowing p seen pending))
    (told : ∀ w, v = some w → Tells p seen r w)
    (given : ∀ a, v = some (.address a) → ∃ endpoint, p.EntryAt r (packetAddressEntry endpoint)) :
    (t.setValue r v).Shows (Flowing p seen pending) := by
  refine ⟨Meter.Sound.setValue flowing.sound r told, fun x a stored => ?_, flowing.matching⟩
  rcases Turn.value_cases_of_setValue stored with ⟨rfl, written⟩ | stored
  · exact given a written
  · exact flowing.values x a stored

private theorem Arrives.answers (safe : m.Safe (Familiar seen) (Gathers m.program seen) (Tells m.program seen))
    (arrives : Arrives m.program seen instances r input) (c : Context) (s : Instance)
    (sees : m.Sees (Tells m.program seen) c) (same : c.register = r) (gathers : Gathers m.program seen r s) :
    Meter.Answers (Gathers m.program seen) (Tells m.program seen) r (Feature.event input c s) := by
  subst same
  cases arrives with
  | packet source familiar => exact safe.packet _ source c s familiar sees gathers
  | value reads tells chosen => exact safe.value _ _ c s reads tells sees gathers

private theorem flowing_of_told {tell : Turn Instance PacketFilter → Nat → Turn Instance PacketFilter} {ds : List Nat}
    {choice : Option (Option Instance)}
    (told : ∀ d ∈ ds, ∀ pending t, t.Shows (Flowing p seen (d :: pending)) → t.record.instances[r]? = choice →
      (tell t d).Shows (Flowing p seen pending) ∧ (tell t d).record.instances[r]? = choice)
    (flowing : t.Shows (Flowing p seen (ds ++ pending))) (found : t.record.instances[r]? = choice) :
    (ds.foldl tell t).Shows (Flowing p seen pending) := by
  induction ds generalizing t with
  | nil => exact flowing
  | cons d ds ih =>
    rw [List.forall_mem_cons] at told
    obtain ⟨flowing, found⟩ := told.1 (ds ++ pending) t flowing found
    exact ih told.2 flowing found

private theorem deliver_flowing (safe : m.Safe (Familiar seen) (Gathers m.program seen) (Tells m.program seen))
    (ordered : m.program.Ordered) (now : Int64) {packet : Option Packet} (fine : ∀ p, packet = some p → Familiar seen p)
    (fuel r : Nat) (enough : m.program.size ≤ fuel + r) {input : Input} {pending : List Nat} {t : Turn Instance PacketFilter}
    (arrives : Arrives m.program seen t.record.instances r input)
    (sound : t.Shows (Meter.Sound (Gathers m.program seen) (Tells m.program seen)))
    (values : ∀ (r : Nat) a, t.record.values[r]? = some (some (.address a)) →
      ∃ endpoint, m.program.EntryAt r (packetAddressEntry endpoint))
    (matching : ∀ x ∉ pending, x = r ∧ Tidings input ∨ Matching m.program seen t.record.instances x) :
    (m.deliver now packet fuel r input t).Shows (Flowing m.program seen pending) := by
  induction fuel generalizing r input pending t with
  | zero =>
    refine ⟨sound, values, fun x outside => (matching x outside).resolve_left ?_⟩
    rintro ⟨rfl, a, q, rfl⟩
    cases arrives with
    | value reads tells chosen =>
      obtain ⟨-, inside, -⟩ := Program.mem_dependents.mp reads
      omega
  | succ fuel ih =>
    have called := Meter.Sound.call sound now r (.event input) (arrives.answers safe)
    have split := call_matching now arrives sound matching
    have kept : (m.call now r (.event input) (Feature.event input) t).1.record.values = t.record.values := by
      rw [Meter.call]
      split <;> rfl
    rw [Meter.deliver]
    dsimp only
    generalize m.call now r (.event input) (Feature.event input) t = result at called split kept ⊢
    obtain ⟨t, emission⟩ := result
    rw [← kept] at values
    have deeper {d : Nat} (reads : d ∈ m.program.dependents r) : m.program.size ≤ fuel + d := by
      have after := ordered.lt_of_dependent reads
      omega
    rcases split with ⟨a, endpoint, same, entered, found, others⟩ | ⟨plain, others⟩
    · dsimp only at same
      subst same
      have tells := called.2 _ rfl
      -- the readers that have not been told yet are those that may keep an address of another family
      refine flowing_of_told (fun d reads pending t flowing found => ⟨?_, ?_⟩)
        (Flowing.setValue ⟨called.1, values, fun x outside => ?_⟩ ?_ ?_) found
      · refine ih d (deeper reads) (.value reads tells ?_) flowing.sound flowing.values fun x outside => ?_
        · rintro a' ⟨⟩
          exact ⟨endpoint, found⟩
        · by_cases same : x = d
          · exact .inl ⟨same, a, r, rfl⟩
          · exact .inr (flowing.matching x fun inside => (List.mem_cons.mp inside).elim same outside)
      · exact (Meter.deliver_below ordered now packet fuel d (ordered.lt_of_dependent reads) _ t).trans found
      · rw [List.mem_append, not_or] at outside
        exact others x outside.2 outside.1
      · rintro w ⟨⟩
        exact tells
      · exact fun _ _ => ⟨endpoint, entered⟩
    · have flowing : t.Shows (Flowing m.program seen pending) := ⟨called.1, values, others⟩
      have spread (input : Input) (plain : ¬Tidings input) (ds : List Nat) (t : Turn Instance PacketFilter)
          (arrives : ∀ d ∈ ds, d ∈ m.program.dependents r ∧ ∀ instances, Arrives m.program seen instances d input)
          (flowing : t.Shows (Flowing m.program seen pending)) :
          (ds.foldl (fun t d => m.deliver now packet fuel d input t) t).Shows (Flowing m.program seen pending) := by
        refine Turn.shows_foldl (fun d member t flowing => ?_) flowing
        obtain ⟨reads, arrives⟩ := arrives d member
        exact ih d (deeper reads) (arrives _) flowing.sound flowing.values fun x outside => .inr (flowing.matching x outside)
      cases emission with
      | nothing => exact flowing
      | value v =>
        cases v with
        | none => exact Flowing.setValue flowing (by rintro _ ⟨⟩) (by rintro _ ⟨⟩)
        | some v =>
          have tells := called.2 v rfl
          have other : ∀ a, v ≠ .address a := fun a same => plain a (congrArg (fun v => Emission.value (some v)) same)
          refine spread _ ?_ _ _ (fun d reads => ⟨reads, fun _ => .value reads tells fun a same => absurd same (other a)⟩)
            (Flowing.setValue flowing ?_ ?_)
          · rintro ⟨a, q, same⟩
            cases same
            exact other a rfl
          · rintro w ⟨⟩
            exact tells
          · exact fun a same => absurd (Option.some.inj same) (other a)
      | forward =>
        cases packet with
        | none => exact flowing
        | some packet =>
          refine spread _ ?_ _ _ (fun d reads => ⟨reads, fun _ => .packet _ (fine packet rfl)⟩) flowing
          rintro ⟨a, q, same⟩
          cases same

end Deliveries

section Stops

/-- Why a register has an address at the end of a segment: it is one for the addresses of packets, its instance has kept
the first address of the flow, or it has kept an address that it has read, of the family that has been chosen. -/
inductive Explained (p : Program Instance PacketFilter) (seen : Endpoint → Nat → Prop) (instances : List (Option Instance))
    (r : Nat) (a : Address) : Prop
  | packet {endpoint : Endpoint} (entered : p.EntryAt r (packetAddressEntry endpoint)) : Explained p seen instances r a
  | first {endpoint : Endpoint} (found : instances[r]? = some (some (.firstAddress endpoint (some a)))) :
    Explained p seen instances r a
  | kept {rule : Aggregate} {current : Option Value} (found : instances[r]? = some (some (.running rule current)))
    (chosen : UpToDate seen rule → ∀ q, p.args r = [.register q] → Chosen instances q a) : Explained p seen instances r a

structure Closing (p : Program Instance PacketFilter) (seen : Endpoint → Nat → Prop) (instances : List (Option Instance))
    (values : List (Option Value)) : Prop where
  sound : Meter.Sound (Gathers p seen) (Tells p seen) instances values
  explained : ∀ (r : Nat) a, values[r]? = some (some (.address a)) → Explained p seen instances r a
  matching : ∀ r, Matching p seen instances r

/-- From one state of an instance to another, choices and first addresses are as before. -/
structure Settles (s s' : Instance) : Prop where
  address : ∀ endpoint variant, s = .packetAddress endpoint variant → s' = s
  first : ∀ endpoint first, s = .firstAddress endpoint first → s' = s
  running : ∀ rule current, s = .running rule current → ∃ current', s' = .running rule current'

private theorem settles_value (v : Value) (positions : List Nat) (s : Instance) : Settles s (s.value v positions).1 := by
  constructor
  · rintro endpoint variant rfl
    rfl
  · rintro endpoint first rfl
    rfl
  · rintro rule current rfl
    exact ⟨_, rfl⟩

private theorem settles_stop (reason : EndReason) (s : Instance) : Settles s (s.stop reason).1 := by
  constructor
  · rintro endpoint variant rfl
    rfl
  · rintro endpoint first rfl
    rfl
  · rintro rule current rfl
    exact ⟨_, rfl⟩

private theorem Explained.set (explained : Explained p seen instances x a) (held : instances[r]? = some (some s))
    (settles : Settles s s') : Explained p seen (instances.set r (some s')) x a := by
  have inside := (List.getElem?_eq_some_iff.mp held).1
  cases explained with
  | packet entered => exact .packet entered
  | first found =>
    rename_i endpoint
    by_cases same : r = x
    · subst same
      cases held.symm.trans found
      rw [settles.first _ _ rfl]
      exact .first (List.getElem?_set_self inside)
    · exact .first ((List.getElem?_set_ne same).trans found)
  | kept found chosen =>
    rename_i rule current
    have still : UpToDate seen rule → ∀ q, p.args x = [.register q] → Chosen (instances.set r (some s')) q a :=
      fun upToDate q single => (chosen upToDate q single).set held settles.address
    by_cases same : r = x
    · subst same
      cases held.symm.trans found
      obtain ⟨current', rfl⟩ := settles.running _ _ rfl
      exact .kept (List.getElem?_set_self inside) still
    · exact .kept ((List.getElem?_set_ne same).trans found) still

variable {m : Meter Instance PacketFilter} {t : Turn Instance PacketFilter}

private theorem Closing.setInstance (closing : t.Shows (Closing p seen)) (held : t.record.instances[r]? = some (some s))
    (gathers : Gathers p seen r s') (settles : Settles s s')
    (own : ∀ rule a q, s' = .running rule (some (.address a)) → UpToDate seen rule → p.args r = [.register q] →
      Chosen t.record.instances q a) : (t.setInstance r s').Shows (Closing p seen) where
  sound := Meter.Sound.setInstance closing.sound gathers
  explained x a stored := (closing.explained x a stored).set held settles
  matching x := Matching.set held settles.address (fun _ => own) fun _ => closing.matching x

private theorem Closing.setValue {v : Option Value} (closing : t.Shows (Closing p seen)) (told : ∀ w, v = some w → Tells p seen r w)
    (given : ∀ a, v = some (.address a) → Explained p seen t.record.instances r a) :
    (t.setValue r v).Shows (Closing p seen) := by
  refine ⟨Meter.Sound.setValue closing.sound r told, fun x a stored => ?_, closing.matching⟩
  rcases Turn.value_cases_of_setValue stored with ⟨rfl, written⟩ | stored
  · exact given a written
  · exact closing.explained x a stored

variable (safe : m.Safe (Familiar seen) (Gathers m.program seen) (Tells m.program seen))
include safe

private theorem deliver_closing (now : Int64) (fuel r : Nat) {v : Value} {q : Nat} (reads : r ∈ m.program.dependents q)
    (tells : Tells m.program seen q v)
    (flow : ∀ a, v = .address a → ∃ other, m.program.EntryAt q other ∧ other.result = .flowFeature)
    (closing : t.Shows (Closing m.program seen)) :
    (m.deliver now none fuel r (.value v q) t).Shows (Closing m.program seen) := by
  induction fuel generalizing r v q t with
  | zero => exact closing
  | succ fuel ih =>
    rw [Meter.deliver]
    rcases t.idle_or_held r with idle | ⟨s, held⟩
    · rw [Meter.call_idle idle]
      exact closing
    · have gathers := closing.sound.1 r s held
      obtain ⟨entry, represents, serves⟩ := gathers.attended
      have answers := safe.value v q (m.context t now r) s reads tells ⟨rfl, closing.sound.2⟩ gathers
      rw [Meter.call_eq held]
      dsimp only
      have called : (t.setInstance r (s.value v ((m.context t now r).positions (.register q))).1).Shows
          (Closing m.program seen) := by
        refine Closing.setInstance closing held answers.holds (settles_value _ _ _) fun rule a q' after upToDate single => ?_
        obtain ⟨before, rfl, stepped⟩ := running_of_value after
        rcases step_address stepped with kept | given
        · rw [kept] at held
          exact closing.matching r rule a q' held upToDate single
        · obtain ⟨other, found, result⟩ := flow a given
          exact absurd result ((gathers.attended.fed (Program.mem_args_of_dependent reads)).2 other found)
      cases emitted : (Feature.event (.value v q) (m.context t now r) s).2.emission with
      | nothing => exact called
      | forward => exact called
      | value w =>
        cases w with
        | none => exact Closing.setValue called (by rintro _ ⟨⟩) (by rintro _ ⟨⟩)
        | some w =>
          have tells := answers.gives w emitted
          have other : ∀ a, w ≠ .address a := by
            rintro a rfl
            obtain ⟨endpoint, variant, packet, source, -, same, -⟩ := event_address represents serves emitted
            cases same
          refine Turn.shows_foldl (fun d reads t closing => ?_) (Closing.setValue called ?_ ?_)
          · exact ih d reads tells (fun a same => absurd same (other a)) closing
          · rintro w ⟨⟩
            exact tells
          · exact fun a same => absurd (Option.some.inj same) (other a)

private theorem stopOne_closing (reason : EndReason) (time : Int64) (r : Nat) (closing : t.Shows (Closing m.program seen)) :
    (m.stopOne reason time t r).Shows (Closing m.program seen) := by
  rw [Meter.stopOne]
  rcases t.idle_or_held r with idle | ⟨s, held⟩
  · rw [Meter.call_idle idle]
    exact closing
  · have gathers := closing.sound.1 r s held
    obtain ⟨entry, represents, serves⟩ := gathers.attended
    have answers := safe.stop reason (m.context t time r) s ⟨rfl, closing.sound.2⟩ gathers
    rw [Meter.call_eq held]
    dsimp only
    have called : (t.setInstance r (s.stop reason).1).Shows (Closing m.program seen) :=
      Closing.setInstance closing held answers.holds (settles_stop _ _) fun rule a q after =>
        by cases (running_of_stop after).1
    cases emitted : (Feature.stop reason (m.context t time r) s).2.emission with
    | nothing => exact called
    | forward => exact called
    | value v =>
      cases v with
      | none => exact Closing.setValue called (by rintro _ ⟨⟩) (by rintro _ ⟨⟩)
      | some v =>
        have tells := answers.gives v emitted
        have inside := (List.getElem?_eq_some_iff.mp held).1
        refine Turn.shows_foldl (fun d reads t closing => ?_) (Closing.setValue called ?_ ?_)
        · refine deliver_closing safe time _ d reads tells ?_ closing
          rintro a rfl
          exact ⟨entry, represents.found, result_of_stop_address represents serves emitted⟩
        · rintro w ⟨⟩
          exact tells
        · rintro a ⟨⟩
          rcases stop_address represents serves emitted with ⟨endpoint, rfl⟩ | ⟨rule, rfl⟩
          · exact .first (List.getElem?_set_self inside)
          · refine .kept (List.getElem?_set_self inside) fun upToDate q single => ?_
            exact (closing.matching r rule a q held upToDate single).set held (by rintro _ _ ⟨⟩)

end Stops

section Rounds

section Starts

variable {φ : Type} {m : Meter Instance φ}

private theorem startOne_started (now : Int64) (t : Turn Instance φ) (r : Nat) :
    (m.startOne now t r).record.values = t.record.values ∧
      (∀ q, q ≠ r → (m.startOne now t r).record.instances[q]? = t.record.instances[q]?) ∧
      ∀ s', (m.startOne now t r).record.instances[r]? = some (some s') → ∃ s, s' = Instance.start (m.context t now r) s := by
  rw [Meter.startOne]
  rcases t.idle_or_held r with idle | ⟨s, held⟩
  · rw [Meter.call_idle idle]
    exact ⟨rfl, fun _ _ => rfl, fun s' held => absurd held (idle s')⟩
  · rw [Meter.call_eq held]
    refine ⟨rfl, fun q other => List.getElem?_set_ne (Ne.symm other), fun s' found => ⟨s, ?_⟩⟩
    have placed : (t.record.instances.set r (some (s.start (m.context t now r))))[r]? = some (some s') := found
    rw [List.getElem?_set_self (List.getElem?_eq_some_iff.mp held).1] at placed
    exact (Option.some.inj (Option.some.inj placed)).symm

/-- All instances are started on the values that there are before the first one is. -/
theorem start_sweep (now : Int64) (t : Turn Instance φ) (count : Nat) :
    ((List.range count).foldl (m.startOne now) t).record.values = t.record.values ∧
      ∀ r < count, ∀ s', ((List.range count).foldl (m.startOne now) t).record.instances[r]? = some (some s') →
        ∃ c s, c.args = m.program.args r ∧ c.values = t.record.values ∧ s' = Instance.start c s := by
  induction count with
  | zero => exact ⟨rfl, nofun⟩
  | succ count ih =>
    rw [List.range_succ, List.foldl_append]
    obtain ⟨values, others, own⟩ := startOne_started (m := m) now ((List.range count).foldl (m.startOne now) t) count
    refine ⟨values.trans ih.1, fun r below s' found => ?_⟩
    by_cases same : r = count
    · subst same
      obtain ⟨s, started⟩ := own s' found
      exact ⟨_, s, rfl, ih.1, started⟩
    · exact ih.2 r (by omega) s' ((others r same).symm.trans found)

end Starts

variable {m : Meter Instance PacketFilter}

private theorem dispatch_flowing (safe : m.Safe (Familiar seen) (Gathers m.program seen) (Tells m.program seen))
    (ordered : m.program.Ordered) {packet : Packet} (familiar : Familiar seen packet) (r : Nat)
    {t : Turn Instance PacketFilter} (flowing : t.Shows (Flowing m.program seen [])) :
    (m.dispatch packet.time (some packet) r (.packet packet .flow) t).Shows (Flowing m.program seen []) := by
  refine deliver_flowing safe ordered packet.time ?_ _ r (by omega) (.packet .flow familiar) flowing.sound flowing.values
    fun x outside => .inr (flowing.matching x outside)
  rintro p ⟨⟩
  exact familiar

/-- Where addresses are in a record, round by round. -/
theorem addressRounds (safe : m.Safe (Familiar seen) (Gathers m.program seen) (Tells m.program seen))
    (ordered : m.program.Ordered)
    (plain : ∀ (r : Nat) node a, m.program.nodes[r]? = some node → node.constant ≠ some (.address a)) :
    m.Rounds (Familiar seen) (Meter.Sound (Gathers m.program seen) (Tells m.program seen)) (Flowing m.program seen [])
      (Closing m.program seen) where
  make := safe.rounds.make
  start now t shown := by
    have sound := safe.rounds.start now t (.inl (shown.elim id fun flowing => flowing.sound))
    obtain ⟨values, started⟩ := start_sweep (m := m) now
      { t.log (.segment now) with record := { t.record with values := m.program.nodes.map (·.constant) } } m.program.size
    refine ⟨sound, fun r a stored => ?_, fun r _ rule a q found => ?_⟩
    · have known : (m.program.nodes.map (·.constant))[r]? = some (some (.address a)) :=
        (congrArg (fun values => values[r]?) values).symm.trans stored
      rw [List.getElem?_map] at known
      obtain ⟨node, found, same⟩ := Option.map_eq_some_iff.mp known
      exact absurd same (plain r node a found)
    · obtain ⟨entry, represents, -⟩ := (sound.1 r _ found).attended
      obtain ⟨node, chosen, inside, -⟩ := represents.found
      obtain ⟨c, s, -, -, same⟩ := started r (List.getElem?_eq_some_iff.mp inside).1 _ found
      exact nomatch running_of_start same.symm
  control packet r t familiar _ flowing := dispatch_flowing safe ordered familiar r flowing
  deliver packet t familiar flowing := by
    refine Meter.shows_deliverPacket (fun r _ t => dispatch_flowing safe ordered familiar r) (fun r t flowing => ?_) flowing
    rw [Meter.finishEventOne]
    split
    next s held =>
      refine ⟨Meter.Sound.setInstance flowing.sound (safe.finishEvent r s (flowing.sound.1 r s held)), flowing.values, ?_⟩
      refine fun x outside => Matching.set held ?_ ?_ fun _ => flowing.matching x outside
      · rintro endpoint variant rfl
        rfl
      · rintro rfl rule a q after upToDate single
        rw [running_of_finishEvent after] at held
        exact flowing.matching x outside rule a q held upToDate single
    next => exact flowing
  finish reason time t flowing := by
    refine Turn.shows_foldl (fun r _ t closing => stopOne_closing safe reason time r closing) ?_
    refine ⟨flowing.sound, fun r a stored => ?_, fun r => flowing.matching r List.not_mem_nil⟩
    obtain ⟨endpoint, entered⟩ := flowing.values r a stored
    exact .packet entered
  rest _ _ closing := closing.sound

end Rounds

end Library

end FlowMetering
