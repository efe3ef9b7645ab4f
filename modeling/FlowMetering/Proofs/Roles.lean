import FlowMetering.Proofs.LiveTrees

/-! What an instance does when. A packet feature has values for packets, a selection hands packets on, and a feature of
whole flows is silent until the flow ends. -/

namespace FlowMetering.Library

/-- How a part of an expression is used. -/
inductive Role where
  | packet
  | selection
  | flow
  deriving DecidableEq

def Role.kind : Role → Kind
  | .packet => .packetFeature
  | .selection => .selection
  | .flow => .flowFeature

namespace Instance

/-- The role in which an instance works. Controls have none. -/
def role? : Instance → Option Role
  | .packetField _ | .packetAddress _ _ => some .packet
  | .operator _ kind _ _ => some (if kind = .packetFeature then .packet else .flow)
  | .direction _ | .predicate _ _ | .slice _ _ _ => some .selection
  | .tcpEnd _ _ => none
  | _ => some .flow

theorem role?_operator (op : Operator) (kind : Kind) (slots : List (Option Value)) (constant : List Bool) :
    (operator op kind slots constant).role? = some (if kind = .packetFeature then .packet else .flow) := rfl

@[simp] theorem role?_start (c : Context) (s : Instance) : (s.start c).role? = s.role? := by
  cases s <;> rfl

@[simp] theorem role?_packet (p : Packet) (s : Instance) : (s.packet p).1.role? = s.role? := by
  cases s <;> rfl

@[simp] theorem role?_value (v : Value) (positions : List Nat) (s : Instance) :
    (s.value v positions).1.role? = s.role? := by
  cases s with
  | mean sum count =>
    rw [value]
    cases v.asFloat <;> rfl
  | _ => rfl

@[simp] theorem role?_finishEvent (s : Instance) : s.finishEvent.role? = s.role? := by
  cases s <;> rfl

@[simp] theorem role?_stop (reason : EndReason) (s : Instance) : (s.stop reason).1.role? = s.role? := by
  cases s <;> rfl

@[simp] theorem role?_feed (p : Packet) (position : Nat) (es : List Emission) (got : Instance × Emission) :
    (feed p position es got).1.role? = got.1.role? := by
  induction es generalizing position got with
  | nil => rfl
  | cons e es ih =>
    rw [feed, ih]
    cases e with
    | nothing => rfl
    | forward => exact role?_packet p got.1
    | value v =>
      cases v with
      | none => rfl
      | some v => exact role?_value v _ got.1

@[simp] theorem role?_gather (position : Nat) (es : List Emission) (s : Instance) :
    (s.gather position es).role? = s.role? := by
  induction es generalizing position s with
  | nil => rfl
  | cons e es ih =>
    rw [gather, ih]
    cases e with
    | nothing | forward => rfl
    | value v =>
      cases v with
      | none => rfl
      | some v => exact role?_value v _ s

/-- What is answered to a packet or a value in some role. -/
def Allowed : Option Role → Emission → Prop
  | some .packet, e => e ≠ .forward
  | some .selection, e => e = .nothing ∨ e = .forward
  | some .flow, e => e = .nothing
  | none, e => e = .nothing

theorem allowed_nothing (role : Option Role) : Allowed role .nothing := by
  rcases role with _ | _ | _ | _
  · exact rfl
  · exact nofun
  · exact .inl rfl
  · exact rfl

theorem allowed_operator {op : Operator} {kind : Kind} {slots slots' : List (Option Value)} {constant : List Bool} :
    Allowed (operator op kind slots constant).role?
      (if kind = .packetFeature then op.reaction slots' else Reaction.silent).emission := by
  rw [role?_operator]
  by_cases packet : kind = .packetFeature
  · rw [if_pos packet, if_pos packet, Operator.reaction]
    split <;> exact nofun
  · rw [if_neg packet, if_neg packet]
    exact rfl

theorem allowed_selection {passes : Prop} [Decidable passes] :
    Allowed (some .selection) (if passes then Reaction.forward else Reaction.silent).emission := by
  by_cases passing : passes
  · rw [if_pos passing]
    exact .inr rfl
  · rw [if_neg passing]
    exact .inl rfl

theorem allowed_packet (p : Packet) (s : Instance) : Allowed s.role? (s.packet p).2.emission := by
  cases s with
  | packetField field | packetAddress endpoint variant => exact nofun
  | operator op kind slots constant => exact allowed_operator
  | direction forward => exact allowed_selection
  | predicate constant current => exact allowed_selection
  | slice start stop index => exact allowed_selection
  | tcpEnd finForward finBackward =>
    have silent : ((tcpEnd finForward finBackward).packet p).2.emission = .nothing := by
      rw [packet]
      dsimp only
      split <;> rfl
    rw [silent]
    exact rfl
  | _ => exact rfl

theorem allowed_value (v : Value) (positions : List Nat) (s : Instance) :
    Allowed s.role? (s.value v positions).2.emission := by
  cases s with
  | packetField field | packetAddress endpoint variant => exact nofun
  | operator op kind slots constant => exact allowed_operator
  | direction forward | predicate constant current | slice start stop index => exact .inl rfl
  | mean sum count =>
    rw [value]
    cases v.asFloat <;> exact rfl
  | _ => exact rfl

theorem allowed_feed (p : Packet) (position : Nat) (es : List Emission) (got : Instance × Emission)
    (allowed : Allowed got.1.role? got.2) : Allowed got.1.role? (feed p position es got).2 := by
  have step (position : Nat) (e : Emission) (got : Instance × Emission) (allowed : Allowed got.1.role? got.2) :
      Allowed (take p position e got).1.role? (take p position e got).2 := by
    cases e with
    | nothing => exact allowed
    | forward => exact (role?_packet p got.1).symm ▸ allowed_packet p got.1
    | value v =>
      cases v with
      | none => exact allowed
      | some v => exact (role?_value v [position] got.1).symm ▸ allowed_value v [position] got.1
  have run : Allowed (feed p position es got).1.role? (feed p position es got).2 := by
    induction es generalizing position got with
    | nil => exact allowed
      | cons e es ih => exact ih _ _ (step position e got allowed)
  rwa [role?_feed] at run

/-- Only features of whole flows have something to say when the flow ends. -/
theorem stop_silent (reason : EndReason) {s : Instance} (other : s.role? ≠ some .flow) :
    (s.stop reason).2.emission = .nothing := by
  cases s with
  | operator op kind slots constant =>
    rw [stop]
    by_cases packet : kind = .packetFeature
    · rw [if_pos packet]
      rfl
    · exact absurd (by rw [role?_operator, if_neg packet]) other
  | packetField | packetAddress | direction | predicate | slice | tcpEnd => rfl
  | _ => exact absurd rfl other

end Instance

namespace Live

/-- An expression that is used in a role. Only a selection can be the raw input, and it is no constant. -/
def HasRole (role : Role) : Live → Prop
  | .raw _ => role = .selection
  | .constant _ => role ≠ .selection
  | .call head _ => head.bind Instance.role? = some role

@[simp] theorem hasRole_next {role : Role} {live : Live} {p : Packet} :
    HasRole role (Live.next p live) ↔ HasRole role live := by
  cases live with
  | raw mark => exact Iff.rfl
  | constant value => exact Iff.rfl
  | call head args =>
    cases head with
    | none => exact Iff.rfl
    | some s =>
      rw [next_call]
      change (Instance.feed p 0 (args.map (emission p)) (s, .nothing)).1.finishEvent.role? = some role ↔ s.role? = some role
      rw [Instance.role?_finishEvent, Instance.role?_feed]

theorem HasRole.next {role : Role} {live : Live} (has : HasRole role live) (p : Packet) :
    HasRole role (Live.next p live) :=
  hasRole_next.mpr has

private theorem HasRole.allowed {role : Role} {s : Instance} {args : List Live} (has : HasRole role (.call (some s) args))
    (p : Packet) : Instance.Allowed (some role) (emission p (.call (some s) args)) := by
  have held : s.role? = some role := has
  rw [emission_call, ← held]
  exact Instance.allowed_feed p 0 (args.map (emission p)) (s, .nothing) (Instance.allowed_nothing s.role?)

theorem HasRole.emission_flow {live : Live} (has : HasRole .flow live) (p : Packet) : emission p live = .nothing := by
  cases live with
  | raw mark => cases has
  | constant value => rfl
  | call head args =>
    cases head with
    | none => cases has
    | some s => exact has.allowed p

theorem HasRole.emission_packet {live : Live} (has : HasRole .packet live) (p : Packet) :
    emission p live ≠ .forward := by
  cases live with
  | raw mark => cases has
  | constant value => exact nofun
  | call head args =>
    cases head with
    | none => cases has
    | some s => exact has.allowed p

theorem HasRole.emission_selection {live : Live} (has : HasRole .selection live) (p : Packet) :
    emission p live = .nothing ∨ emission p live = .forward := by
  cases live with
  | raw mark => exact .inr rfl
  | constant value => exact absurd rfl has
  | call head args =>
    cases head with
    | none => cases has
    | some s => exact has.allowed p

theorem HasRole.close_silent {role : Role} {live : Live} (has : HasRole role live) (other : role ≠ .flow)
    (reason : EndReason) : close reason live = .nothing := by
  cases live with
  | raw mark => rfl
  | constant value => rfl
  | call head args =>
    cases head with
    | none => cases has
    | some s =>
      have held : s.role? = some role := has
      rw [close_call]
      refine Instance.stop_silent reason ?_
      rw [Instance.role?_gather, held]
      exact fun same => other (Option.some.inj same)

end Live

end FlowMetering.Library
