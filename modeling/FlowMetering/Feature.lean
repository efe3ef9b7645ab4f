import FlowMetering.EndReason
import FlowMetering.Packet
import FlowMetering.Program

/-!
Features at run time. A record holds one instance for each register and calls it at the start of a segment, for
each input, at the end of each packet, and at the end of the segment. An instance answers with what it emits
and with signals to the record; the record passes values on after the call has returned.
-/

namespace FlowMetering

/-- Where an input comes from: the flow itself or a register. -/
inductive Source where
  | flow
  | register (r : Nat)
  deriving DecidableEq, Repr

/-- A packet, from the flow or let through by a selection, or the value that a register has emitted. -/
inductive Input where
  | packet (p : Packet) (source : Source)
  | value (v : Value) (source : Nat)

def Input.source : Input → Source
  | .packet _ source => source
  | .value _ r => .register r

/-- What an instance can see of its record. `last` is the time of the packet before the present one. -/
structure Context where
  register : Nat
  args : List Argument
  values : List (Option Value)
  now : Int64
  last : Int64

namespace Context

/-- The value that an argument has at present. -/
def argument (c : Context) (i : Nat) : Option Value :=
  match c.args[i]? with
  | some (.register r) => (c.values[r]?).join
  | _ => none

/-- The argument positions that a source feeds. -/
def positions (c : Context) (source : Source) : List Nat :=
  (List.range c.args.length).filter fun i =>
    match source, c.args[i]? with
    | .flow, some .raw => true
    | .register s, some (.register r) => s == r
    | _, _ => false

end Context

/-- What an instance asks of its record. -/
inductive Signal where
  | stop (reason : EndReason)
  | export (reason : EndReason) (time : Int64)
  | restart
  deriving DecidableEq, Repr

/-- What an instance hands on: nothing, a value (or that there is none), or the packet it was given. -/
inductive Emission where
  | nothing
  | value (v : Option Value)
  | forward

/-- The answer to a call: one emission, the signals in the order raised, and remarks for whoever watches. -/
structure Reaction where
  emission : Emission
  signals : List Signal
  remarks : List String

namespace Reaction

def silent : Reaction := ⟨.nothing, [], []⟩

def emit (v : Option Value) : Reaction := ⟨.value v, [], []⟩

def forward : Reaction := ⟨.forward, [], []⟩

end Reaction

/-- The behaviour of feature instances with states of type `σ`. -/
class Feature (σ : Type) where
  start : Context → σ → σ × Reaction
  event : Input → Context → σ → σ × Reaction
  finishEvent : σ → σ × List String
  stop : EndReason → Context → σ → σ × Reaction
  variant : σ → Nat

/-- The behaviour of filters with states of type `φ`. -/
class Filter (φ : Type) where
  start : φ → φ × List String
  accepts : Packet → φ → Bool × φ × List String
  stop : φ → φ × List String

/-- Features of two sorts side by side. -/
instance {α β : Type} [Feature α] [Feature β] : Feature (α ⊕ β) where
  start c
    | .inl a => (Feature.start c a).map .inl id
    | .inr b => (Feature.start c b).map .inr id
  event input c
    | .inl a => (Feature.event input c a).map .inl id
    | .inr b => (Feature.event input c b).map .inr id
  finishEvent
    | .inl a => (Feature.finishEvent a).map .inl id
    | .inr b => (Feature.finishEvent b).map .inr id
  stop reason c
    | .inl a => (Feature.stop reason c a).map .inl id
    | .inr b => (Feature.stop reason c b).map .inr id
  variant
    | .inl a => Feature.variant a
    | .inr b => Feature.variant b

/-- Filters of two sorts side by side. -/
instance {α β : Type} [Filter α] [Filter β] : Filter (α ⊕ β) where
  start
    | .inl a => (Filter.start a).map .inl id
    | .inr b => (Filter.start b).map .inr id
  accepts p
    | .inl a => (Filter.accepts p a).map id (·.map .inl id)
    | .inr b => (Filter.accepts p b).map id (·.map .inr id)
  stop
    | .inl a => (Filter.stop a).map .inl id
    | .inr b => (Filter.stop b).map .inr id

end FlowMetering
