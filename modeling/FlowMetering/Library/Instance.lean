import FlowMetering.Feature
import FlowMetering.Library.Aggregates
import FlowMetering.Library.Fields

/-!
The instances of the built-in features. A packet feature emits at each packet, a flow feature once, when the
segment ends; selections let packets through; controls raise signals.
-/

namespace FlowMetering.Library

/-- Which time of a flow is exported. -/
inductive Timing where
  | start
  | end
  | duration
  deriving DecidableEq, Repr

/-- The state of an instance. The position of a slice is a number without a bound, where the other counts are words of 64 bits:
the two differ only after 2^64 packets of one segment. -/
inductive Instance where
  | packetField (field : PacketField)
  | packetAddress (endpoint : Endpoint) (variant : Nat)
  | octetCount (total : UInt64)
  | packetCount (count : UInt64)
  | flowTime (timing : Timing) (first : Option Int64) (last : Int64)
  | endReason
  | firstAddress (endpoint : Endpoint) (first : Option Address)
  | firstProtocol (first : Option UInt8)
  | running (rule : Aggregate) (current : Option Value)
  | mean (sum : Float) (count : UInt64)
  | valueCount (count : UInt64)
  | operator (op : Operator) (kind : Kind) (slots : List (Option Value)) (constant : List Bool)
  | direction (forward : Bool)
  | predicate (constant current : Option Bool)
  | slice (start : Nat) (stop : Option Nat) (index : Nat)
  | tcpEnd (finForward finBackward : Bool)

/-- A sum that stays at the largest number it cannot exceed. -/
def saturatingAdd (a b : UInt64) : UInt64 :=
  (min (a.toNat + b.toNat) Word.maxUnsigned).toUInt64

/-- Full milliseconds from one time to another, none if it lies before. A distance beyond the signed range
counts as the end of that range. -/
def milliseconds (first last : Int64) : UInt64 :=
  let distance := min (last.toInt - first.toInt) Int64.maxValue.toInt
  (distance.toNat / 1000000).toUInt64

/-- The value of a flow's time, if it has had a packet. -/
def Timing.value (timing : Timing) (first : Option Int64) (last : Int64) : Option Value :=
  first.map fun first =>
    match timing with
    | .start => .signed first
    | .end => .signed last
    | .duration => .unsigned (milliseconds first last)

/-- A constant as an index of packets; one that is no number is none. -/
def index? (v : Value) : Option Int :=
  match v.asInt64 with
  | some n => some n.toInt
  | none => v.asFloat.map fun x => x.toInt64.toInt

/-- Puts a value at some positions. -/
def fill (slots : List (Option Value)) (positions : List Nat) (v : Value) : List (Option Value) :=
  positions.foldl (fun slots i => slots.set i (some v)) slots

/-- Clears the slots that do not hold constants. -/
def clear (slots : List (Option Value)) (constant : List Bool) : List (Option Value) :=
  slots.zipWith (fun slot constant => if constant then slot else none) constant

/-- What an operator emits when its slots may have filled up. -/
def Operator.reaction (op : Operator) (slots : List (Option Value)) : Reaction :=
  if slots.all Option.isSome then .emit (op.evaluate slots) else .silent

namespace Instance

/-- Prepares for a segment. Constant arguments already have their values. -/
def start (c : Context) : Instance → Instance
  | .packetField field => .packetField field
  | .packetAddress endpoint _ => .packetAddress endpoint 0
  | .octetCount _ => .octetCount 0
  | .packetCount _ => .packetCount 0
  | .flowTime timing _ _ => .flowTime timing none 0
  | .endReason => .endReason
  | .firstAddress endpoint _ => .firstAddress endpoint none
  | .firstProtocol _ => .firstProtocol none
  | .running rule _ => .running rule none
  | .mean _ _ => .mean 0.0 0
  | .valueCount _ => .valueCount 0
  | .operator op kind _ _ =>
    let slots := (List.range c.args.length).map c.argument
    .operator op kind slots (slots.map Option.isSome)
  | .direction forward => .direction forward
  | .predicate _ _ => .predicate ((c.argument 0).map Value.isTruthy) none
  | .slice _ _ _ =>
    let start := ((c.argument 0).bind index?).getD 0
    let stop := (c.argument 1).bind index?
    .slice start.toNat ((stop.filter (0 ≤ ·)).map Int.toNat) 0
  | .tcpEnd _ _ => .tcpEnd false false

/-- Takes a packet. -/
def packet (p : Packet) : Instance → Instance × Reaction
  | .packetField field => (.packetField field, .emit (field.extract p))
  | .packetAddress endpoint variant =>
    let address := endpoint.address p
    (.packetAddress endpoint ((address.map family).getD variant), .emit (address.map .address))
  | .octetCount total =>
    (.octetCount (match p.length with
      | some n => saturatingAdd total n.toUInt64
      | none => total), .silent)
  | .packetCount count => (.packetCount (count + 1), .silent)
  | .flowTime timing first _ => (.flowTime timing (some (first.getD p.time)) p.time, .silent)
  | .firstAddress endpoint first => (.firstAddress endpoint (first.or (endpoint.address p)), .silent)
  | .firstProtocol first => (.firstProtocol (first.or p.protocol), .silent)
  | .operator op kind slots constant =>
    (.operator op kind slots constant, if kind = .packetFeature then op.reaction slots else .silent)
  | .direction forward => (.direction forward, if p.forward = forward then .forward else .silent)
  | .predicate constant current =>
    (.predicate constant current, if current.or constant = some true then .forward else .silent)
  | .slice start stop index =>
    let inside := start ≤ index && stop.all (index < ·)
    (.slice start stop (index + 1), if inside then .forward else .silent)
  | .tcpEnd finForward finBackward =>
    let fin := p.hasFlag Packet.fin
    let ends := p.hasFlag Packet.rst || (finForward && finBackward && p.hasFlag Packet.ack)
    (.tcpEnd (finForward || fin && p.forward) (finBackward || fin && !p.forward),
      if ends then ⟨.nothing, [.export .endOfFlowDetected p.time], []⟩ else .silent)
  | other => (other, .silent)

/-- Takes the value of an argument. -/
def value (v : Value) (positions : List Nat) : Instance → Instance × Reaction
  | .running rule current => (.running rule (rule.step current v), .silent)
  | .mean sum count =>
    match v.asFloat with
    | some x => (.mean (sum + x) (count + 1), .silent)
    | none => (.mean sum count, .silent)
  | .valueCount count => (.valueCount (count + 1), .silent)
  | .operator op kind slots constant =>
    let slots := fill slots positions v
    (.operator op kind slots constant, if kind = .packetFeature then op.reaction slots else .silent)
  | .predicate constant _ => (.predicate constant (some v.isTruthy), .silent)
  | other => (other, .silent)

def event (input : Input) (c : Context) (s : Instance) : Instance × Reaction :=
  match input with
  | .packet p _ => s.packet p
  | .value v source => s.value v (c.positions (.register source))

/-- Forgets what was gathered for one packet. -/
def finishEvent : Instance → Instance
  | .operator op kind slots constant =>
    .operator op kind (if kind = .packetFeature then clear slots constant else slots) constant
  | .predicate constant _ => .predicate constant none
  | other => other

/-- Gives the result of a segment. -/
def stop (reason : EndReason) : Instance → Instance × Reaction
  | .octetCount total => (.octetCount total, .emit (some (.unsigned total)))
  | .packetCount count => (.packetCount count, .emit (some (.unsigned count)))
  | .flowTime timing first last => (.flowTime timing first last, .emit (timing.value first last))
  | .endReason => (.endReason, .emit (some (.unsigned reason.code.toUInt64)))
  | .firstAddress endpoint first => (.firstAddress endpoint first, .emit (first.map .address))
  | .firstProtocol first => (.firstProtocol first, .emit (first.map fun n => .unsigned n.toUInt64))
  | .running rule current => (.running rule none, .emit current)
  | .mean sum count =>
    (.mean sum count, .emit (if count = 0 then none else some (.float (sum / count.toFloat))))
  | .valueCount count => (.valueCount count, .emit (some (.unsigned count)))
  | .operator op kind slots constant =>
    (.operator op kind slots constant, if kind = .packetFeature then .silent else op.reaction slots)
  | other => (other, .silent)

/-- The family of the address that is exported. -/
def variant : Instance → Nat
  | .packetAddress _ variant => variant
  | .firstAddress _ first => (first.map family).getD 0
  | _ => 0

end Instance

instance : Feature Instance where
  start c s := (s.start c, .silent)
  event := Instance.event
  finishEvent s := (s.finishEvent, [])
  stop reason _ s := s.stop reason
  variant := Instance.variant

/-- The built-in filters: a transport protocol, or a family of source addresses. -/
inductive PacketFilter where
  | protocol (number : UInt8)
  | addressFamily (variant : Nat)
  deriving DecidableEq, Repr

def PacketFilter.accepts (p : Packet) : PacketFilter → Bool
  | .protocol number => p.protocol == some number
  | .addressFamily variant => p.source.map family == some variant

instance : Filter PacketFilter where
  start f := (f, [])
  accepts p f := (f.accepts p, f, [])
  stop f := (f, [])

end FlowMetering.Library
