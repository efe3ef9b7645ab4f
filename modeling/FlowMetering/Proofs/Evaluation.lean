import FlowMetering.EndReason
import FlowMetering.Expression
import FlowMetering.Library.Catalog

/-! The values of features, computed on their expressions. There are no registers and nothing is shared: a feature
maps the packets that come in to a value for each packet, to the packets that go on, or to one value for the flow. -/

namespace FlowMetering.Library

/-- The packets of a flow as some part of an expression sees them: each is let through or not. -/
abbrev Stream := List (Option Packet)

/-- What the features of raw packets read. -/
def packetSource? (name : String) : Option (Packet → Option Value) :=
  match name with
  | "ipTotalLength" => some PacketField.ipTotalLength.extract
  | "octetTotalCount" => some PacketField.octetTotalCount.extract
  | "sourceTransportPort" => some PacketField.sourceTransportPort.extract
  | "destinationTransportPort" => some PacketField.destinationTransportPort.extract
  | "protocolIdentifier" => some PacketField.protocolIdentifier.extract
  | "tcpControlBits" => some PacketField.tcpControlBits.extract
  | "flowDirection" => some PacketField.flowDirection.extract
  | "sourceIPAddress" => some fun p => p.source.map .address
  | "destinationIPAddress" => some fun p => p.destination.map .address
  | _ => none

def octets (packets : List Packet) : UInt64 :=
  packets.foldl (fun total p => (p.length.map fun n => saturatingAdd total n.toUInt64).getD total) 0

/-- A time of some packets: that of the first, that of the last, or the time between them. -/
def timeOf (timing : Timing) (packets : List Packet) : Option Value :=
  timing.value (packets.head?.map Packet.time) ((packets.getLast?.map Packet.time).getD 0)

/-- What the features of whole flows give for the packets that come in. -/
def flowSource? (name : String) : Option (EndReason → List Packet → Option Value) :=
  match name with
  | "octetTotalCount" => some fun _ packets => some (.unsigned (octets packets))
  | "packetTotalCount" => some fun _ packets => some (.unsigned packets.length.toUInt64)
  | "flowStartNanoseconds" => some fun _ => timeOf .start
  | "flowEndNanoseconds" => some fun _ => timeOf .end
  | "flowDurationMilliseconds" => some fun _ => timeOf .duration
  | "flowEndReason" => some fun reason _ => some (.unsigned reason.code.toUInt64)
  | "sourceIPAddress" => some fun _ packets => (packets.findSome? Packet.source).map .address
  | "destinationIPAddress" => some fun _ packets => (packets.findSome? Packet.destination).map .address
  | "protocolIdentifier" => some fun _ packets =>
    (packets.findSome? Packet.protocol).map fun n => .unsigned n.toUInt64
  | _ => none

def meanOf (values : List Value) : Option Value :=
  let numbers := values.filterMap Value.asFloat
  if numbers.length.toUInt64 = 0 then none
  else some (.float (numbers.foldl (· + ·) 0.0 / numbers.length.toUInt64.toFloat))

/-- What aggregates make of the values of a packet feature. -/
def aggregate? (name : String) : Option (List Value → Option Value) :=
  match name with
  | "min" => some fun values => values.foldl Aggregate.min.step none
  | "max" => some fun values => values.foldl Aggregate.max.step none
  | "first" => some fun values => values.foldl Aggregate.first.step none
  | "last" => some fun values => values.foldl Aggregate.last.step none
  | "sum" => some fun values => values.foldl Aggregate.sum.step none
  | "mean" => some meanOf
  | "count" => some fun values => some (.unsigned values.length.toUInt64)
  | _ => none

def operator? (name : String) : Option Operator :=
  match name with
  | "add" => some .add
  | "subtract" => some .subtract
  | "multiply" => some .multiply
  | "divide" => some .divide
  | "less" => some .less
  | "greater" => some .greater
  | "equal" => some .equal
  | _ => none

/-- Lets the packets from number `start` up to `stop` through, the first one being number `next`. -/
def slice (start : Nat) (stop : Option Nat) : Nat → Stream → Stream
  | _, [] => []
  | next, none :: stream => none :: slice start stop next stream
  | next, some p :: stream =>
    (if start ≤ next && stop.all (next < ·) then some p else none) :: slice start stop (next + 1) stream

/-- What an expression stands for: the constant that it is, if it is one, its values on the packets that come in,
the packets that it lets through, and its value for the flow. -/
structure Meaning where
  constant : Option Value
  values : Stream → List (Option Value)
  passed : Stream → Stream
  result : EndReason → Stream → Option Value

namespace Meaning

def raw : Meaning where
  constant := none
  values stream := stream.map fun _ => none
  passed stream := stream
  result _ _ := none

/-- A constant has no value on any packet, but it can be read. -/
def ofConstant (value : Value) : Meaning where
  constant := some value
  values stream := stream.map fun _ => none
  passed _ := []
  result _ _ := some value

/-- What an operator or a predicate reads on each packet. -/
def readings (meaning : Meaning) (stream : Stream) : List (Option Value) :=
  match meaning.constant with
  | some value => stream.map fun _ => some value
  | none => meaning.values stream

/-- Folds an operation over the readings of each of so many packets; no result where one is missing. -/
def operate (op : Operator) : Nat → List (List (Option Value)) → List (Option Value)
  | 0, _ => []
  | count + 1, columns =>
    op.evaluate (columns.map fun column => column.head?.join) :: operate op count (columns.map List.tail)

/-- The place of a constant among packets. -/
def place? (meaning : Meaning) : Option Int :=
  meaning.constant.bind index?

def callValues (name : String) (args : List Meaning) (stream : Stream) : List (Option Value) :=
  match operator? name with
  | some op => operate op stream.length (args.map fun arg => arg.readings stream)
  | none =>
    match name, args with
    | "map", [feature, selection] => feature.values (selection.passed stream)
    | name, _ =>
      match packetSource? name with
      | some read => stream.map fun packet => packet.bind read
      | none => stream.map fun _ => none

def callPassed (name : String) (args : List Meaning) (stream : Stream) : Stream :=
  match name, args with
  | "forward", _ => stream.map fun packet => packet.filter fun p => p.forward
  | "backward", _ => stream.map fun packet => packet.filter fun p => !p.forward
  | "select", [condition] =>
    List.zipWith (fun packet reading => if reading.any Value.isTruthy then packet else none) stream
      (condition.readings stream)
  | "select_slice", [start] => slice (start.place?.getD 0).toNat none 0 stream
  | "select_slice", [start, stop] =>
    slice (start.place?.getD 0).toNat ((stop.place?.filter (0 ≤ ·)).map Int.toNat) 0 stream
  | _, _ => []

def callResult (name : String) (args : List Meaning) (reason : EndReason) (stream : Stream) : Option Value :=
  match operator? name with
  | some op => op.evaluate (args.map fun arg => arg.result reason stream)
  | none =>
    match name, args with
    | "apply", [feature, selection] => feature.result reason (selection.passed stream)
    | name, args =>
      match aggregate? name, args with
      | some gather, [arg] => gather (arg.values stream).reduceOption
      | _, _ => (flowSource? name).bind fun gather => gather reason stream.reduceOption

/-- The meaning of a call. A selection that is put in front of a constant leaves the constant. -/
def call (name : String) (args : List Meaning) : Meaning where
  constant :=
    match name, args with
    | "map", [feature, _] | "apply", [feature, _] => feature.constant
    | _, _ => none
  values := callValues name args
  passed := callPassed name args
  result := callResult name args

mutual
def ofExpression : Expression → Meaning
  | .raw _ => raw
  | .constant value => ofConstant value
  | .call name args => call name (ofExpressions args)
termination_by structural e => e

def ofExpressions : List Expression → List Meaning
  | [] => []
  | arg :: args => ofExpression arg :: ofExpressions args
termination_by structural args => args
end

end Meaning

def definition? (name : String) : Option Expression :=
  (catalog.composite? name).bind fun composite => (Expression.ofJson composite.definition).toOption

mutual
/-- The expression with definitions in the place of composites. -/
def unfolded : Expression → Expression
  | .raw mark => .raw mark
  | .constant value => .constant value
  | .call name args => (definition? name).getD (.call name (unfoldedAll args))
termination_by structural e => e

def unfoldedAll : List Expression → List Expression
  | [] => []
  | arg :: args => unfolded arg :: unfoldedAll args
termination_by structural args => args
end

/-- The value of a feature for a flow of packets that ends for some reason. -/
def evaluate (e : Expression) (reason : EndReason) (packets : List Packet) : Option Value :=
  (Meaning.ofExpression (unfolded e)).result reason (packets.map some)

end FlowMetering.Library
