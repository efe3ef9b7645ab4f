import FlowMetering.Catalog
import FlowMetering.Library.Instance

/-!
The built-in catalog.
-/

namespace FlowMetering.Library

/-- A feature of raw packets with one registered element. -/
def packetEntry (field : PacketField) : Entry Instance where
  name := field.element.name
  result := .packetFeature
  arguments := [.rawPacket]
  output := .fixed field.element
  build := some fun _ => .packetField field
  implicitInput := false

def packetAddressEntry (endpoint : Endpoint) : Entry Instance where
  name := endpoint.name
  result := .packetFeature
  arguments := [.rawPacket]
  output := .variants endpoint.elements
  build := some fun _ => .packetAddress endpoint 0
  implicitInput := false

/-- A feature of whole flows with one registered element. -/
def flowEntry (element : Element) (initial : Instance) : Entry Instance where
  name := element.name
  result := .flowFeature
  arguments := [.rawFlow]
  output := .fixed element
  build := some fun _ => initial
  implicitInput := false

def flowAddressEntry (endpoint : Endpoint) : Entry Instance where
  name := endpoint.name
  result := .flowFeature
  arguments := [.rawFlow]
  output := .variants endpoint.elements
  build := some fun _ => .firstAddress endpoint none
  implicitInput := false

/-- A feature that gathers the values of a packet feature over the flow. -/
def aggregateEntry (name : String) (output : Output) (initial : Instance) : Entry Instance where
  name := name
  result := .flowFeature
  arguments := [.packetFeature]
  output := output
  build := some fun _ => initial
  implicitInput := false

/-- An operator works on packet features and on flow features, as the context asks. -/
def operatorEntry (op : Operator) : Entry Instance where
  name := op.name
  result := .matchType
  arguments := if op.isVariadic then [.matchType, .matchType, .ellipsis] else [.matchType, .matchType]
  output := .resolved op.resolve
  build := some fun kind => .operator op kind [] []
  implicitInput := false

def selectionEntry (name : String) (arguments : List Kind) (implicitInput : Bool) (initial : Instance) :
    Entry Instance where
  name := name
  result := .selection
  arguments := arguments
  output := .untyped
  build := some fun _ => initial
  implicitInput := implicitInput

/-- An entry that puts a selection in the place of the raw input of a feature. -/
def substitutionEntry (name : String) (kind : Kind) : Entry Instance where
  name := name
  result := kind
  arguments := [kind, .selection]
  output := .untyped
  build := none
  implicitInput := false

def controlEntry (name : String) (initial : Instance) : Entry Instance where
  name := name
  result := .control
  arguments := [.rawPacket]
  output := .untyped
  build := some fun _ => initial
  implicitInput := false

def entries : List (Entry Instance) :=
  [packetEntry .ipTotalLength, packetEntry .octetTotalCount, packetEntry .sourceTransportPort,
   packetEntry .destinationTransportPort, packetEntry .protocolIdentifier, packetEntry .tcpControlBits,
   packetEntry .flowDirection, packetAddressEntry .source, packetAddressEntry .destination,
   flowEntry (.registered "octetTotalCount" 85 .unsigned64) (.octetCount 0),
   flowEntry (.registered "packetTotalCount" 86 .unsigned64) (.packetCount 0),
   flowEntry (.registered "flowStartNanoseconds" 156 .dateTimeNanoseconds) (.flowTime .start none 0),
   flowEntry (.registered "flowEndNanoseconds" 157 .dateTimeNanoseconds) (.flowTime .end none 0),
   flowEntry (.registered "flowDurationMilliseconds" 161 .unsigned64) (.flowTime .duration none 0),
   flowEntry (.registered "flowEndReason" 136 .unsigned8) .endReason,
   flowAddressEntry .source, flowAddressEntry .destination,
   flowEntry (.registered "protocolIdentifier" 4 .unsigned8) (.firstProtocol none)]
  ++ ([.min, .max, .first, .last, .sum].map fun (a : Aggregate) =>
    aggregateEntry a.name (.resolved a.resolve) (.running a none))
  ++ [aggregateEntry "mean" (.resolved meanType) (.mean 0.0 0),
    aggregateEntry "count" (.fixed (.unregistered "count" .unsigned64)) (.valueCount 0)]
  ++ ([.add, .multiply, .subtract, .divide, .less, .greater, .equal].map operatorEntry)
  ++ [selectionEntry "forward" [.rawPacket] false (.direction true),
    selectionEntry "backward" [.rawPacket] false (.direction false),
    selectionEntry "select" [.packetFeature] true (.predicate none none),
    selectionEntry "select_slice" [.constant] true (.slice 0 none 0),
    selectionEntry "select_slice" [.constant, .constant] true (.slice 0 none 0),
    substitutionEntry "apply" .flowFeature, substitutionEntry "map" .packetFeature,
    controlEntry "_tcpEnd" (.tcpEnd false false)]

/-- The definition of a composite that is a call of names on names. -/
def callOf (names : List String) : Json :=
  .array (names.map .string)

def composites : List Composite :=
  [⟨"minimumIpTotalLength", callOf ["min", "ipTotalLength"],
      some (.registered "minimumIpTotalLength" 25 .unsigned64)⟩,
   ⟨"maximumIpTotalLength", callOf ["max", "ipTotalLength"],
      some (.registered "maximumIpTotalLength" 26 .unsigned64)⟩,
   ⟨"meanIpTotalLength", callOf ["mean", "ipTotalLength"], none⟩,
   ⟨"forwardOctetCount", callOf ["apply", "octetTotalCount", "forward"], none⟩,
   ⟨"backwardOctetCount", callOf ["apply", "octetTotalCount", "backward"], none⟩]

def filters : List (String × PacketFilter) :=
  [("tcp", .protocol Packet.tcp), ("udp", .protocol Packet.udp), ("ipv4", .addressFamily 0), ("ipv6", .addressFamily 1)]

def catalog : Catalog Instance PacketFilter :=
  ⟨entries, composites, filters⟩

end FlowMetering.Library
