import FlowMetering.Element
import FlowMetering.Packet
import FlowMetering.Value

/-!
Packet fields and addresses that features read, with their registered elements.
-/

namespace FlowMetering.Library

/-- A field of a packet. The length of a packet is exported under two names. -/
inductive PacketField where
  | ipTotalLength
  | octetTotalCount
  | sourceTransportPort
  | destinationTransportPort
  | protocolIdentifier
  | tcpControlBits
  | flowDirection
  deriving DecidableEq, Repr

namespace PacketField

/-- The field of a packet, if the packet has it. The direction is 0 for forward packets and 1 for others. -/
def extract : PacketField → Packet → Option Value
  | .ipTotalLength, p => p.length.map fun n => .unsigned n.toUInt64
  | .octetTotalCount, p => p.length.map fun n => .unsigned n.toUInt64
  | .sourceTransportPort, p => p.sourcePort.map fun n => .unsigned n.toUInt64
  | .destinationTransportPort, p => p.destinationPort.map fun n => .unsigned n.toUInt64
  | .protocolIdentifier, p => p.protocol.map fun n => .unsigned n.toUInt64
  | .tcpControlBits, p => p.tcpFlags.map fun n => .unsigned n.toUInt64
  | .flowDirection, p => some (.unsigned (if p.forward then 0 else 1))

def element : PacketField → Element
  | .ipTotalLength => .registered "ipTotalLength" 224 .unsigned16
  | .octetTotalCount => .registered "octetTotalCount" 85 .unsigned64
  | .sourceTransportPort => .registered "sourceTransportPort" 7 .unsigned16
  | .destinationTransportPort => .registered "destinationTransportPort" 11 .unsigned16
  | .protocolIdentifier => .registered "protocolIdentifier" 4 .unsigned8
  | .tcpControlBits => .registered "tcpControlBits" 6 .unsigned16
  | .flowDirection => .registered "flowDirection" 61 .unsigned8

end PacketField

/-- One of the two ends of a flow. -/
inductive Endpoint where
  | source
  | destination
  deriving DecidableEq, Repr

namespace Endpoint

def address : Endpoint → Packet → Option Address
  | .source, p => p.source
  | .destination, p => p.destination

def name : Endpoint → String
  | .source => "sourceIPAddress"
  | .destination => "destinationIPAddress"

/-- The elements of the older and the newer family. -/
def elements : Endpoint → List Element
  | .source =>
    [.registered "sourceIPv4Address" 8 .ipv4Address, .registered "sourceIPv6Address" 27 .ipv6Address]
  | .destination =>
    [.registered "destinationIPv4Address" 12 .ipv4Address,
     .registered "destinationIPv6Address" 28 .ipv6Address]

end Endpoint

/-- The variant that stands for the family of an address. -/
def family : Address → Nat
  | .v4 _ => 0
  | .v6 _ => 1

end FlowMetering.Library
