import FlowMetering.Address

/-!
Packets as the meter sees them: decoded fields, some of which a packet may lack.
-/

namespace FlowMetering

/-- A packet of a flow. The time is in nanoseconds; `forward` tells whether it runs in the direction of the
first packet of the flow. -/
structure Packet where
  time : Int64
  forward : Bool
  length : Option UInt16
  protocol : Option UInt8
  source : Option Address
  destination : Option Address
  sourcePort : Option UInt16
  destinationPort : Option UInt16
  tcpFlags : Option UInt16

namespace Packet

def tcp : UInt8 := 6

def udp : UInt8 := 17

def fin : UInt16 := 0x01

def syn : UInt16 := 0x02

def rst : UInt16 := 0x04

def ack : UInt16 := 0x10

/-- A forward packet of which only the time and the length are known. -/
def ofLength (time : Int64) (length : UInt16) : Packet :=
  ⟨time, true, some length, none, none, none, none, none, none⟩

def backward (p : Packet) : Packet :=
  { p with forward := false }

def withAddresses (p : Packet) (source destination : Address) : Packet :=
  { p with source := some source, destination := some destination }

def withTcp (p : Packet) (sourcePort destinationPort flags : UInt16) : Packet :=
  { p with
    protocol := some tcp, sourcePort := some sourcePort, destinationPort := some destinationPort,
    tcpFlags := some flags }

/-- A datagram has no flags. -/
def withUdp (p : Packet) (sourcePort destinationPort : UInt16) : Packet :=
  { p with
    protocol := some udp, sourcePort := some sourcePort, destinationPort := some destinationPort,
    tcpFlags := none }

/-- Whether a flag is set; a packet without flags has none set. -/
def hasFlag (p : Packet) (flag : UInt16) : Bool :=
  (p.tcpFlags.getD 0) &&& flag != 0

end Packet

end FlowMetering
