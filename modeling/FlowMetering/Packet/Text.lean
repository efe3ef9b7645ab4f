import FlowMetering.Json.Record
import FlowMetering.Packet

/-!
Packets in JSON.
-/

namespace FlowMetering.Packet

open Json (Document)

def fieldNames : List String :=
  ["timestamp", "forward", "ip_total_length", "protocol", "source_address", "destination_address",
   "source_port", "destination_port", "tcp_flags"]

/-- A count or null. -/
def countJson (n : Option Nat) : Json :=
  match n with
  | some n => .number (.natural n.toUInt64)
  | none => .null

def addressJson (a : Option Address) : Json :=
  match a with
  | some a => .string a.text
  | none => .null

/-- The JSON form: all fields, those that the packet lacks as null. -/
def toJson (p : Packet) : Json :=
  .object <| fieldNames.zip
    [.number (.ofInt64 p.time), .boolean p.forward, countJson (p.length.map (·.toNat)), countJson (p.protocol.map (·.toNat)),
     addressJson p.source, addressJson p.destination, countJson (p.sourcePort.map (·.toNat)),
     countJson (p.destinationPort.map (·.toNat)), countJson (p.tcpFlags.map (·.toNat))]

def address? (document : Document) : Option Address := do
  Address.parse? (← document.string?)

def word16? (document : Document) : Option UInt16 :=
  (document.whole? 0 65535).map (·.toNat.toUInt16)

def word8? (document : Document) : Option UInt8 :=
  (document.whole? 0 255).map (·.toNat.toUInt8)

/-- Reads the JSON form. Time and direction are required; an array gives all fields. -/
def ofDocument? (document : Document) : Option Packet := do
  let fields ← document.fields? fieldNames fieldNames.length
  match fields with
  | [time, forward, length, protocol, source, destination, sourcePort, destinationPort, flags] =>
    return {
      time := Int64.ofInt (← (← time).whole? Int64.minValue.toInt Int64.maxValue.toInt)
      forward := ← (← forward).boolean?
      length := ← Document.optional word16? length
      protocol := ← Document.optional word8? protocol
      source := ← Document.optional address? source
      destination := ← Document.optional address? destination
      sourcePort := ← Document.optional word16? sourcePort
      destinationPort := ← Document.optional word16? destinationPort
      tcpFlags := ← Document.optional word16? flags }
  | _ => none

def parse? (text : String) : Option Packet := do
  ofDocument? (← Document.parse? text)

end FlowMetering.Packet
