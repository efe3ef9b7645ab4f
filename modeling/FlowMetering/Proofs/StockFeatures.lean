import FlowMetering.Proofs.LiveStreams

/-! The entries of the built-in catalog, sorted by what becomes of their calls. Each source and each aggregate does for a
flow what the direct evaluation says. -/

namespace FlowMetering.Library

namespace Instance

theorem absorb_cons (s : Instance) (p : Packet) (packets : List Packet) :
    s.absorb (p :: packets) = (s.packet p).1.absorb packets := rfl

theorem collect_cons (s : Instance) (v : Value) (values : List Value) :
    s.collect (v :: values) = (s.value v [0]).1.collect values := rfl

theorem absorb_octetCount (total : UInt64) (packets : List Packet) :
    (octetCount total).absorb packets = octetCount (packets.foldl
      (fun total p => (p.length.map fun n => saturatingAdd total n.toUInt64).getD total) total) := by
  induction packets generalizing total with
  | nil => rfl
  | cons p packets ih =>
    rw [absorb_cons, packet, ih, List.foldl_cons]
    cases p.length <;> rfl

theorem absorb_packetCount (count : UInt64) (packets : List Packet) :
    (packetCount count).absorb packets = packetCount (count + packets.length.toUInt64) := by
  induction packets generalizing count with
  | nil => rw [List.length_nil]; exact congrArg packetCount (UInt64.add_zero count).symm
  | cons p packets ih =>
    rw [absorb_cons, packet, ih, List.length_cons, UInt64.add_assoc, UInt64.add_comm 1]
    exact congrArg (fun n => packetCount (count + n)) (UInt64.ofNat_add packets.length 1).symm

theorem absorb_flowTime (timing : Timing) (first : Option Int64) (last : Int64) (packets : List Packet) :
    (flowTime timing first last).absorb packets =
      flowTime timing (first.or (packets.head?.map Packet.time)) ((packets.getLast?.map Packet.time).getD last) := by
  induction packets generalizing first last with
  | nil => cases first <;> rfl
  | cons p packets ih =>
    rw [absorb_cons, packet, ih, List.getLast?_cons]
    cases first <;> cases packets.getLast? <;> rfl

theorem absorb_firstAddress (endpoint : Endpoint) (first : Option Address) (packets : List Packet) :
    (firstAddress endpoint first).absorb packets = firstAddress endpoint (first.or (packets.findSome? endpoint.address)) := by
  induction packets generalizing first with
  | nil => cases first <;> rfl
  | cons p packets ih =>
    rw [absorb_cons, packet, ih, List.findSome?_cons, Option.or_assoc]
    cases endpoint.address p <;> rfl

theorem absorb_firstProtocol (first : Option UInt8) (packets : List Packet) :
    (firstProtocol first).absorb packets = firstProtocol (first.or (packets.findSome? Packet.protocol)) := by
  induction packets generalizing first with
  | nil => cases first <;> rfl
  | cons p packets ih =>
    rw [absorb_cons, packet, ih, List.findSome?_cons, Option.or_assoc]
    cases p.protocol <;> rfl

theorem absorb_endReason (packets : List Packet) : endReason.absorb packets = endReason := by
  induction packets with
  | nil => rfl
  | cons p packets ih => exact ih

theorem collect_running (rule : Aggregate) (current : Option Value) (values : List Value) :
    (running rule current).collect values = running rule (values.foldl rule.step current) := by
  induction values generalizing current with
  | nil => rfl
  | cons v values ih => exact ih (rule.step current v)

theorem collect_mean (sum : Float) (count : UInt64) (values : List Value) :
    (mean sum count).collect values = mean ((values.filterMap Value.asFloat).foldl (· + ·) sum)
      (count + (values.filterMap Value.asFloat).length.toUInt64) := by
  induction values generalizing sum count with
  | nil => exact congrArg (mean sum) (UInt64.add_zero count).symm
  | cons v values ih =>
    rw [collect_cons, value, List.filterMap_cons]
    cases v.asFloat with
    | none => exact ih sum count
    | some x =>
      dsimp only
      rw [ih, List.foldl_cons, List.length_cons, UInt64.add_assoc, UInt64.add_comm 1]
      exact congrArg (fun n => mean _ (count + n)) (UInt64.ofNat_add (values.filterMap Value.asFloat).length 1).symm

theorem collect_valueCount (count : UInt64) (values : List Value) :
    (valueCount count).collect values = valueCount (count + values.length.toUInt64) := by
  induction values generalizing count with
  | nil => exact congrArg valueCount (UInt64.add_zero count).symm
  | cons v values ih =>
    rw [collect_cons, value, ih, List.length_cons, UInt64.add_assoc, UInt64.add_comm 1]
    exact congrArg (fun n => valueCount (count + n)) (UInt64.ofNat_add values.length 1).symm

end Instance

private theorem sums_octetCount : Sums (.octetCount 0) fun _ packets => some (.unsigned (octets packets)) where
  finish packets := by rw [Instance.absorb_octetCount]; rfl
  start _ := rfl
  role := rfl
  stop _ packets := by rw [Instance.absorb_octetCount]; rfl

private theorem sums_packetCount : Sums (.packetCount 0) fun _ packets => some (.unsigned packets.length.toUInt64) where
  finish packets := by rw [Instance.absorb_packetCount]; rfl
  start _ := rfl
  role := rfl
  stop _ packets := by rw [Instance.absorb_packetCount, UInt64.zero_add]; rfl

private theorem sums_flowTime (timing : Timing) : Sums (.flowTime timing none 0) fun _ => timeOf timing where
  finish packets := by rw [Instance.absorb_flowTime]; rfl
  start _ := rfl
  role := rfl
  stop _ packets := by rw [Instance.absorb_flowTime, Option.none_or]; rfl

private theorem sums_endReason : Sums .endReason fun reason _ => some (.unsigned reason.code.toUInt64) where
  finish packets := by rw [Instance.absorb_endReason]; rfl
  start _ := rfl
  role := rfl
  stop _ packets := by rw [Instance.absorb_endReason]; rfl

private theorem sums_firstAddress (endpoint : Endpoint) :
    Sums (.firstAddress endpoint none) fun _ packets => (packets.findSome? endpoint.address).map .address where
  finish packets := by rw [Instance.absorb_firstAddress]; rfl
  start _ := rfl
  role := rfl
  stop _ packets := by rw [Instance.absorb_firstAddress, Option.none_or]; rfl

private theorem sums_firstProtocol : Sums (.firstProtocol none) fun _ packets =>
    (packets.findSome? Packet.protocol).map fun n => .unsigned n.toUInt64 where
  finish packets := by rw [Instance.absorb_firstProtocol]; rfl
  start _ := rfl
  role := rfl
  stop _ packets := by rw [Instance.absorb_firstProtocol, Option.none_or]; rfl

private theorem collects_running (rule : Aggregate) : Collects (.running rule none) fun values => values.foldl rule.step none where
  finish values := by rw [Instance.collect_running]; rfl
  start _ := rfl
  role := rfl
  stop _ values := by rw [Instance.collect_running]; rfl

private theorem collects_mean : Collects (.mean 0.0 0) meanOf where
  finish values := by rw [Instance.collect_mean]; rfl
  start _ := rfl
  role := rfl
  stop _ values := by rw [Instance.collect_mean, UInt64.zero_add]; rfl

private theorem collects_valueCount : Collects (.valueCount 0) fun values => some (.unsigned values.length.toUInt64) where
  finish values := by rw [Instance.collect_valueCount]; rfl
  start _ := rfl
  role := rfl
  stop _ values := by rw [Instance.collect_valueCount, UInt64.zero_add]; rfl

/-- An entry by what becomes of its calls. -/
inductive Stock : Entry Instance → Prop
  | packetSource {entry : Entry Instance} {s : Instance} {read : Packet → Option Value}
    (found : packetSource? entry.name = some read) (result : entry.result = .packetFeature)
    (arguments : entry.arguments = [.rawPacket]) (build : entry.build = some fun _ => s) (reads : Reads s read)
    (explicit : entry.implicitInput = false) : Stock entry
  | flowSource {entry : Entry Instance} {s : Instance} {gather : EndReason → List Packet → Option Value}
    (found : flowSource? entry.name = some gather) (result : entry.result = .flowFeature)
    (arguments : entry.arguments = [.rawFlow]) (build : entry.build = some fun _ => s) (sums : Sums s gather)
    (explicit : entry.implicitInput = false) : Stock entry
  | aggregate {entry : Entry Instance} {s : Instance} {gather : List Value → Option Value}
    (found : aggregate? entry.name = some gather) (result : entry.result = .flowFeature)
    (arguments : entry.arguments = [.packetFeature]) (build : entry.build = some fun _ => s) (collects : Collects s gather)
    (explicit : entry.implicitInput = false) : Stock entry
  | operator (op : Operator) : Stock (operatorEntry op)
  | direction (forward : Bool) :
    Stock (selectionEntry (if forward then "forward" else "backward") [.rawPacket] false (.direction forward))
  | select : Stock (selectionEntry "select" [.packetFeature] true (.predicate none none))
  | sliceFrom : Stock (selectionEntry "select_slice" [.constant] true (.slice 0 none 0))
  | sliceBetween : Stock (selectionEntry "select_slice" [.constant, .constant] true (.slice 0 none 0))
  | apply : Stock (substitutionEntry "apply" .flowFeature)
  | map : Stock (substitutionEntry "map" .packetFeature)
  | control (name : String) (initial : Instance) : Stock (controlEntry name initial)

private theorem stock_packetEntry (field : PacketField) : Stock (packetEntry field) :=
  .packetSource (by cases field <;> rfl) rfl rfl rfl (.field field) rfl

private theorem stock_packetAddressEntry (endpoint : Endpoint) : Stock (packetAddressEntry endpoint) :=
  .packetSource (by cases endpoint <;> rfl) rfl rfl rfl (.address endpoint 0) rfl

private theorem stock_flowAddressEntry (endpoint : Endpoint) : Stock (flowAddressEntry endpoint) :=
  .flowSource (by cases endpoint <;> rfl) rfl rfl rfl (sums_firstAddress endpoint) rfl

private theorem stock_running (rule : Aggregate) :
    Stock (aggregateEntry rule.name (.resolved rule.resolve) (.running rule none)) :=
  .aggregate (by cases rule <;> rfl) rfl rfl rfl (collects_running rule) rfl

theorem eq_of_listed {sort : Entry Instance → Bool} {entry only : Entry Instance} (listed : entries.filter sort = [only])
    (member : entry ∈ entries) (held : sort entry = true) : entry = only :=
  List.mem_singleton.mp (listed ▸ List.mem_filter.mpr ⟨member, held⟩)

theorem stock_entries : ∀ entry ∈ entries, Stock entry := by
  simp only [entries, List.forall_mem_append, List.forall_mem_map, List.forall_mem_cons]
  refine ⟨⟨⟨⟨?_, ?_⟩, ?_⟩, ?_⟩, ?_⟩
  · refine ⟨stock_packetEntry _, stock_packetEntry _, stock_packetEntry _, stock_packetEntry _, stock_packetEntry _,
      stock_packetEntry _, stock_packetEntry _, stock_packetAddressEntry _, stock_packetAddressEntry _, ?_⟩
    exact ⟨.flowSource rfl rfl rfl rfl sums_octetCount rfl, .flowSource rfl rfl rfl rfl sums_packetCount rfl,
      .flowSource rfl rfl rfl rfl (sums_flowTime .start) rfl, .flowSource rfl rfl rfl rfl (sums_flowTime .end) rfl,
      .flowSource rfl rfl rfl rfl (sums_flowTime .duration) rfl, .flowSource rfl rfl rfl rfl sums_endReason rfl,
      stock_flowAddressEntry _, stock_flowAddressEntry _, .flowSource rfl rfl rfl rfl sums_firstProtocol rfl, List.forall_mem_nil _⟩
  · exact ⟨stock_running _, stock_running _, stock_running _, stock_running _, stock_running _, List.forall_mem_nil _⟩
  · exact ⟨.aggregate rfl rfl rfl rfl collects_mean rfl, .aggregate rfl rfl rfl rfl collects_valueCount rfl, List.forall_mem_nil _⟩
  · exact ⟨.operator _, .operator _, .operator _, .operator _, .operator _, .operator _, .operator _, List.forall_mem_nil _⟩
  · exact ⟨.direction true, .direction false, .select, .sliceFrom, .sliceBetween, .apply, .map, .control _ _, List.forall_mem_nil _⟩

end FlowMetering.Library
