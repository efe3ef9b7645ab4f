import FlowMetering.Proofs.ChosenPackets
import FlowMetering.Proofs.GatheredValues
import Mathlib.Algebra.Order.BigOperators.Group.List

/-! Features that can be had in two ways. What a feature of whole flows makes of packets that are given to it, an aggregate makes
of what a packet feature reads from the same packets, and both are given the same packets if they are behind the same
selections. -/

namespace FlowMetering.Library

def totalLength (packets : List Packet) : Nat :=
  (packets.map fun p => (p.length.map UInt16.toNat).getD 0).sum

/-- A feature of whole flows that is an aggregate of a packet feature as well. -/
inductive Pair where
  | packets
  | octets
  | protocol
  | address (endpoint : Endpoint)
  deriving DecidableEq

namespace Pair

def flow : Pair → String
  | .packets => "packetTotalCount"
  | .octets => "octetTotalCount"
  | .protocol => "protocolIdentifier"
  | .address endpoint => endpoint.name

def rule : Pair → String
  | .packets => "count"
  | .octets => "sum"
  | .protocol | .address _ => "first"

def source : Pair → String
  | .packets => "flowDirection"
  | .octets => "octetTotalCount"
  | .protocol => "protocolIdentifier"
  | .address endpoint => endpoint.name

def aggregate (pair : Pair) : Json :=
  .array [.string pair.rule, .string pair.source]

/-- What is exported for some packets. -/
def value (chosen : List Packet) : Pair → Option Value
  | .packets => some (.unsigned chosen.length.toUInt64)
  | .octets => some (.unsigned (totalLength chosen).toUInt64)
  | .protocol => (chosen.findSome? Packet.protocol).map fun n => .unsigned n.toUInt64
  | .address endpoint => (chosen.findSome? endpoint.address).map .address

end Pair

section Lengths

private theorem totalLength_append (one other : List Packet) : totalLength (one ++ other) = totalLength one + totalLength other := by
  rw [totalLength, List.map_append, List.sum_append]
  rfl

private theorem totalLength_le {chosen packets : List Packet} (inside : chosen.Sublist packets) :
    totalLength chosen ≤ totalLength packets :=
  (inside.map _).sum_le_sum fun _ _ => Nat.zero_le _

private theorem totalLength_eq_zero {packets : List Packet} (unknown : ∀ packet ∈ packets, packet.length = none) :
    totalLength packets = 0 := by
  refine List.sum_eq_zero fun n member => ?_
  obtain ⟨packet, inside, rfl⟩ := List.mem_map.mp member
  rw [unknown packet inside]
  rfl

private theorem octets_of_fits {packets : List Packet} (fits : totalLength packets < 2 ^ 64) :
    octets packets = (totalLength packets).toUInt64 := by
  induction packets using List.reverseRecOn with
  | nil => rfl
  | append_singleton packets packet ih =>
    rw [totalLength_append] at fits ⊢
    rw [octets, List.foldl_append, ← octets, ih (by omega), List.foldl_cons, List.foldl_nil]
    cases known : packet.length with
    | none => simp [totalLength, known]
    | some n =>
      have last : totalLength [packet] = n.toNat := by simp [totalLength, known]
      rw [last] at fits ⊢
      have before : (totalLength packets).toUInt64.toNat = totalLength packets := Nat.mod_eq_of_lt (by omega)
      have within : min (totalLength packets + n.toUInt64.toNat) Word.maxUnsigned = totalLength packets + n.toNat := by
        rw [UInt16.toNat_toUInt64]
        exact Nat.min_eq_left (by rw [Word.maxUnsigned]; omega)
      rw [Option.map_some, Option.getD_some, saturatingAdd, before, within]

private theorem add_unsigned {a b : UInt64} (fits : a.toNat + b.toNat < 2 ^ 64) :
    Operator.add.apply (.unsigned a) (.unsigned b) = some (.unsigned (a.toNat + b.toNat).toUInt64) := by
  have inside : 0 ≤ (a.toNat : Int) + b.toNat ∧ (a.toNat : Int) + b.toNat ≤ 0xffffffffffffffff := by omega
  change (Word.unsigned? ((a.toNat : Int) + b.toNat)).map Value.unsigned = _
  rw [Word.unsigned?, if_pos inside]
  rfl

private theorem kept_sum_lengths {packets : List Packet} (fits : totalLength packets < 2 ^ 64) :
    Aggregate.sum.kept (packets.filterMap PacketField.octetTotalCount.extract) =
      if ∀ packet ∈ packets, packet.length = none then none else some (.unsigned (totalLength packets).toUInt64) := by
  induction packets using List.reverseRecOn with
  | nil => rfl
  | append_singleton packets packet ih =>
    rw [totalLength_append] at fits ⊢
    have before := ih (by omega)
    rw [List.filterMap_append]
    cases known : packet.length with
    | none =>
      have nothing : PacketField.octetTotalCount.extract packet = none := by rw [PacketField.extract, known]; rfl
      have last : totalLength [packet] = 0 := by simp [totalLength, known]
      have same : (∀ p ∈ packets ++ [packet], p.length = none) ↔ ∀ p ∈ packets, p.length = none := by
        rw [List.forall_mem_append, List.forall_mem_singleton, and_iff_left known]
      rw [List.filterMap_cons_none nothing, List.filterMap_nil, List.append_nil, before, last, Nat.add_zero]
      simp only [same]
    | some n =>
      have found : PacketField.octetTotalCount.extract packet = some (.unsigned n.toUInt64) := by
        rw [PacketField.extract, known]
        rfl
      have last : totalLength [packet] = n.toNat := by simp [totalLength, known]
      have some' : ¬∀ p ∈ packets ++ [packet], p.length = none := by
        intro unknown
        cases (unknown packet (by simp)).symm.trans known
      rw [last] at fits ⊢
      rw [List.filterMap_cons_some found, List.filterMap_nil, Aggregate.kept_snoc, before, if_neg some']
      split
      next unknown =>
        rw [totalLength_eq_zero unknown, Nat.zero_add]
        refine congrArg (fun word => some (Value.unsigned word)) (UInt64.toNat_inj.mp ?_)
        rw [UInt16.toNat_toUInt64]
        exact (Nat.mod_eq_of_lt (by omega)).symm
      next =>
        have total : (totalLength packets).toUInt64.toNat = totalLength packets := Nat.mod_eq_of_lt (by omega)
        have sum := add_unsigned (a := (totalLength packets).toUInt64) (b := n.toUInt64)
          (by rw [total, UInt16.toNat_toUInt64]; omega)
        rw [Aggregate.step, Aggregate.update, sum, total, UInt16.toNat_toUInt64]
        rfl

end Lengths

private theorem kept_first (values : List Value) : Aggregate.first.kept values = values.head? := by
  induction values using List.reverseRecOn with
  | nil => rfl
  | append_singleton values v ih =>
    rw [Aggregate.kept_snoc, ih]
    cases values <;> rfl

namespace Pair

variable (pair : Pair)

private theorem flow_value : ∃ gather, flowSource? pair.flow = some gather ∧
    ∀ reason packets, totalLength packets < 2 ^ 64 → gather reason packets = pair.value packets := by
  cases pair with
  | packets => exact ⟨_, rfl, fun _ _ _ => rfl⟩
  | octets => exact ⟨_, rfl, fun _ _ fits => congrArg (fun word => some (Value.unsigned word)) (octets_of_fits fits)⟩
  | protocol => exact ⟨_, rfl, fun _ _ _ => rfl⟩
  | address endpoint => cases endpoint <;> exact ⟨_, rfl, fun _ _ _ => rfl⟩

private theorem aggregate_value : ∃ gather read, aggregate? pair.rule = some gather ∧ packetSource? pair.source = some read ∧
    ∀ packets, totalLength packets < 2 ^ 64 → gather (packets.filterMap read) =
      if pair = .octets ∧ ∀ packet ∈ packets, packet.length = none then none else pair.value packets := by
  have first {α : Type} (field : Packet → Option α) (shown : α → Value) (packets : List Packet) :
      Aggregate.first.kept (packets.filterMap fun p => (field p).map shown) = (packets.findSome? field).map shown := by
    rw [kept_first, List.head?_filterMap, List.map_findSome?]
    rfl
  cases pair with
  | packets =>
    refine ⟨_, _, rfl, rfl, fun packets _ => ?_⟩
    rw [if_neg (fun both => nomatch both.1)]
    change some (Value.unsigned (packets.filterMap (some ∘ _)).length.toUInt64) = _
    rw [List.filterMap_eq_map, List.length_map]
    rfl
  | octets =>
    refine ⟨_, _, rfl, rfl, fun packets fits => ?_⟩
    simp only [true_and]
    exact kept_sum_lengths fits
  | protocol =>
    refine ⟨_, _, rfl, rfl, fun packets _ => ?_⟩
    rw [if_neg (fun both => nomatch both.1)]
    exact first Packet.protocol _ packets
  | address endpoint =>
    cases endpoint with
    | source =>
      refine ⟨_, _, rfl, rfl, fun packets _ => ?_⟩
      rw [if_neg (fun both => nomatch both.1)]
      exact first Packet.source .address packets
    | destination =>
      refine ⟨_, _, rfl, rfl, fun packets _ => ?_⟩
      rw [if_neg (fun both => nomatch both.1)]
      exact first Packet.destination .address packets

end Pair

section Compiled

variable {limit : Nat} {s : Specification} {p : Program Instance PacketFilter} {selections : List Json}

/-- The features of pairs tell the same of the packets that have been chosen, but there is no sum where there are no octets to
add up. -/
structure Concurs (s : Specification) (p : Program Instance PacketFilter) (selections : List Json) (chosen : List Packet)
    (before : Journal) (row : Option Row) : Prop where
  received : ∀ {i : Nat} {pair : Pair}, s.features[i]? = some (applied (.string pair.flow) selections) →
    ∃ r, p.exports[i]? = some r ∧ Journal.received before r = chosen
  flow : ∀ {i : Nat} {pair : Pair}, s.features[i]? = some (applied (.string pair.flow) selections) →
    ∀ shown ∈ row, shown.values[i]? = some (pair.value chosen)
  aggregate : ∀ {i : Nat} {pair : Pair}, s.features[i]? = some (applied pair.aggregate selections) →
    ∀ shown ∈ row, shown.values[i]? =
      some (if pair = .octets ∧ ∀ packet ∈ chosen, packet.length = none then none else pair.value chosen)

private theorem Recounts.concurs {chosen : List Packet} {reason : EndReason} {before : Journal} {row : Option Row}
    (recounts : Recounts s p selections chosen reason before row) (fits : totalLength chosen < 2 ^ 64) :
    Concurs s p selections chosen before row where
  received {_ pair} feature := by
    obtain ⟨gather, source, -⟩ := pair.flow_value
    exact recounts.received feature source
  flow {_ pair} feature shown member := by
    obtain ⟨gather, source, value⟩ := pair.flow_value
    rw [recounts.sums feature source shown member, value reason chosen fits]
  aggregate {_ pair} feature shown member := by
    obtain ⟨gather, read, gathers, source, value⟩ := pair.aggregate_value
    rw [recounts.collects feature gathers source shown member, value chosen fits]

private theorem picks_sublist {m : Meter Instance PacketFilter} {a : Argument} (once : SpeaksOnce m) (gates : Gates m.program a) :
    Picks m a fun part chosen _ => chosen.Sublist part ∧ (a = .raw → chosen = part) where
  aside _ _ _ _ picked _ := picked
  start _ _ := ⟨.refl [], fun _ => rfl⟩
  deliver part chosen packet t fit picked := by
    have gate : supplied m packet t a = [] ∨ supplied m packet t a = [.packet packet a.source] := supplied_gate once fit.1 gates
    rcases gate with nothing | handed
    · refine .inl ⟨nothing, picked.1.trans (List.sublist_append_left ..), ?_⟩
      rintro rfl
      cases nothing
    · exact .inr ⟨handed, picked.1.append (.refl [packet]), fun raw => congrArg (· ++ [packet]) (picked.2 raw)⟩

/-- Features that can be had in two ways agree. Whatever filters and controls there are and whatever the selections are, as long
as the packets of a run are not too long for a word together, the two features of a pair behind the same selections show the
same value in every row that is handed out: that of the packets of the part that the register of the one for whole flows has
been given. Only the sum of octets is missing, where the number of octets is zero, if none of these packets has a length. -/
theorem performAll_paired (compiled : s.compile catalog limit = .ok p) (selections : List Json) (exporters : List Exporter)
    (operations : List Operation) (fits : totalLength (packetsOf operations) < 2 ^ 64) : ∃ rows : List (Option Row),
    List.Forall₂ (fun part row => ∃ before h after chosen,
      (Meter.performAll ⟨p, exporters⟩ (Meter.make ⟨p, exporters⟩) operations).2 = before ++ h :: after ∧
        h.outcome? = some row ∧ chosen.Sublist part ∧ (selections = [] → chosen = part) ∧
        Concurs s p selections chosen before row)
      (partsOf (admits p) (closes (!p.controls.isEmpty)) [] operations) rows ∧
    Journal.exports (Meter.performAll ⟨p, exporters⟩ (Meter.make ⟨p, exporters⟩) operations).2 =
      rows.reduceOption.flatMap (handed ⟨p, exporters⟩) := by
  obtain ⟨a, opening⟩ := exists_opening compiled selections
  have picks : Picks ⟨p, exporters⟩ a fun part chosen _ => chosen.Sublist part ∧ (a = .raw → chosen = part) :=
    picks_sublist (speaksOnce_of_compile compiled) opening.gates
  obtain ⟨rows, each, exports⟩ := performAll_recounts (m := ⟨p, exporters⟩) compiled opening picks operations
  have short : ∀ part ∈ partsOf (admits p) (closes (!p.controls.isEmpty)) [] operations, totalLength part < 2 ^ 64 := by
    intro part member
    have inside := (List.sublist_flatten_of_mem member).trans (flatten_partsOf _ _ [] operations)
    exact Nat.lt_of_le_of_lt (totalLength_le inside) fits
  refine ⟨rows, ((List.forall₂_and_left _ _).mpr ⟨short, each⟩).imp fun part row => ?_, exports⟩
  rintro ⟨short, before, h, after, split, outcome, chosen, reason, -, ⟨inside, whole⟩, recounts⟩
  refine ⟨before, h, after, chosen, split, outcome, inside, fun none => whole (opening.raw none), recounts.concurs ?_⟩
  exact Nat.lt_of_le_of_lt (totalLength_le inside) short

def pairedFeatures (selections : List Json) : List Json :=
  [Pair.packets, .octets, .protocol, .address .source, .address .destination].flatMap fun pair =>
    [applied (.string pair.flow) selections, applied pair.aggregate selections]

def firstForward : List Json :=
  [.array [.string "select_slice", .number (.natural 0), .number (.natural 1)], .string "forward"]

/-- A packet without a length comes between two with lengths. -/
def unevenLengths : List Packet :=
  [(Packet.ofLength 1 60).backward, { (Packet.ofLength 2 0).withUdp 40000 53 with length := none },
    (Packet.ofLength 3 90).withAddresses (.v4 1) (.v4 2)]

theorem performAll_paired_firstForward : ∃ (p : Program Instance PacketFilter) (rows : List (Option Row)),
    (Specification.ofFeatures (pairedFeatures firstForward)).compile catalog 4096 = .ok p ∧
    totalLength (packetsOf (unevenLengths.map .event ++ [.stop .forcedEnd 4])) < 2 ^ 64 ∧
    (Journal.exports (Meter.performAll ⟨p, [sink]⟩ (Meter.make ⟨p, [sink]⟩)
      (unevenLengths.map .event ++ [.stop .forcedEnd 4])).2).rows.map (fun row => row.values.map (Option.map Value.display)) =
        [[some "1", some "1", some "0", none, some "17", some "17", none, none, none, none]] ∧
    List.Forall₂ (fun part row => ∃ before h after chosen,
      (Meter.performAll ⟨p, [sink]⟩ (Meter.make ⟨p, [sink]⟩) (unevenLengths.map .event ++ [.stop .forcedEnd 4])).2 =
        before ++ h :: after ∧ h.outcome? = some row ∧ chosen.Sublist part ∧ (firstForward = [] → chosen = part) ∧
        Concurs (.ofFeatures (pairedFeatures firstForward)) p firstForward chosen before row)
      (partsOf (admits p) (closes (!p.controls.isEmpty)) [] (unevenLengths.map .event ++ [.stop .forcedEnd 4])) rows ∧
    Journal.exports (Meter.performAll ⟨p, [sink]⟩ (Meter.make ⟨p, [sink]⟩)
      (unevenLengths.map .event ++ [.stop .forcedEnd 4])).2 = rows.reduceOption.flatMap (handed ⟨p, [sink]⟩) := by
  have facts : ((Specification.ofFeatures (pairedFeatures firstForward)).compile catalog 4096).toOption.any (fun p =>
      decide ((Journal.exports (Meter.performAll ⟨p, [sink]⟩ (Meter.make ⟨p, [sink]⟩)
        (unevenLengths.map .event ++ [.stop .forcedEnd 4])).2).rows.map (fun row => row.values.map (Option.map Value.display)) =
          [[some "1", some "1", some "0", none, some "17", some "17", none, none, none, none]])) = true := by
    decide +kernel
  obtain ⟨p, compiled, shown⟩ := ok_of_any facts
  have fits : totalLength (packetsOf (unevenLengths.map .event ++ [.stop .forcedEnd 4])) < 2 ^ 64 := by decide
  obtain ⟨rows, each, exports⟩ := performAll_paired compiled firstForward [sink] _ fits
  exact ⟨p, rows, compiled, fits, shown, each, exports⟩

end Compiled

end FlowMetering.Library
