import FlowMetering.Proofs.ChosenPackets
import FlowMetering.Proofs.ConstantArguments
import FlowMetering.Proofs.EncodedValues
import FlowMetering.Proofs.FamilyTypes
import FlowMetering.Proofs.ReportedCounts

/-! Slices behind slices. Each of them counts the packets that the next one lets through, from the start of the segment on, so
that the packets that come out are those between the positions of the last one, and of these those between the positions of
the one before it. -/

namespace FlowMetering

open Allocation (Refers)

namespace Library

/-- Whether a slice lets the packet at a position through. A start before the first position is none, and so is such a stop. -/
def reaches (bounds : Int64 × Int64) (i : Nat) : Bool :=
  max bounds.1.toInt 0 ≤ i && (bounds.2.toInt < 0 || i < bounds.2.toInt)

def cut (bounds : Int64 × Int64) (packets : List Packet) : List Packet :=
  (packets.zipIdx.filter fun (_, i) => reaches bounds i).map (·.1)

/-- The packets that are left by slices, of which the last one comes first. -/
def survivors (slices : List (Int64 × Int64)) (packets : List Packet) : List Packet :=
  slices.foldr cut packets

private theorem cut_snoc (bounds : Int64 × Int64) (packets : List Packet) (packet : Packet) :
    cut bounds (packets ++ [packet]) = cut bounds packets ++ if reaches bounds packets.length then [packet] else [] := by
  rw [cut, List.zipIdx_append, List.filter_append, List.map_append, ← cut, Nat.zero_add]
  refine congrArg (cut bounds packets ++ ·) ?_
  cases inside : reaches bounds packets.length <;> simp [inside]

private theorem survivors_nil (slices : List (Int64 × Int64)) : survivors slices [] = [] := by
  induction slices with
  | nil => rfl
  | cons bounds slices ih => rw [survivors, List.foldr_cons, ← survivors, ih]; rfl

def sliceJson (bounds : Int64 × Int64) : Json :=
  .array [.string "select_slice", .number (.ofInt64 bounds.1), .number (.ofInt64 bounds.2)]

section Bounds

private theorem index?_signed (n : Int64) : index? (.signed n) = some n.toInt := by
  have word : Value.asInt64 (.signed n) = some n := Word.signed?_eq_some_iff.mpr rfl
  rw [index?, word]

private theorem reaches_eq (bounds : Int64 × Int64) (i : Nat) :
    (decide ((sliceBounds (some (.signed bounds.1)) (some (.signed bounds.2))).1 ≤ i) &&
      (sliceBounds (some (.signed bounds.1)) (some (.signed bounds.2))).2.all (i < ·)) = reaches bounds i := by
  rw [sliceBounds, Option.bind_some, Option.bind_some, index?_signed, index?_signed, Option.getD_some, reaches]
  have start : bounds.1.toInt.toNat ≤ i ↔ max bounds.1.toInt 0 ≤ i := by omega
  have stop : ((some bounds.2.toInt).filter (0 ≤ ·)).map Int.toNat =
      if bounds.2.toInt < 0 then none else some bounds.2.toInt.toNat := by
    by_cases negative : bounds.2.toInt < 0
    · rw [if_pos negative, Option.filter_some, if_neg (by simpa using negative)]
      rfl
    · rw [if_neg negative, Option.filter_some, if_pos (by simpa using negative)]
      rfl
  rw [stop, decide_eq_decide.mpr start]
  refine congrArg (decide (max bounds.1.toInt 0 ≤ i) && ·) ?_
  split
  next negative => rw [decide_eq_true negative]; rfl
  next positive =>
    rw [decide_eq_false positive, Bool.false_or, Option.all_some, decide_eq_decide]
    omega

end Bounds

structure Sieve where
  register : Nat
  bounds : Int64 × Int64

/-- What hands on the packets that are left by slices. -/
def entrance : List Sieve → Argument
  | [] => .raw
  | sieve :: _ => .register sieve.register

private def Sieve.holding (sieve : Sieve) (given : Nat) : Instance :=
  let bounds := sliceBounds (some (.signed sieve.bounds.1)) (some (.signed sieve.bounds.2))
  .slice bounds.1 bounds.2 given

private def sifted (sieves : List Sieve) (packets : List Packet) : List Packet :=
  survivors (sieves.map Sieve.bounds) packets

private theorem Sieve.packet_holding (sieve : Sieve) (packet : Packet) (given : Nat) : (sieve.holding given).packet packet =
    (sieve.holding (given + 1), if reaches sieve.bounds given then .forward else .silent) := by
  rw [← reaches_eq]
  rfl

section Programs

variable {φ : Type} {p : Program Instance φ}

/-- The register of a slice reads its bounds, which are constants, and what it is to let through. -/
structure Sieve.Reads (p : Program Instance φ) (sieve : Sieve) (a : Argument) : Prop where
  sole : Sole p sieve.register a
  varies : p.known (.register sieve.register) = none
  start : ((p.args sieve.register)[0]?).bind p.known = some (.signed sieve.bounds.1)
  stop : ((p.args sieve.register)[1]?).bind p.known = some (.signed sieve.bounds.2)
  built : ∃ node, p.nodes[sieve.register]? = some node ∧ node.build? = some fun _ => .slice 0 none 0

/-- Each slice reads what the next one lets through, and the last one reads all packets. -/
inductive Nested (p : Program Instance φ) : List Sieve → Prop
  | nil : Nested p []
  | cons {sieve : Sieve} {sieves : List Sieve} (reads : sieve.Reads p (entrance sieves)) (rest : Nested p sieves) :
    Nested p (sieve :: sieves)

/-- Each slice has been given the packets of a part that the next one has let through. -/
private def Holding (part : List Packet) (instances : List (Option Instance)) : List Sieve → Prop
  | [] => True
  | sieve :: sieves => instances[sieve.register]? = some (some (sieve.holding (sifted sieves part).length)) ∧
    Holding part instances sieves

private theorem Nested.free {sieves : List Sieve} (nested : Nested p sieves) : p.known (entrance sieves) = none := by
  cases nested with
  | nil => rfl
  | cons reads rest => exact reads.varies

private theorem Nested.start {sieves : List Sieve} (nested : Nested p sieves) {instances : List (Option Instance)}
    (begun : Begun p instances) : Holding [] instances sieves := by
  induction nested with
  | nil => trivial
  | @cons sieve sieves reads rest ih =>
    refine ⟨?_, ih⟩
    obtain ⟨node, found, built⟩ := reads.built
    rw [begun _ node _ found built, sifted, survivors_nil]
    have first := (argument_of_constants (c := footing p sieve.register) rfl rfl 0).trans reads.start
    have second := (argument_of_constants (c := footing p sieve.register) rfl rfl 1).trans reads.stop
    rw [Instance.start, first, second]
    rfl

private theorem Holding.aside {m : Meter Instance φ} (governed : Governed m) {sieves : List Sieve} (nested : Nested m.program sieves)
    {part : List Packet} {instances instances' : List (Option Instance)} (holding : Holding part instances sieves)
    (kept : ∀ q ∉ m.program.controls, instances'[q]? = instances[q]?) : Holding part instances' sieves := by
  induction nested with
  | nil => trivial
  | @cons sieve sieves reads rest ih =>
    obtain ⟨node, found, built⟩ := reads.built
    refine ⟨?_, ih holding.2⟩
    rw [kept _ (governed.not_mem_controls found built nofun)]
    exact holding.1

section Deliveries

variable {m : Meter Instance φ} (ordered : m.program.Ordered) (once : SpeaksOnce m)
variable {packet : Packet} {t : Turn Instance φ} (ready : t.Shows (Ready m.program))
include ordered once ready

private theorem Sieve.Reads.skip {sieve : Sieve} {a : Argument} (reads : sieve.Reads m.program a) {given : Nat}
    (held : t.record.instances[sieve.register]? = some (some (sieve.holding given))) (nothing : supplied m packet t a = []) :
    supplied m packet t (.register sieve.register) = [] ∧
      (m.deliverPacket packet t).record.instances[sieve.register]? = some (some (sieve.holding given)) := by
  rw [reads.sole.supplied ordered once ready held, reads.sole.delivered ordered once ready held, nothing]
  exact ⟨rfl, rfl⟩

private theorem Sieve.Reads.take {sieve : Sieve} {a : Argument} (reads : sieve.Reads m.program a) {given : Nat}
    (held : t.record.instances[sieve.register]? = some (some (sieve.holding given)))
    (handed : supplied m packet t a = [.packet packet a.source]) :
    supplied m packet t (.register sieve.register) =
        (if reaches sieve.bounds given then [.packet packet (.register sieve.register)] else []) ∧
      (m.deliverPacket packet t).record.instances[sieve.register]? = some (some (sieve.holding (given + 1))) := by
  rw [reads.sole.supplied ordered once ready held, reads.sole.delivered ordered once ready held, handed]
  constructor
  · rw [Instance.answers, Instance.answers, Instance.event, sieve.packet_holding]
    split <;> rfl
  · rw [Instance.after, List.foldl_cons, List.foldl_nil, Instance.event, sieve.packet_holding]
    rfl

/-- A packet goes through slices exactly if it is one of those that are left of the part, and all slices count what they are
given. -/
private theorem Nested.deliver {sieves : List Sieve} (nested : Nested m.program sieves) {part : List Packet}
    (holding : Holding part t.record.instances sieves) :
    Holding (part ++ [packet]) (m.deliverPacket packet t).record.instances sieves ∧
      (supplied m packet t (entrance sieves) = [] ∧ sifted sieves (part ++ [packet]) = sifted sieves part ∨
        supplied m packet t (entrance sieves) = [.packet packet (entrance sieves).source] ∧
          sifted sieves (part ++ [packet]) = sifted sieves part ++ [packet]) := by
  -- the slices are taken from the feature inwards, so that what the first one is given is known from the others
  induction nested with
  | nil => exact ⟨trivial, .inr ⟨rfl, rfl⟩⟩
  | @cons sieve sieves reads rest ih =>
    obtain ⟨held, holding⟩ := holding
    obtain ⟨holding, passed⟩ := ih holding
    have left (packets : List Packet) : sifted (sieve :: sieves) packets = cut sieve.bounds (sifted sieves packets) := rfl
    rw [Holding, left, left, entrance]
    rcases passed with ⟨nothing, same⟩ | ⟨handed, grown⟩
    · obtain ⟨silent, kept⟩ := reads.skip ordered once ready held nothing
      rw [same]
      exact ⟨⟨kept, holding⟩, .inl ⟨silent, rfl⟩⟩
    · obtain ⟨given, counted⟩ := reads.take ordered once ready held handed
      rw [grown, List.length_append, cut_snoc, given]
      refine ⟨⟨counted, holding⟩, ?_⟩
      split
      · exact .inr ⟨rfl, rfl⟩
      · exact .inl ⟨rfl, List.append_nil _⟩

end Deliveries

private theorem Nested.picks {m : Meter Instance φ} (governed : Governed m) (ordered : m.program.Ordered) (once : SpeaksOnce m)
    {sieves : List Sieve} (nested : Nested m.program sieves) : Picks m (entrance sieves) fun part chosen instances =>
      chosen = sifted sieves part ∧ Holding part instances sieves where
  aside part chosen instances instances' := by
    rintro ⟨left, holding⟩ kept
    exact ⟨left, holding.aside governed nested kept⟩
  start instances begun := ⟨(survivors_nil _).symm, nested.start begun⟩
  deliver part chosen packet t fit := by
    rintro ⟨rfl, holding⟩
    rcases nested.deliver ordered once fit.1 holding with ⟨holding, ⟨nothing, same⟩ | ⟨handed, grown⟩⟩
    · exact .inl ⟨nothing, same.symm, holding⟩
    · exact .inr ⟨handed, grown.symm, holding⟩

end Programs

section Compiled

private theorem selects_slice {bounds : Int64 × Int64} {input : Bound Instance} (selects : Selects (sliceJson bounds) input) :
    ∃ binding : Binding Instance, binding.chosen.entry.build = some (fun _ => .slice 0 none 0) ∧
      input = .call binding [.constant (.signed bounds.1), .constant (.signed bounds.2), .raw .rawPacket] := by
  obtain ⟨e, bound, read, takes, rfl⟩ := selects
  have written : e = .call "select_slice" [.constant (.signed bounds.1), .constant (.signed bounds.2)] := by
    rw [← Value.ofNumber_ofInt64, ← Value.ofNumber_ofInt64]
    exact (Except.ok.inj read).symm
  have unfolds : unfolded e = e := by
    rw [written]
    rfl
  rw [unfolds, written] at takes
  have drawn : Bound.Over catalog bound := Bound.over_ofExpression (unfolds ▸ written_unfolded
    (Expression.written_ofJson _ e read)).scalar (written ▸ takes)
  obtain ⟨candidate, bounds', rfl, binds⟩ := takes_call takes
  have listed : entries.filter (·.name == "select_slice") = [sliceEntry 1, sliceEntry 2] := rfl
  have member : candidate.entry ∈ [sliceEntry 1, sliceEntry 2] :=
    listed ▸ List.mem_filter.mpr ⟨Catalog.mem_entries drawn.head, beq_iff_eq.mpr binds.name⟩
  rw [List.mem_pair] at member
  rcases member with one | two
  · obtain ⟨_, _, same, -⟩ := binds.one (show candidate.entry.arguments = [.constant] by rw [one]; rfl) nofun nofun
    cases congrArg List.length same
  · have build : candidate.entry.build = some fun _ => .slice 0 none 0 := by rw [two]; rfl
    obtain ⟨first, second, rfl, start, stop⟩ := binds.pair
      (show candidate.entry.arguments = [.constant, .constant] by rw [two]; rfl) nofun nofun nofun
    obtain ⟨-, rfl⟩ := takes_constant_iff.mp start
    obtain ⟨-, rfl⟩ := takes_constant_iff.mp stop
    refine ⟨⟨candidate, .selection⟩, build, ?_⟩
    rw [Bound.settled_call build, two]
    rfl

private theorem fedAll_constant (inputs : List (Bound Instance)) (value : Value) : fedAll inputs (.constant value) = .constant value := by
  induction inputs with
  | nil => rfl
  | cons input inputs ih => exact ih

variable {φ : Type} {p : Program Instance φ} {nodes more : List (Node Instance)} (extended : p.nodes = nodes ++ more)
include extended

private theorem known_of_refers {arg : Argument} {value : Value} (refers : Refers nodes arg (.constant value : Bound Instance)) :
    p.known arg = some value := by
  cases refers with
  | constant found known => exact (Program.known_of_found (found_of_front extended found)).trans known

private theorem exists_nested {slices : List (Int64 × Int64)} {inputs : List (Bound Instance)}
    (selects : List.Forall₂ Selects (slices.map sliceJson) inputs) {a : Argument} {mark : Kind}
    (refers : Refers nodes a (fedAll inputs (.raw mark))) :
    ∃ sieves, sieves.map Sieve.bounds = slices ∧ entrance sieves = a ∧ Nested p sieves := by
  induction slices generalizing inputs a mark with
  | nil =>
    obtain rfl := List.forall₂_nil_left_iff.mp selects
    cases refers
    exact ⟨[], rfl, rfl, .nil⟩
  | cons bounds slices ih =>
    obtain ⟨input, inputs, first, others, rfl⟩ := List.forall₂_cons_left_iff.mp selects
    obtain ⟨binding, built, rfl⟩ := selects_slice first
    have refers : Refers nodes a (fedAll inputs (.call binding
      [.constant (.signed bounds.1), .constant (.signed bounds.2), .raw .rawPacket])) := refers
    rw [fedAll_call, List.map_cons, List.map_cons, List.map_singleton, fedAll_constant, fedAll_constant] at refers
    cases refers with
    | call found varies entry plain count each =>
      rename_i q node
      have found' := found_of_front extended found
      obtain ⟨start, stop, a, args⟩ := List.length_eq_three.mp (show node.args.length = 3 from count)
      rw [args] at each
      simp only [List.zip_cons_cons, List.zip_nil_left, List.forall_mem_cons] at each
      obtain ⟨first, second, last, -⟩ := each
      obtain ⟨sieves, rfl, rfl, nested⟩ := ih others last
      have args' : p.args q = [start, stop, entrance sieves] := (Program.args_of_found found').trans args
      have sole : Sole p q (entrance sieves) := by
        refine ⟨⟨node, found', plain, ?_, ?_⟩, nested.free⟩
        · simp [args]
        · rw [args]
          simp [known_of_refers extended first, known_of_refers extended second]
      refine ⟨⟨q, bounds⟩ :: sieves, rfl, rfl, .cons ⟨sole, ?_, ?_, ?_, node, found', ?_⟩ nested⟩
      · exact (Program.known_of_found found').trans varies
      · rw [args']
        exact known_of_refers extended first
      · rw [args']
        exact known_of_refers extended second
      · rw [Node.build?, entry]
        exact built

end Compiled

section Runs

variable {limit : Nat} {p : Program Instance PacketFilter}

/-- The number of the packets that are left by slices, for each connection. -/
def slicedSegments (filters : List String) (slices : List (Int64 × Int64)) : Specification where
  features := [applied (.string "packetTotalCount") (slices.map sliceJson)]
  control := [.string "_tcpEnd"]
  filter := filters

private theorem isEmpty_controls_of_compile {s : Specification} (compiled : s.compile catalog limit = .ok p)
    (single : s.control = [] ∨ s.control = [.string "_tcpEnd"]) : p.controls.isEmpty = s.control.isEmpty := by
  obtain ⟨stages⟩ := Specification.compile_stages compiled
  obtain ⟨made, exported, same⟩ := exported_of_stages stages
  obtain ⟨control, listed, tailed⟩ := tailed_of_stages stages single exported same
  exact tailed.isEmpty_controls.trans listed

private theorem select_slicedSegments {filters : List String} {slices : List (Int64 × Int64)}
    (compiled : (slicedSegments filters slices).compile catalog limit = .ok p) (variant : Nat → Nat) :
    p.template.select variant ≠ none := by
  obtain ⟨stages⟩ := Specification.compile_stages compiled
  obtain ⟨layout⟩ := stages.layout
  obtain ⟨nodes, more, headed⟩ := exists_headed compiled
  obtain ⟨r, first, compiledTo⟩ := headed.feature (i := 0) rfl
  obtain ⟨node, chosen, found, entered, listed, named⟩ := compiledTo.named headed.extended rfl
  have single : entries.filter (·.name == "packetTotalCount") =
      [flowEntry (.registered "packetTotalCount" 86 .unsigned64) (.packetCount 0)] := rfl
  have entry := eq_of_listed single listed (beq_iff_eq.mpr named)
  obtain ⟨only, exports⟩ := List.length_eq_one_iff.mp (show p.exports.length = 1 from headed.count)
  have unbranched : ∀ r ∈ p.exports, ∀ node, p.nodes[r]? = some node → node.type.branchings = [] := by
    intro q exported node' found'
    rw [exports] at first exported
    obtain rfl := List.mem_singleton.mp exported
    cases Option.some.inj first
    cases found.symm.trans found'
    exact unbranched_of_fixed stages layout found entered (by rw [entry]; rfl)
  obtain ⟨template, selected⟩ := select_of_unbranched stages layout unbranched variant
  rw [selected]
  nofun

/-- Slices compose, and start again with each segment. Whatever bounds there are at whatever depth, in every run there is one row
for each part of the flow, with the number of the packets of the part that are left by the slices. -/
theorem performAll_slices {filters : List String} {slices : List (Int64 × Int64)}
    (compiled : (slicedSegments filters slices).compile catalog limit = .ok p) (exporters : List Exporter)
    (operations : List Operation) : ∃ rows : List Row,
    Journal.exports (Meter.performAll ⟨p, exporters⟩ (Meter.make ⟨p, exporters⟩) operations).2 =
      rows.flatMap (handed ⟨p, exporters⟩) ∧
    rows.map (·.values) = (partsOf (admits p) (closes true) [] operations).map fun part =>
      [some (.unsigned (survivors slices part).length.toUInt64)] := by
  obtain ⟨nodes, more, headed⟩ := exists_headed compiled
  obtain ⟨r, exported, compiledTo⟩ := headed.feature (i := 0) rfl
  obtain ⟨a, initial, passage, -⟩ := compiledTo.flowSource headed.extended rfl
  obtain ⟨inputs, mark, selects, refers, -⟩ := id passage
  obtain ⟨sieves, bounds, rfl, nested⟩ := exists_nested headed.extended selects refers
  have picks : Picks ⟨p, exporters⟩ (entrance sieves) _ :=
    nested.picks (governed_of_compile compiled) (Specification.compile_ordered compiled) (speaksOnce_of_compile compiled)
  obtain ⟨rows, each, exports⟩ := performAll_recounts (m := ⟨p, exporters⟩) compiled (headed.opening passage) picks operations
  rw [isEmpty_controls_of_compile compiled (.inr rfl)] at each
  have counted : List.Forall₂ (fun part row => row.map (·.values) =
      some [some (Value.unsigned (survivors slices part).length.toUInt64)])
      (partsOf (admits p) (closes true) [] operations) rows := by
    refine each.imp fun part row => ?_
    rintro ⟨before, h, after, -, -, chosen, reason, instances, ⟨rfl, -⟩, recounts⟩
    -- no row is missing, for the template does not depend on any variant
    cases row with
    | none =>
      obtain ⟨variant, missing⟩ := recounts.selected rfl
      exact absurd missing (select_slicedSegments compiled variant)
    | some shown =>
      have count := (recounts.count shown rfl).trans headed.count
      have value := recounts.sums (i := 0) rfl rfl shown rfl
      obtain ⟨v, values⟩ := List.length_eq_one_iff.mp count
      rw [values] at value
      rw [Option.map_some, values, Option.some.inj value, sifted, bounds]
  have values : rows.map (Option.map (·.values)) = (partsOf (admits p) (closes true) [] operations).map fun part =>
      some [some (Value.unsigned (survivors slices part).length.toUInt64)] := by
    rw [← List.forall₂_eq_eq_eq, List.forall₂_map_left_iff, List.forall₂_map_right_iff]
    exact counted.flip
  refine ⟨rows.reduceOption, exports, ?_⟩
  rw [← List.reduceOption_map, values, List.reduceOption, List.filterMap_map]
  exact congrFun List.filterMap_eq_map _

/-- Slices with the same bounds behind one that lets all packets through. -/
def repeatedSlices : List (Int64 × Int64) :=
  [(1, 3), (1, 3), (-2, -1)]

theorem performAll_slices_repeated : ∃ (p : Program Instance PacketFilter) (rows : List Row),
    (slicedSegments ["tcp"] repeatedSlices).compile catalog 4096 = .ok p ∧
    Journal.exports (Meter.performAll ⟨p, [sink]⟩ (Meter.make ⟨p, [sink]⟩) (closing.map .event ++ [.stop .forcedEnd 6])).2 =
      rows.flatMap (handed ⟨p, [sink]⟩) ∧
    rows.map (·.values) = [[some (.unsigned 1)], [some (.unsigned 0)]] := by
  have facts : ((slicedSegments ["tcp"] repeatedSlices).compile catalog 4096).toOption.any (fun p =>
      decide ((partsOf (admits p) (closes true) [] (closing.map .event ++ [.stop .forcedEnd 6])).map
        (fun part => (survivors repeatedSlices part).length) = [1, 0])) = true := by decide +kernel
  obtain ⟨p, compiled, counts⟩ := ok_of_any facts
  obtain ⟨rows, exports, values⟩ := performAll_slices compiled [sink] (closing.map .event ++ [.stop .forcedEnd 6])
  refine ⟨p, rows, compiled, exports, values.trans ?_⟩
  have shown := congrArg (List.map fun n : Nat => [some (Value.unsigned n.toUInt64)]) counts
  rw [List.map_map] at shown
  exact shown

end Runs

end Library

end FlowMetering
