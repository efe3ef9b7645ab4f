import FlowMetering.Proofs.CompiledFeatures

/-! The values that a record reports. For a feature in which no operator has constants only, the row that ends a flow has
the value that the packets give the feature, whatever the other features are. -/

namespace FlowMetering.Library

variable {s : Specification} {p : Program Instance PacketFilter}

/-- The rows that a fresh record hands out for some packets and a stop. -/
def rowsOf (m : Meter Instance PacketFilter) (packets : List Packet) (reason : EndReason) (now : Int64) : List Row :=
  (m.performAll m.make (packets.map .event ++ [.stop reason now])).2.rows

theorem role_of_tidy {nodes : List (Node Instance)} (tidy : Allocation.Tidy catalog nodes) {q : Nat} {node : Node Instance}
    (found : nodes[q]? = some node) {build : Kind → Instance} (built : node.build? = some build) (kind : Kind) :
    (build kind).role? ≠ none := by
  rw [Node.build?] at built
  rcases tidy.held q node found with ⟨value, scalar, refers, key⟩ | ⟨binding, args, drawn, regular, refers, made, key⟩
  · cases refers with
    | constant found' known args entry =>
      obtain rfl := Option.some.inj (found.symm.trans found')
      rw [entry] at built
      cases built
  · cases refers with
    | call found' varies entry plain count each =>
      obtain rfl := Option.some.inj (found.symm.trans found')
      rw [entry, Option.bind_some] at built
      have stock := stock_of_over drawn
      cases regular with
      | own each fixed working result => exact stock.role working built kind
      | taken each taken suits => exact stock.role (by rw [taken]; rintro ⟨⟩) built kind

/-- A record of a specification without controls has no instances that raise signals. -/
theorem Compiled.calm (compiled : Compiled s p) (exporters : List Exporter) :
    Calm (Meter.make ⟨p, exporters⟩ : Record Instance PacketFilter) := by
  intro q state stored
  rw [Meter.make, List.getElem?_map] at stored
  obtain ⟨node, found, started⟩ := Option.map_eq_some_iff.mp stored
  obtain ⟨build, built, rfl⟩ := Option.map_eq_some_iff.mp started
  exact role_of_tidy compiled.tidy found built node.kind

private theorem CompiledTo.evaluates (compiled : Compiled s p) {json : Json} {r : Nat} (exported : CompiledTo p.nodes json r)
    {e : Expression} (read : Expression.ofJson json = .ok e) (free : Free (unfolded e)) :
    Steady (heldLive p.nodes) (Holds p.nodes) r ∧ ∀ packets reason,
      Live.result reason ((heldLive p.nodes r).after packets) = evaluate e reason packets := by
  obtain ⟨e', bound, read', takes, sound, refers⟩ := exported
  obtain rfl := Except.ok.inj (read.symm.trans read')
  have written := written_unfolded (Expression.written_ofJson json e read)
  have lowers := lowers_settled written free .flow takes sound
  have runs : Runs p.nodes (.register r) (plain (Bound.settled bound)) := by
    refine (lowers.stands compiled.tidy (fun arg refers => ?_) (refers_plain refers)).runs
    cases refers
    exact .raw
  have live : heldLive p.nodes r = awake (plain (Bound.settled bound)) := runs.at_held
  refine ⟨⟨⟨.flow, _, .lowers .raw lowers, runs⟩, ?_⟩, fun packets reason => ?_⟩
  · rw [live]
    exact lowers.hasRole rfl
  · have agrees := lowers.agrees rfl packets reason
    rw [live, agrees, evaluate, awake, Live.stream_raw]

/-- In a row that ends a flow, a feature in which no operator has constants only has the value that the packets give it. -/
theorem Compiled.reports (compiled : Compiled s p) (exporters : List Exporter) (packets : List Packet) (reason : EndReason)
    (now : Int64) {row : Row} (member : row ∈ rowsOf ⟨p, exporters⟩ packets reason now) :
    row.values.length = s.features.length ∧ ∀ (i : Nat) json e, s.features[i]? = some json → Expression.ofJson json = .ok e →
      Free (unfolded e) → row.values[i]? = some (evaluate e reason packets) := by
  have reported := performAll_reports (m := ⟨p, exporters⟩) (circuit_of_shared compiled.ordered (shared_of_tidy compiled.tidy))
    built_of_held compiled.uncontrolled compiled.unfiltered (compiled.calm exporters) packets row member
  refine ⟨reported.count.trans compiled.features.length_eq.symm, fun i json e held read free => ?_⟩
  obtain ⟨inside, rfl⟩ := List.getElem?_eq_some_iff.mp held
  have inside' : i < p.exports.length := compiled.features.length_eq ▸ inside
  obtain ⟨steady, evaluates⟩ := CompiledTo.evaluates compiled (compiled.features.get inside inside') read free
  rw [reported.results i p.exports[i] (List.getElem?_eq_getElem inside') ⟨steady.1, steady.2.after packets⟩]
  exact congrArg some (evaluates packets reason)

/-- Where no operator has constants only, a record reports of each feature what the packets give it, computed on its
expression. -/
theorem compile_reports_evaluations {limit : Nat} (compiled : s.compile catalog limit = .ok p) (uncontrolled : s.control = [])
    (unfiltered : s.filter = []) (free : ∀ json ∈ s.features, ∀ e, Expression.ofJson json = .ok e → Free (unfolded e))
    (exporters : List Exporter) (packets : List Packet) (reason : EndReason) (now : Int64) {row : Row}
    (member : row ∈ rowsOf ⟨p, exporters⟩ packets reason now) :
    row.values.length = s.features.length ∧ ∀ (i : Nat) json e, s.features[i]? = some json →
      Expression.ofJson json = .ok e → row.values[i]? = some (evaluate e reason packets) := by
  obtain ⟨count, values⟩ := (compiled_of_compile compiled uncontrolled unfiltered).reports exporters packets reason now member
  exact ⟨count, fun i json e held read => values i json e held read (free json (List.mem_of_getElem? held) e read)⟩

/-- What the rows show that a specification hands out without exporters. -/
def shownRows (s : Specification) (packets : List Packet) : List (List (Option String)) :=
  match s.compile catalog 4096 with
  | .ok p => (rowsOf ⟨p, []⟩ packets .forcedEnd 0).map fun row => row.values.map (Option.map Value.display)
  | .error _ => []

theorem exists_row {packets : List Packet} {shown : List (Option String)} (rows : shownRows s packets = [shown]) :
    ∃ p row, s.compile catalog 4096 = .ok p ∧ row ∈ rowsOf ⟨p, []⟩ packets .forcedEnd 0 ∧
      row.values.map (Option.map Value.display) = shown := by
  rw [shownRows] at rows
  split at rows
  next p compiled =>
    obtain ⟨row, member, same⟩ := List.mem_map.mp (rows ▸ List.mem_singleton_self shown)
    exact ⟨p, row, compiled, member, same⟩
  next => cases rows

/-- A selection by an operator, an operator on results with a composite, and an operator on packets. -/
def selective : Specification := .ofFeatures
  [.array [.string "apply", .array [.string "sum", .string "ipTotalLength"],
      .array [.string "select", .array [.string "greater", .string "ipTotalLength", .number (.natural 70)]]],
    .array [.string "subtract", .string "octetTotalCount", .string "forwardOctetCount"],
    .array [.string "count", .array [.string "map", .array [.string "add", .string "ipTotalLength", .number (.natural 1)],
      .string "forward"]]]

def threePackets : List Packet :=
  [.ofLength 1 60, .ofLength 2 80, (Packet.ofLength 3 90).backward]

theorem compile_reports_evaluations_selective : ∃ p row, selective.compile catalog 4096 = .ok p ∧
    row ∈ rowsOf ⟨p, []⟩ threePackets .forcedEnd 0 ∧ row.values.map (Option.map Value.display) = [some "170", some "90", some "2"] ∧
    row.values.length = selective.features.length ∧ ∀ (i : Nat) json e, selective.features[i]? = some json →
      Expression.ofJson json = .ok e → row.values[i]? = some (evaluate e .forcedEnd threePackets) := by
  have free : ∀ json ∈ selective.features, ∀ e, Expression.ofJson json = .ok e → Free (unfolded e) := by
    have each : (selective.features.all fun json => (Expression.ofJson json).toOption.all (Free <| unfolded ·)) = true := by
      decide +kernel
    intro json member e read
    have held := List.all_eq_true.mp each json member
    rw [read] at held
    exact of_decide_eq_true held
  obtain ⟨p, row, compiled, member, shown⟩ :=
    exists_row (show shownRows selective threePackets = [[some "170", some "90", some "2"]] by decide +kernel)
  exact ⟨p, row, compiled, member, shown, compile_reports_evaluations compiled rfl rfl free [] threePackets .forcedEnd 0 member⟩

/-- Whatever is compiled along with a feature in which no operator has constants only, its value is that of the feature
alone. -/
theorem reported_alone {limit : Nat} (compiled : s.compile catalog limit = .ok p) (uncontrolled : s.control = [])
    (unfiltered : s.filter = []) {i : Nat} {json : Json} {e : Expression} (held : s.features[i]? = some json)
    (read : Expression.ofJson json = .ok e) (free : Free (unfolded e)) {p' : Program Instance PacketFilter}
    (alone : (Specification.ofFeatures [json]).compile catalog limit = .ok p') (exporters : List Exporter)
    (packets : List Packet) (reason : EndReason) (now : Int64) {row row' : Row}
    (member : row ∈ rowsOf ⟨p, exporters⟩ packets reason now)
    (member' : row' ∈ rowsOf ⟨p', exporters⟩ packets reason now) :
    row'.values.length = 1 ∧ ∃ value, row.values[i]? = some value ∧ row'.values[0]? = some value := by
  obtain ⟨-, values⟩ := (compiled_of_compile compiled uncontrolled unfiltered).reports exporters packets reason now member
  obtain ⟨count, values'⟩ := (compiled_of_compile alone rfl rfl).reports exporters packets reason now member'
  exact ⟨count, _, values i json e held read free, values' 0 json e rfl read free⟩

def sumOfConstants : Json :=
  .array [.string "add", .number (.natural 1), .number (.natural 2)]

def countedLengths : Json :=
  .array [.string "count", .array [.string "add", .string "ipTotalLength", .number (.natural 1)]]

theorem reported_alone_counted : ∃ p p' row row',
    (Specification.ofFeatures [sumOfConstants, countedLengths]).compile catalog 4096 = .ok p ∧
      (Specification.ofFeatures [countedLengths]).compile catalog 4096 = .ok p' ∧
      row ∈ rowsOf ⟨p, []⟩ threePackets .forcedEnd 0 ∧ row' ∈ rowsOf ⟨p', []⟩ threePackets .forcedEnd 0 ∧
      row.values.map (Option.map Value.display) = [some "3", some "3"] ∧
      row'.values.length = 1 ∧ ∃ value, row.values[1]? = some value ∧ row'.values[0]? = some value := by
  obtain ⟨p, row, compiled, member, shown⟩ := exists_row
    (show shownRows (.ofFeatures [sumOfConstants, countedLengths]) threePackets = [[some "3", some "3"]] by decide +kernel)
  obtain ⟨p', row', alone, member', -⟩ := exists_row
    (show shownRows (.ofFeatures [countedLengths]) threePackets = [[some "3"]] by decide +kernel)
  exact ⟨p, p', row, row', compiled, alone, member, member', shown,
    reported_alone compiled rfl rfl rfl rfl (by decide +kernel) alone [] threePackets .forcedEnd 0 member member'⟩

/-- An operator on constants that is a feature of its own runs once for a flow; then its values are not counted once for each
packet. -/
theorem sharing_changes_count : ∃ p p' row row',
    (Specification.ofFeatures [sumOfConstants, .array [.string "count", sumOfConstants]]).compile catalog 4096 = .ok p ∧
      (Specification.ofFeatures [.array [.string "count", sumOfConstants]]).compile catalog 4096 = .ok p' ∧
      row ∈ rowsOf ⟨p, []⟩ threePackets .forcedEnd 0 ∧ row' ∈ rowsOf ⟨p', []⟩ threePackets .forcedEnd 0 ∧
      row.values[1]? ≠ row'.values[0]? := by
  obtain ⟨p, row, compiled, member, shown⟩ := exists_row
    (show shownRows (.ofFeatures [sumOfConstants, .array [.string "count", sumOfConstants]]) threePackets =
      [[some "3", some "1"]] by decide +kernel)
  obtain ⟨p', row', alone, member', shown'⟩ := exists_row
    (show shownRows (.ofFeatures [.array [.string "count", sumOfConstants]]) threePackets = [[some "3"]] by decide +kernel)
  refine ⟨p, p', row, row', compiled, alone, member, member', fun same => ?_⟩
  have one : (row.values.map (Option.map Value.display))[1]? = some (some "1") := by
    rw [shown]
    rfl
  have three : (row'.values.map (Option.map Value.display))[0]? = some (some "3") := by
    rw [shown']
    rfl
  rw [List.getElem?_map, same, ← List.getElem?_map, three] at one
  exact absurd one (by decide)

end FlowMetering.Library
