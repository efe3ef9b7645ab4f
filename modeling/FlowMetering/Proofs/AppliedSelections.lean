import FlowMetering.Proofs.DirectedFeatures
import FlowMetering.Proofs.SoleArguments

/-! Features behind selections. Whatever is applied to the same selections reads the packets that these let through from one
argument: equal selections share their registers, whether a feature of whole flows reads them or a packet feature does whose
values are gathered. -/

namespace FlowMetering

open Allocation (Refers Regular Suits Tidy)

namespace Library

/-- A feature behind selections. The first of them is nearest to the feature, and the last one sees the packets first. -/
def applied (feature : Json) (selections : List Json) : Json :=
  selections.foldl (fun feature selection => .array [.string "apply", feature, selection]) feature

def Selects (selection : Json) (input : Bound Instance) : Prop :=
  ∃ e bound, Expression.ofJson selection = .ok e ∧ Takes .selection (unfolded e) bound ∧ Bound.settled bound = input

private theorem Selects.unique {selection : Json} {input input' : Bound Instance} (selects : Selects selection input)
    (selects' : Selects selection input') : input = input' := by
  obtain ⟨e, bound, read, takes, rfl⟩ := selects
  obtain ⟨e', bound', read', takes', rfl⟩ := selects'
  obtain rfl := Except.ok.inj (read.symm.trans read')
  obtain rfl := Except.ok.inj (takes.symm.trans takes')
  rfl

private theorem Selects.suits {selection : Json} {input : Bound Instance} (selects : Selects selection input) :
    Suits .selection input := by
  obtain ⟨e, bound, read, takes, rfl⟩ := selects
  exact (settled_regular (written_unfolded (Expression.written_ofJson selection e read)) (by decide) takes).2

/-- Inputs that are put in the place of the raw input one after the other. -/
def fedAll (inputs : List (Bound Instance)) (tree : Bound Instance) : Bound Instance :=
  inputs.foldl (fun tree input => Tree.fedBy input tree) tree

theorem fedAll_call (inputs : List (Bound Instance)) (binding : Binding Instance) (args : List (Bound Instance)) :
    fedAll inputs (.call binding args) = .call binding (args.map (fedAll inputs)) := by
  induction inputs generalizing args with
  | nil => rw [fedAll, List.foldl_nil, show fedAll [] = id from rfl, List.map_id]
  | cons input inputs ih =>
    rw [fedAll, List.foldl_cons, Tree.fedBy_call]
    exact (ih _).trans (by rw [List.map_map]; rfl)

private theorem fedAll_suits {inputs : List (Bound Instance)} {tree : Bound Instance} {kind : Kind} (suits : Suits kind tree) :
    Suits kind (fedAll inputs tree) := by
  induction inputs generalizing tree with
  | nil => exact suits
  | cons input inputs ih => exact ih (suits.fedBy input)

private theorem settled_applied {feature : Json} {selections : List Json} {e : Expression} {bound : Bound Instance}
    (read : Expression.ofJson (applied feature selections) = .ok e) (takes : Takes .flowFeature (unfolded e) bound) :
    ∃ e₁ bound₁ inputs, Expression.ofJson feature = .ok e₁ ∧ Takes .flowFeature (unfolded e₁) bound₁ ∧
      List.Forall₂ Selects selections inputs ∧ Bound.settled bound = fedAll inputs (Bound.settled bound₁) := by
  induction selections using List.reverseRecOn generalizing e bound with
  | nil => exact ⟨e, bound, [], read, takes, .nil, rfl⟩
  | append_singleton selections selection ih =>
    rw [applied, List.foldl_append] at read
    obtain ⟨args, each, rfl⟩ := map_eq_ok.mp (show (Expression.ofJsons [applied feature selections, selection]).map
      (.call "apply") = .ok e from read)
    obtain ⟨e', read', each⟩ := bind_eq_ok.mp each
    obtain ⟨rest, second, each⟩ := bind_eq_ok.mp each
    obtain ⟨e₂, read₂, second⟩ := bind_eq_ok.mp second
    obtain rfl := Except.ok.inj second
    obtain rfl := Except.ok.inj each
    have unfolds : unfolded (.call "apply" [e', e₂]) = .call "apply" [unfolded e', unfolded e₂] := rfl
    rw [unfolds] at takes
    have written : ∀ {json : Json} {e : Expression}, Expression.ofJson json = .ok e → (unfolded e).Written :=
      fun read => written_unfolded (Expression.written_ofJson _ _ read)
    obtain ⟨candidate, bounds, rfl, binds⟩ := takes_call takes
    have drawn : Bound.Over catalog (.call ⟨candidate, .flowFeature⟩ bounds) :=
      Bound.over_ofExpression (unfolds ▸ (written read).scalar) takes
    have entry := apply_of_name (Catalog.mem_entries drawn.head) binds.name
    obtain ⟨bound', bound₂, rfl, first, last⟩ := binds.pair
      (show candidate.entry.arguments = [.flowFeature, .selection] by rw [entry]; rfl) (by decide) (by decide) (by decide)
    obtain ⟨e₁, bound₁, inputs, read₁, takes₁, selects, settled⟩ := ih read' first
    refine ⟨e₁, bound₁, inputs ++ [Bound.settled bound₂], read₁, takes₁,
      List.rel_append selects (.cons ⟨e₂, bound₂, read₂, last, rfl⟩ .nil), ?_⟩
    have suits := (settled_regular (written read') (by decide) first).2
    rw [Bound.settled_substitution (by rw [entry]; rfl) (by rw [entry]; rfl),
      Tree.withInput_eq_fedBy (fun mark raw => by rw [raw] at suits; exact suits), settled, fedAll, fedAll, List.foldl_append]
    rfl

private theorem ofJson_name {name : String} {e : Expression} (read : Expression.ofJson (.string name) = .ok e) :
    e = .call name [.raw ()] := by
  rw [Expression.ofJson] at read
  split at read
  · cases read
  · exact (Except.ok.inj read).symm

section Sources

private theorem definition?_of_flowSource {name : String} {gather : EndReason → List Packet → Option Value}
    (source : flowSource? name = some gather) : definition? name = none := by
  unfold flowSource? at source
  split at source <;> first | rfl | cases source

private theorem definition?_of_packetSource {name : String} {read : Packet → Option Value} (source : packetSource? name = some read) :
    definition? name = none := by
  unfold packetSource? at source
  split at source <;> first | rfl | cases source

private theorem definition?_of_aggregate {name : String} {gather : List Value → Option Value}
    (gathers : aggregate? name = some gather) : definition? name = none ∧ flowSource? name = none := by
  unfold aggregate? at gathers
  split at gathers <;> first | exact ⟨rfl, rfl⟩ | cases gathers

variable {bound : Bound Instance}

private theorem takes_packetSource {name : String} {read : Packet → Option Value} (source : packetSource? name = some read)
    (takes : Takes .packetFeature (.call name [.raw ()]) bound) : ∃ (binding : Binding Instance) (s : Instance),
      binding.chosen.entry.build = some (fun _ => s) ∧ Reads s read ∧
        Bound.settled bound = .call binding [.raw .rawPacket] := by
  obtain ⟨⟨id, entry⟩, bounds, rfl, binds⟩ := takes_call takes
  have stock : Stock entry := binds.stock
  obtain rfl : entry.name = name := binds.name
  cases stock with
  | packetSource found result arguments build reads explicit =>
    obtain ⟨bound, rfl, held⟩ := binds.sole arguments nofun nofun
    obtain ⟨-, rfl⟩ := takes_raw held
    obtain rfl := Option.some.inj (found.symm.trans source)
    refine ⟨⟨⟨id, entry⟩, .packetFeature⟩, _, build, reads, ?_⟩
    rw [Bound.settled_call build, explicit]
    rfl
  | flowSource found result => cases result.symm.trans (binds.own (by rw [result]; exact nofun))
  | aggregate found result => cases result.symm.trans (binds.own (by rw [result]; exact nofun))
  | operator op => exact absurd (binds.each rfl).1 (by decide)
  | map => exact absurd rfl (binds.not_substitution (.inr rfl))
  | _ => cases binds.own nofun

private theorem takes_flowSource {name : String} {gather : EndReason → List Packet → Option Value}
    (source : flowSource? name = some gather) (takes : Takes .flowFeature (.call name [.raw ()]) bound) :
    ∃ (binding : Binding Instance) (s : Instance), binding.chosen.entry.name = name ∧
      binding.chosen.entry.build = some (fun _ => s) ∧ Sums s gather ∧
        Bound.settled bound = .call binding [.raw .rawFlow] := by
  obtain ⟨⟨id, entry⟩, bounds, rfl, binds⟩ := takes_call takes
  have stock : Stock entry := binds.stock
  obtain rfl : entry.name = name := binds.name
  cases stock with
  | flowSource found result arguments build sums explicit =>
    obtain ⟨bound, rfl, held⟩ := binds.sole arguments nofun nofun
    obtain ⟨-, rfl⟩ := takes_raw held
    obtain rfl := Option.some.inj (found.symm.trans source)
    refine ⟨⟨⟨id, entry⟩, .flowFeature⟩, _, rfl, build, sums, ?_⟩
    rw [Bound.settled_call build, explicit]
    rfl
  | aggregate found result arguments build collects explicit =>
    obtain ⟨bound, rfl, held⟩ := binds.sole arguments nofun nofun
    cases (takes_raw held).1
  | packetSource found result => cases result.symm.trans (binds.own (by rw [result]; exact nofun))
  | operator op => exact absurd (binds.each rfl).1 (by decide)
  | apply => exact absurd rfl (binds.not_substitution (.inl rfl))
  | _ => cases binds.own nofun

private theorem takes_aggregate {rule source : String} {args : List Expression} {gather : List Value → Option Value}
    (gathers : aggregate? rule = some gather) (takes : Takes .flowFeature (.call rule [.call source args]) bound) :
    ∃ (binding : Binding Instance) (s : Instance) (inner : Bound Instance),
      binding.chosen.entry.build = some (fun _ => s) ∧ Collects s gather ∧
        Takes .packetFeature (.call source args) inner ∧ Bound.settled bound = .call binding [Bound.settled inner] := by
  obtain ⟨⟨id, entry⟩, bounds, rfl, binds⟩ := takes_call takes
  have stock : Stock entry := binds.stock
  obtain rfl : entry.name = rule := binds.name
  cases stock with
  | aggregate found result arguments build collects explicit =>
    obtain ⟨bound, rfl, held⟩ := binds.sole arguments nofun nofun
    obtain rfl := Option.some.inj (found.symm.trans gathers)
    refine ⟨⟨⟨id, entry⟩, .flowFeature⟩, _, bound, build, collects, held, ?_⟩
    rw [Bound.settled_call build, explicit]
    rfl
  | flowSource found => cases found.symm.trans (definition?_of_aggregate gathers).2
  | packetSource found result => cases result.symm.trans (binds.own (by rw [result]; exact nofun))
  | operator op => exact absurd (binds.each rfl).1 (by simp)
  | apply => exact absurd rfl (binds.not_substitution (.inl rfl))
  | _ => cases binds.own nofun

end Sources

section Registers

variable {φ : Type} {nodes : List (Node Instance)}

private theorem refers_unique {catalog : Catalog Instance φ} (tidy : Tidy catalog nodes) {a a' : Argument} {tree : Plain}
    (refers : Refers nodes a tree) (refers' : Refers nodes a' tree) : a = a' := by
  have shared := shared_of_tidy tidy
  induction refers generalizing a' with
  | raw mark =>
    cases refers'
    rfl
  | constant found known args entry =>
    cases refers' with
    | constant found' known' args' entry' =>
      exact congrArg Argument.register (tidy.index_unique found found'
        ((shared.constants _ _ _ found known).trans (shared.constants _ _ _ found' known').symm))
  | call found varies entry plain count each ih =>
    cases refers' with
    | call found' varies' entry' plain' count' each' =>
      rename_i r node binding trees r' node'
      have args : node.args = node'.args := List.ext_getElem (count.trans count'.symm) fun i small small' =>
        ih _ (getElem_mem_zip count i small) (each' _ (getElem_mem_zip count' i small'))
      exact congrArg Argument.register (tidy.index_unique found found'
        ((shared.calls _ _ _ found entry).trans (args ▸ (shared.calls _ _ _ found' entry').symm)))

theorem found_of_front {p : Program Instance φ} {more : List (Node Instance)} (extended : p.nodes = nodes ++ more) {r : Nat}
    {node : Node Instance} (found : nodes[r]? = some node) : p.nodes[r]? = some node := by
  rw [extended, List.getElem?_append_left (List.getElem?_eq_some_iff.mp found).1]
  exact found

structure Admissible (tree : Bound Instance) : Prop where
  drawn : Bound.Over catalog tree
  regular : Regular tree
  sound : (plain tree).All (fun _ => True) Sound

private theorem Admissible.arg {binding : Binding Instance} {args : List (Bound Instance)} (admissible : Admissible (.call binding args))
    {arg : Bound Instance} (member : arg ∈ args) : Admissible arg where
  drawn := admissible.drawn.arg member
  regular := admissible.regular.arg member
  sound := by
    have sound := admissible.sound
    rw [plain, Tree.map_call] at sound
    exact sound.arg (List.mem_map_of_mem member)

private theorem Admissible.selection {binding : Binding Instance} {args : List (Bound Instance)}
    (admissible : Admissible (.call binding args)) (suits : Suits .selection (.call binding args)) {build : Kind → Instance}
    (built : binding.chosen.entry.build = some build) (kind : Kind) : (build kind).role? = some .selection := by
  have sound := admissible.sound
  rw [plain, Tree.map_call] at sound
  have result : binding.chosen.entry.result = .selection := by
    cases admissible.regular with
    | own each fixed working same => exact same.trans suits
    | taken each taken suits' => exact absurd ⟨taken, suits⟩ sound.head
  have stock := stock_of_over admissible.drawn
  generalize binding.chosen.entry = entry at stock built result
  cases stock with
  | packetSource found own => cases own.symm.trans result
  | flowSource found own => cases own.symm.trans result
  | aggregate found own => cases own.symm.trans result
  | direction | select | sliceFrom | sliceBetween =>
    cases built
    rfl
  | _ => cases result

/-- An argument that refers to what selections let through of the raw input. -/
def Passage (nodes : List (Node Instance)) (selections : List Json) (a : Argument) : Prop :=
  ∃ inputs mark, List.Forall₂ Selects selections inputs ∧ Refers nodes a (fedAll inputs (.raw mark)) ∧
    Admissible (fedAll inputs (.raw mark))

namespace Passage

variable {selections : List Json} {a a' : Argument}

private theorem unique (passage : Passage nodes selections a) (passage' : Passage nodes selections a') (tidy : Tidy catalog nodes) :
    a = a' := by
  obtain ⟨inputs, mark, selects, refers, -⟩ := passage
  obtain ⟨inputs', mark', selects', refers', -⟩ := passage'
  have functional : Relator.RightUnique Selects := fun _ _ _ => Selects.unique
  obtain rfl := List.right_unique_forall₂' functional selects selects'
  cases inputs with
  | nil =>
    cases refers
    cases refers'
    rfl
  | cons input inputs => exact refers_unique tidy (refers_plain refers) (refers_plain refers')

private theorem raw (passage : Passage nodes [] a) : a = .raw := by
  obtain ⟨inputs, mark, selects, refers, -⟩ := passage
  obtain rfl := List.forall₂_nil_left_iff.mp selects
  cases refers
  rfl

private theorem exists_entry {q : Nat} (passage : Passage nodes selections (.register q)) :
    ∃ (node : Node Instance) (chosen : Registered Instance), nodes[q]? = some node ∧ node.constant = none ∧
      node.entry = some chosen ∧
        ∀ build, chosen.entry.build = some build → ∀ kind, (build kind).role? = some .selection := by
  obtain ⟨inputs, mark, selects, refers, admissible⟩ := passage
  have suits : Suits .selection (fedAll inputs (.raw mark)) := by
    cases selects with
    | nil => cases refers
    | @cons _ input _ inputs first rest => exact (fedAll_suits first.suits : Suits .selection (fedAll inputs input))
  generalize fedAll inputs (.raw mark) = tree at refers admissible suits
  cases refers with
  | constant => cases suits
  | call found varies entry plain count each =>
    exact ⟨_, _, found, varies, entry, fun build built => admissible.selection suits built⟩

variable {p : Program Instance φ} {more : List (Node Instance)} (extended : p.nodes = nodes ++ more)
include extended

private theorem free (passage : Passage nodes selections a) : p.known a = none := by
  cases a with
  | raw => rfl
  | register q =>
    obtain ⟨node, chosen, found, varies, -⟩ := passage.exists_entry
    exact (Program.known_of_found (found_of_front extended found)).trans varies

private theorem gates (passage : Passage nodes selections a) : Gates p a := by
  rintro q rfl s ⟨node, build, found, built, role, -⟩
  obtain ⟨node', chosen, found', -, entry, selection⟩ := passage.exists_entry
  cases (found_of_front extended found').symm.trans found
  rw [Node.build?, entry] at built
  exact role.trans (selection build built node.kind)

end Passage

def Fed (p : Program Instance φ) (r : Nat) (a : Argument) (s : Instance) : Prop :=
  ∃ node, p.nodes[r]? = some node ∧ node.args = [a] ∧ node.isControl = false ∧ node.constant = none ∧
    node.build? = some fun _ => s

theorem Fed.varies {p : Program Instance φ} {r : Nat} {a : Argument} {s : Instance} (fed : Fed p r a s) :
    p.known (.register r) = none := by
  obtain ⟨node, found, -, -, varies, -⟩ := fed
  exact (Program.known_of_found found).trans varies

theorem Fed.sole {p : Program Instance φ} {r : Nat} {a : Argument} {s : Instance} (fed : Fed p r a s) (free : p.known a = none) :
    Sole p r a := by
  obtain ⟨node, found, args, plain, -⟩ := fed
  refine ⟨⟨node, found, plain, args ▸ List.mem_singleton_self a, fun arg member => .inl ?_⟩, free⟩
  exact List.mem_singleton.mp (args ▸ member)

private theorem fed_of_refers {p : Program Instance φ} {more : List (Node Instance)} (extended : p.nodes = nodes ++ more) {r : Nat}
    {binding : Binding Instance} {tree : Bound Instance} {s : Instance} (built : binding.chosen.entry.build = some fun _ => s)
    (refers : Refers nodes (.register r) (.call binding [tree])) : ∃ a, Refers nodes a tree ∧ Fed p r a s := by
  cases refers with
  | call found varies entry plain count each =>
    rename_i node
    obtain ⟨a, single⟩ := List.length_eq_one_iff.mp (show node.args.length = 1 from count)
    refine ⟨a, each (a, tree) (by rw [single]; exact List.mem_singleton_self _), node, found_of_front extended found, single,
      plain, varies, ?_⟩
    rw [Node.build?, entry]
    exact built

end Registers

section Compiled

variable {limit : Nat} {s : Specification} {p : Program Instance PacketFilter}

private theorem CompiledTo.applied {nodes : List (Node Instance)} {r : Nat} {feature : Json} {selections : List Json}
    (compiledTo : CompiledTo nodes (applied feature selections) r) : ∃ e bound inputs,
      Expression.ofJson feature = .ok e ∧ Takes .flowFeature (unfolded e) bound ∧ List.Forall₂ Selects selections inputs ∧
        Refers nodes (.register r) (fedAll inputs (Bound.settled bound)) ∧
        Admissible (fedAll inputs (Bound.settled bound)) := by
  obtain ⟨e, bound, read, takes, sound, refers⟩ := compiledTo
  obtain ⟨e₁, bound₁, inputs, read₁, takes₁, selects, settled⟩ := settled_applied read takes
  have written := written_unfolded (Expression.written_ofJson _ e read)
  have drawn : Bound.Over catalog (Bound.settled bound) :=
    (Bound.over_ofExpression written.scalar takes).withImplicitInputs.lower
  have regular := (settled_regular written (by decide) takes).1
  rw [settled] at sound refers drawn regular
  exact ⟨e₁, bound₁, inputs, read₁, takes₁, selects, refers, drawn, regular, sound⟩

section Registers

variable {nodes more : List (Node Instance)} (extended : p.nodes = nodes ++ more) {r : Nat} {selections : List Json}
include extended

omit extended in
private theorem CompiledTo.flowCall {name : String} {gather : EndReason → List Packet → Option Value}
    (source : flowSource? name = some gather) (compiledTo : CompiledTo nodes (Library.applied (.string name) selections) r) :
    ∃ (binding : Binding Instance) (initial : Instance) (inputs : List (Bound Instance)),
      binding.chosen.entry.name = name ∧ binding.chosen.entry.build = some (fun _ => initial) ∧ Sums initial gather ∧
        List.Forall₂ Selects selections inputs ∧
        Refers nodes (.register r) (.call binding [fedAll inputs (.raw .rawFlow)]) ∧
        Admissible (.call binding [fedAll inputs (.raw .rawFlow)]) := by
  obtain ⟨e, bound, inputs, read, takes, selects, refers, admissible⟩ := compiledTo.applied
  obtain rfl := ofJson_name read
  rw [unfolded, definition?_of_flowSource source, Option.getD_none] at takes
  obtain ⟨binding, initial, named, built, sums, settled⟩ := takes_flowSource source takes
  rw [settled, fedAll_call, List.map_singleton] at refers admissible
  exact ⟨binding, initial, inputs, named, built, sums, selects, refers, admissible⟩

/-- A feature of whole flows behind selections has a register with its instance, which reads what the selections let through. -/
theorem CompiledTo.flowSource {name : String} {gather : EndReason → List Packet → Option Value}
    (source : flowSource? name = some gather) (compiledTo : CompiledTo nodes (Library.applied (.string name) selections) r) :
    ∃ a initial, Passage nodes selections a ∧ Sums initial gather ∧ Fed p r a initial := by
  obtain ⟨binding, initial, inputs, -, built, sums, selects, refers, admissible⟩ := compiledTo.flowCall source
  obtain ⟨a, reads, fed⟩ := fed_of_refers extended built refers
  exact ⟨a, initial, ⟨inputs, _, selects, reads, admissible.arg (List.mem_singleton_self _)⟩, sums, fed⟩

/-- The register has been made for an entry with the name of the feature. -/
theorem CompiledTo.named {name : String} {gather : EndReason → List Packet → Option Value}
    (source : flowSource? name = some gather) (compiledTo : CompiledTo nodes (Library.applied (.string name) selections) r) :
    ∃ node chosen, p.nodes[r]? = some node ∧ node.entry = some chosen ∧ chosen.entry ∈ entries ∧ chosen.entry.name = name := by
  obtain ⟨binding, initial, inputs, named, -, -, -, refers, admissible⟩ := compiledTo.flowCall source
  cases refers with
  | call found varies entry plain count each =>
    exact ⟨_, _, found_of_front extended found, entry, Catalog.mem_entries admissible.drawn.head, named⟩

private theorem CompiledTo.gathers {rule source : String} {gather : List Value → Option Value} {read : Packet → Option Value}
    (gathers : aggregate? rule = some gather) (reads : packetSource? source = some read)
    (compiledTo : CompiledTo nodes (Library.applied (.array [.string rule, .string source]) selections) r) :
    ∃ a d initial reader, Passage nodes selections a ∧ Collects initial gather ∧ Fed p r (.register d) initial ∧
      Reads reader read ∧ Fed p d a reader := by
  obtain ⟨e, bound, inputs, written, takes, selects, refers, admissible⟩ := compiledTo.applied
  obtain ⟨args, each, rfl⟩ := map_eq_ok.mp (show (Expression.ofJsons [.string source]).map (.call rule) = .ok e from written)
  obtain ⟨e', named, each⟩ := bind_eq_ok.mp each
  obtain rfl := Except.ok.inj each
  obtain rfl := ofJson_name named
  rw [unfolded, (definition?_of_aggregate gathers).1, Option.getD_none, unfoldedAll, unfoldedAll, unfolded,
    definition?_of_packetSource reads, Option.getD_none] at takes
  obtain ⟨binding, initial, inner, built, collects, takes, settled⟩ := takes_aggregate gathers takes
  obtain ⟨binding', reader, built', reads, settled'⟩ := takes_packetSource reads takes
  rw [settled, settled', fedAll_call, List.map_singleton, fedAll_call, List.map_singleton] at refers admissible
  obtain ⟨d, inside, fed⟩ := fed_of_refers extended built refers
  cases d with
  | raw => cases inside
  | register d =>
    obtain ⟨a, last, fed'⟩ := fed_of_refers extended built' inside
    have admissible := (admissible.arg (List.mem_singleton_self _)).arg (List.mem_singleton_self _)
    exact ⟨a, d, initial, reader, ⟨inputs, _, selects, last, admissible⟩, collects, fed, reads, fed'⟩

end Registers

/-- The registers of a compiled program that have been made for features are in front of those of controls. -/
structure Headed (s : Specification) (p : Program Instance PacketFilter) (nodes more : List (Node Instance)) : Prop where
  extended : p.nodes = nodes ++ more
  tidy : Tidy catalog nodes
  count : p.exports.length = s.features.length
  feature : ∀ {i : Nat} {json}, s.features[i]? = some json → ∃ r, p.exports[i]? = some r ∧ CompiledTo nodes json r

theorem exists_headed (compiled : s.compile catalog limit = .ok p) : ∃ nodes more, Headed s p nodes more := by
  obtain ⟨stages⟩ := Specification.compile_stages compiled
  obtain ⟨made, exported, same⟩ := exported_of_stages stages
  have controlled := Allocation.addControls_controlled stages.controls.zipIdx made
  rw [← same] at controlled
  obtain ⟨more, added, -⟩ := controlled.nodes
  have each := features_compiled stages exported
  have exports : p.exports = made.exports.map (·.register) := by
    rw [Allocation.program_exports stages.finished, controlled.exports]
  refine ⟨made.nodes, more, (Allocation.program_nodes stages.finished).trans added, exported.tidy, ?_, fun {i json} listed => ?_⟩
  · rw [exports, List.length_map, each.length_eq]
  · obtain ⟨inside, here⟩ := List.getElem?_eq_some_iff.mp listed
    have inside' : i < made.exports.length := each.length_eq ▸ inside
    have compiledTo : CompiledTo made.nodes s.features[i] made.exports[i].register := each.get inside inside'
    refine ⟨made.exports[i].register, ?_, here ▸ compiledTo⟩
    rw [exports, List.getElem?_map, List.getElem?_eq_getElem inside']
    rfl

/-- An argument of a compiled program that gives, to all features that are applied to the same selections, the packets that
these let through. -/
structure Opening (s : Specification) (p : Program Instance PacketFilter) (selections : List Json) (a : Argument) : Prop where
  free : p.known a = none
  gates : Gates p a
  raw : selections = [] → a = .raw
  sums : ∀ {i : Nat} {name gather}, s.features[i]? = some (applied (.string name) selections) →
    flowSource? name = some gather → ∃ r initial, p.exports[i]? = some r ∧ Sums initial gather ∧ Fed p r a initial
  collects : ∀ {i : Nat} {rule source gather read},
    s.features[i]? = some (applied (.array [.string rule, .string source]) selections) → aggregate? rule = some gather →
    packetSource? source = some read → ∃ r d initial reader, p.exports[i]? = some r ∧ Collects initial gather ∧
      Fed p r (.register d) initial ∧ Reads reader read ∧ Fed p d a reader

/-- What one feature reads behind the selections, all features behind them read. -/
theorem Headed.opening {nodes more : List (Node Instance)} (headed : Headed s p nodes more) {selections : List Json}
    {a : Argument} (passage : Passage nodes selections a) : Opening s p selections a where
  free := passage.free headed.extended
  gates := passage.gates headed.extended
  raw none := by
    subst none
    exact passage.raw
  sums listed source := by
    obtain ⟨r, exports, compiledTo⟩ := headed.feature listed
    obtain ⟨a', initial, passage', sums, fed⟩ := compiledTo.flowSource headed.extended source
    obtain rfl := passage.unique passage' headed.tidy
    exact ⟨r, initial, exports, sums, fed⟩
  collects listed gathers source := by
    obtain ⟨r, exports, compiledTo⟩ := headed.feature listed
    obtain ⟨a', d, initial, reader, passage', collects, fed, reads, fed'⟩ := compiledTo.gathers headed.extended gathers source
    obtain rfl := passage.unique passage' headed.tidy
    exact ⟨r, d, initial, reader, exports, collects, fed, reads, fed'⟩

theorem exists_opening (compiled : s.compile catalog limit = .ok p) (selections : List Json) :
    ∃ a, Opening s p selections a := by
  obtain ⟨nodes, more, headed⟩ := exists_headed compiled
  -- any feature behind the selections tells the argument
  by_cases used : ∃ a, Passage nodes selections a
  · obtain ⟨a, passage⟩ := used
    exact ⟨a, headed.opening passage⟩
  · refine ⟨.raw, rfl, nofun, fun _ => rfl, fun listed source => ?_, fun listed gathers source => ?_⟩
    · obtain ⟨r, exports, compiledTo⟩ := headed.feature listed
      obtain ⟨a', initial, passage', -⟩ := compiledTo.flowSource headed.extended source
      exact absurd ⟨a', passage'⟩ used
    · obtain ⟨r, exports, compiledTo⟩ := headed.feature listed
      obtain ⟨a', d, initial, reader, passage', -⟩ := compiledTo.gathers headed.extended gathers source
      exact absurd ⟨a', passage'⟩ used

end Compiled

end Library

end FlowMetering
