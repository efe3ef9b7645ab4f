import FlowMetering.Proofs.ConstantKeys
import FlowMetering.Proofs.RegisterOrder
import FlowMetering.Proofs.TypeResolution

/-! Allocation as a map from expressions to registers. Every expression of a program has its register, the registers of
its arguments are those of the call, and the kind of a register is that of some expression that it was made for. -/

namespace FlowMetering.Allocation

variable {σ φ ρ : Type} {catalog : Catalog σ φ}

/-- An argument refers to an expression, whatever kind it has been bound for. -/
inductive Refers (nodes : List (Node σ)) : Argument → Tree ρ (Binding σ) → Prop
  | raw (mark : ρ) : Refers nodes .raw (.raw mark)
  | constant {r : Nat} {node : Node σ} {value : Value} (found : nodes[r]? = some node)
    (known : node.constant = some value) (args : node.args = []) (entry : node.entry = none) :
    Refers nodes (.register r) (.constant value)
  | call {r : Nat} {node : Node σ} {binding : Binding σ} {args : List (Tree ρ (Binding σ))}
    (found : nodes[r]? = some node) (varies : node.constant = none) (entry : node.entry = some binding.chosen)
    (plain : node.isControl = false) (count : node.args.length = args.length)
    (each : ∀ pair ∈ node.args.zip args, Refers nodes pair.1 pair.2) : Refers nodes (.register r) (.call binding args)

def Extends (nodes nodes' : List (Node σ)) : Prop :=
  ∀ (r : Nat) (node : Node σ), nodes[r]? = some node →
    ∃ mark : Option String, nodes'[r]? = some { node with exported := mark }

private theorem Extends.refl (nodes : List (Node σ)) : Extends nodes nodes :=
  fun _ node found => ⟨node.exported, found⟩

private theorem Extends.trans {first middle last : List (Node σ)} (a : Extends first middle) (b : Extends middle last) :
    Extends first last := by
  intro r node found
  obtain ⟨mark, found'⟩ := a r node found
  obtain ⟨mark', found''⟩ := b r _ found'
  exact ⟨mark', found''⟩

theorem Extends.append (nodes more : List (Node σ)) : Extends nodes (nodes ++ more) := fun _ node found =>
  ⟨node.exported, (List.getElem?_append_left (List.getElem?_eq_some_iff.mp found).1).trans found⟩

/-- Where there are no further registers, every register is one from before. -/
theorem Extends.back {nodes nodes' : List (Node σ)} (larger : Extends nodes nodes') (same : nodes'.length = nodes.length)
    {r : Nat} {node' : Node σ} (found : nodes'[r]? = some node') :
    ∃ (node : Node σ) (mark : Option String), nodes[r]? = some node ∧ node' = { node with exported := mark } := by
  have inside : r < nodes.length := same ▸ (List.getElem?_eq_some_iff.mp found).1
  obtain ⟨mark, found'⟩ := larger r nodes[r] (List.getElem?_eq_getElem inside)
  exact ⟨nodes[r], mark, List.getElem?_eq_getElem inside, Option.some.inj (found.symm.trans found')⟩

theorem Refers.extend {nodes nodes' : List (Node σ)} (larger : Extends nodes nodes') {arg : Argument}
    {tree : Tree ρ (Binding σ)} (refers : Refers nodes arg tree) : Refers nodes' arg tree := by
  induction refers with
  | raw mark => exact .raw mark
  | constant found known args entry =>
    obtain ⟨mark, found'⟩ := larger _ _ found
    exact .constant found' known args entry
  | call found varies entry plain count each ih =>
    obtain ⟨mark, found'⟩ := larger _ _ found
    exact .call found' varies entry plain count ih

private theorem Refers.node {nodes : List (Node σ)} {r : Nat} {tree : Tree ρ (Binding σ)}
    (refers : Refers nodes (.register r) tree) : ∃ node, nodes[r]? = some node := by
  cases refers with
  | constant found known args entry => exact ⟨_, found⟩
  | call found varies entry plain count each => exact ⟨_, found⟩

/-- What an operator takes where the context asks for a kind: a constant, or a call that gives it. -/
def Suits (kind : Kind) : Bound σ → Prop
  | .raw _ => False
  | .constant _ => kind.acceptsConstant = true
  | .call binding _ => binding.kind = kind

/-- An entry that is no control gives its own kind, or what the context asks for; then so do its arguments. -/
inductive Regular : Bound σ → Prop
  | raw (mark : Kind) : Regular (.raw mark)
  | constant (value : Value) : Regular (.constant value)
  | own {binding : Binding σ} {args : List (Bound σ)} (each : ∀ arg ∈ args, Regular arg)
    (fixed : binding.chosen.entry.result ≠ .matchType) (working : binding.chosen.entry.result ≠ .control)
    (kind : binding.chosen.entry.result = binding.kind) : Regular (.call binding args)
  | taken {binding : Binding σ} {args : List (Bound σ)} (each : ∀ arg ∈ args, Regular arg)
    (taken : binding.chosen.entry.result = .matchType) (suits : ∀ arg ∈ args, Suits binding.kind arg) :
    Regular (.call binding args)

theorem Regular.arg {binding : Binding σ} {args : List (Bound σ)} (regular : Regular (.call binding args)) {arg : Bound σ}
    (member : arg ∈ args) : Regular arg := by
  cases regular with
  | own each fixed working kind => exact each arg member
  | taken each taken suits => exact each arg member

/-- Each register has been made for a constant or a call, and no two have one key. -/
structure Tidy (catalog : Catalog σ φ) (nodes : List (Node σ)) : Prop where
  held : ∀ (r : Nat) (node : Node σ), nodes[r]? = some node →
    (∃ value : Value, value.IsScalar ∧ Refers nodes (.register r) (.constant value : Bound σ) ∧
      node.key = Typed.constantKey value) ∨
    ∃ (binding : Binding σ) (args : List (Bound σ)), Bound.Over catalog (.call binding args) ∧
      Regular (.call binding args) ∧ Refers nodes (.register r) (.call binding args) ∧ node.kind = binding.kind ∧
      node.key = Typed.callKey binding.chosen (node.args.map argumentKey)
  distinct : (nodes.map (·.key)).Nodup

theorem Tidy.empty : Tidy catalog ([] : List (Node σ)) where
  held _ _ found := nomatch found
  distinct := List.nodup_nil

private theorem Tidy.mark {nodes nodes' : List (Node σ)} (tidy : Tidy catalog nodes) (larger : Extends nodes nodes')
    (same : nodes'.length = nodes.length) : Tidy catalog nodes' := by
  constructor
  · intro r node' found
    obtain ⟨node, mark, found', rfl⟩ := larger.back same found
    rcases tidy.held r node found' with ⟨value, scalar, refers, key⟩ | ⟨binding, args, drawn, regular, refers, kind, key⟩
    · exact .inl ⟨value, scalar, refers.extend larger, key⟩
    · exact .inr ⟨binding, args, drawn, regular, refers.extend larger, kind, key⟩
  · have keys : nodes'.map (·.key) = nodes.map (·.key) := by
      refine List.ext_getElem? fun r => ?_
      rw [List.getElem?_map, List.getElem?_map]
      cases found : nodes'[r]? with
      | none =>
        rw [List.getElem?_eq_none (same ▸ List.getElem?_eq_none_iff.mp found)]
      | some node' =>
        obtain ⟨node, mark, found', rfl⟩ := larger.back same found
        rw [found']
        rfl
    rw [keys]
    exact tidy.distinct

theorem Tidy.index_unique {nodes : List (Node σ)} (tidy : Tidy catalog nodes) {r r' : Nat} {node node' : Node σ}
    (found : nodes[r]? = some node) (found' : nodes[r']? = some node') (same : node.key = node'.key) : r = r' := by
  have keys : (nodes.map (·.key))[r]? = (nodes.map (·.key))[r']? := by
    rw [List.getElem?_map, List.getElem?_map, found, found', Option.map_some, Option.map_some, same]
  refine (List.getElem?_inj ?_ tidy.distinct).mp keys
  rw [List.length_map]
  exact (List.getElem?_eq_some_iff.mp found).1

/-- A register with the key of a constant holds the constant. -/
theorem Tidy.key_constant {nodes : List (Node σ)} (tidy : Tidy catalog nodes) {r : Nat} {node : Node σ}
    (found : nodes[r]? = some node) {value : Value} (scalar : value.IsScalar) :
    node.key = Typed.constantKey value ↔ node.constant = some value := by
  rcases tidy.held r node found with ⟨value', scalar', refers, key⟩ | ⟨binding, args, drawn, regular, refers, kind, key⟩
  · cases refers with
    | constant found' known none entry =>
      obtain rfl := Option.some.inj (found.symm.trans found')
      rw [key, known]
      exact ⟨fun same => congrArg some (constantKey_inj scalar' scalar same), fun same => congrArg _ (Option.some.inj same)⟩
  · cases refers with
    | call found' varies entry plain count each =>
      obtain rfl := Option.some.inj (found.symm.trans found')
      rw [key, varies]
      exact iff_of_false (constantKey_ne_callKey scalar binding.chosen node.args).symm nofun

/-- A register with the key of a call has its entry and its arguments. -/
theorem Tidy.key_call {nodes : List (Node σ)} (tidy : Tidy catalog nodes) {r : Nat} {node : Node σ}
    (found : nodes[r]? = some node) {chosen : Registered σ} (registered : chosen ∈ catalog.registered) {args : List Argument} :
    node.key = Typed.callKey chosen (args.map argumentKey) ↔ node.entry = some chosen ∧ node.args = args := by
  rcases tidy.held r node found with ⟨value, scalar, refers, key⟩ | ⟨binding, trees, drawn, regular, refers, kind, key⟩
  · cases refers with
    | constant found' known none entry =>
      obtain rfl := Option.some.inj (found.symm.trans found')
      rw [key, entry]
      exact iff_of_false (constantKey_ne_callKey scalar chosen args) (by rintro ⟨⟨⟩, -⟩)
  · cases refers with
    | call found' varies entry plain count each =>
      obtain rfl := Option.some.inj (found.symm.trans found')
      rw [key, entry]
      constructor
      · intro same
        obtain ⟨rfl, rfl⟩ := callKey_inj drawn.head registered same
        exact ⟨rfl, rfl⟩
      · rintro ⟨same, rfl⟩
        rw [Option.some.inj same]

/-- A register that is placed is a new one, or one with its key. -/
theorem place_cases (a : Allocation σ) (node : Node σ) :
    (∃ r found, a.place node = (a, r) ∧ a.nodes[r]? = some found ∧ found.key = node.key) ∨
      a.place node = ({ a with nodes := a.nodes ++ [node] }, a.nodes.length) ∧ node.key ∉ a.nodes.map (·.key) := by
  rw [place]
  split
  next r index =>
    obtain ⟨inside, same, -⟩ := List.findIdx?_eq_some_iff_getElem.mp index
    exact .inl ⟨r, a.nodes[r], rfl, List.getElem?_eq_getElem inside, beq_iff_eq.mp same⟩
  next missing =>
    refine .inr ⟨rfl, fun member => ?_⟩
    obtain ⟨found, inside, same⟩ := List.mem_map.mp member
    have absent := List.findIdx?_eq_none_iff.mp missing found inside
    rw [same, beq_self_eq_true] at absent
    cases absent

private theorem Tidy.append {nodes : List (Node σ)} {node : Node σ} (tidy : Tidy catalog nodes)
    (fresh : node.key ∉ nodes.map (·.key))
    (made : (∃ value : Value, value.IsScalar ∧ Refers (nodes ++ [node]) (.register nodes.length) (.constant value : Bound σ) ∧
        node.key = Typed.constantKey value) ∨
      ∃ (binding : Binding σ) (args : List (Bound σ)), Bound.Over catalog (.call binding args) ∧
        Regular (.call binding args) ∧ Refers (nodes ++ [node]) (.register nodes.length) (.call binding args) ∧
        node.kind = binding.kind ∧ node.key = Typed.callKey binding.chosen (node.args.map argumentKey)) :
    Tidy catalog (nodes ++ [node]) := by
  constructor
  · intro r found held
    rcases Nat.lt_trichotomy r nodes.length with inside | rfl | beyond
    · rw [List.getElem?_append_left inside] at held
      rcases tidy.held r found held with ⟨value, scalar, refers, key⟩ | ⟨binding, args, drawn, regular, refers, kind, key⟩
      · exact .inl ⟨value, scalar, refers.extend (.append _ _), key⟩
      · exact .inr ⟨binding, args, drawn, regular, refers.extend (.append _ _), kind, key⟩
    · rw [List.getElem?_concat_length] at held
      cases held
      exact made
    · rw [List.getElem?_eq_none (by simp; omega)] at held
      cases held
  · rw [List.map_append, List.map_singleton]
    refine List.nodup_append.mpr ⟨tidy.distinct, List.nodup_singleton _, ?_⟩
    intro key member other singleton same
    rw [same, List.mem_singleton.mp singleton] at member
    exact fresh member

structure Allocated (catalog : Catalog σ φ) (before after : Allocation σ) : Prop where
  tidy : Tidy catalog after.nodes
  larger : Extends before.nodes after.nodes
  exports : after.exports = before.exports
  controls : after.controls = before.controls

private theorem Allocated.note {before after : Allocation σ} (allocated : Allocated catalog before after) (signature : String)
    (r : Nat) : Allocated catalog before (after.note signature r) := by
  unfold Allocation.note
  split
  · exact allocated
  · exact ⟨allocated.tidy, allocated.larger, allocated.exports, allocated.controls⟩

private theorem place_constant {a : Allocation σ} (tidy : Tidy catalog a.nodes) {value : Value} (scalar : value.IsScalar)
    (position : Nat) :
    Allocated catalog a (a.place (constantNode position value)).1 ∧
      Refers (ρ := Kind) (a.place (constantNode position value)).1.nodes
        (.register (a.place (constantNode position value)).2) (.constant value) := by
  rcases place_cases a (constantNode position value) with ⟨r, found, same, held, key⟩ | ⟨same, fresh⟩
  · rw [same]
    refine ⟨⟨tidy, .refl _, rfl, rfl⟩, ?_⟩
    rcases tidy.held r found held with ⟨value', scalar', refers, key'⟩ | ⟨binding, args, drawn, regular, refers, kind, key'⟩
    · rw [constantKey_inj scalar scalar' (key.symm.trans key')]
      exact refers
    · exact absurd (key.symm.trans key') (constantKey_ne_callKey scalar binding.chosen found.args)
  · rw [same]
    have refers : Refers (ρ := Kind) (a.nodes ++ [constantNode position value]) (.register a.nodes.length)
        (.constant value) := .constant List.getElem?_concat_length rfl rfl rfl
    exact ⟨⟨tidy.append fresh (.inl ⟨value, scalar, refers, rfl⟩), .append _ _, rfl, rfl⟩, refers⟩

theorem place_call {a : Allocation σ} (tidy : Tidy catalog a.nodes) {typing : Typing σ} {args : List (Bound σ)}
    (drawn : Bound.Over catalog (.call typing.binding args)) (regular : Regular (.call typing.binding args))
    {references : List Argument} (count : references.length = args.length)
    (each : ∀ pair ∈ references.zip args, Refers a.nodes pair.1 pair.2) (position : Nat) (text : String) :
    Allocated catalog a (a.place (callNode position typing text references)).1 ∧
      Refers (a.place (callNode position typing text references)).1.nodes
        (.register (a.place (callNode position typing text references)).2) (.call typing.binding args) := by
  rcases place_cases a (callNode position typing text references) with ⟨r, found, same, held, key⟩ | ⟨same, fresh⟩
  · rw [same]
    refine ⟨⟨tidy, .refl _, rfl, rfl⟩, ?_⟩
    rcases tidy.held r found held with ⟨value', scalar', refers, key'⟩ | ⟨binding, others, drawn', regular', refers, kind, key'⟩
    · exact absurd (key'.symm.trans key) (constantKey_ne_callKey scalar' typing.binding.chosen references)
    · obtain ⟨chosen, arguments⟩ := callKey_inj drawn'.head drawn.head (key'.symm.trans key)
      cases refers with
      | call held' varies entry plain count' each' =>
        obtain rfl := Option.some.inj (held.symm.trans held')
        exact .call held varies (chosen ▸ entry) plain (arguments ▸ count) (arguments ▸ each)
  · rw [same]
    have refers : Refers (a.nodes ++ [callNode position typing text references]) (.register a.nodes.length)
        (.call typing.binding args) :=
      .call List.getElem?_concat_length rfl rfl rfl count fun pair paired => (each pair paired).extend (.append _ _)
    exact ⟨⟨tidy.append fresh (.inr ⟨_, args, drawn, regular, refers, rfl, rfl⟩), .append _ _, rfl, rfl⟩, refers⟩

private theorem Allocated.trans {first middle last : Allocation σ} (a : Allocated catalog first middle)
    (b : Allocated catalog middle last) : Allocated catalog first last :=
  ⟨b.tidy, a.larger.trans b.larger, b.exports.trans a.exports, b.controls.trans a.controls⟩

mutual
/-- Allocating an expression leads to a register that refers to it. -/
theorem addTree_refers (position : Nat) (tree : Typed σ) (a : Allocation σ) (tidy : Tidy catalog a.nodes)
    (drawn : Bound.Over catalog tree.erase) (regular : Regular tree.erase) :
    Allocated catalog a (addTree position tree a).1 ∧
      Refers (addTree position tree a).1.nodes (addTree position tree a).2 tree.erase := by
  cases tree with
  | raw mark => exact ⟨⟨tidy, .refl _, rfl, rfl⟩, .raw mark⟩
  | constant value =>
    obtain ⟨allocated, refers⟩ := place_constant tidy drawn.value position
    exact ⟨allocated.note _ _, by rw [addTree]; simpa only [note_nodes] using! refers⟩
  | call typing args =>
    rw [Typed.erase_call] at drawn regular ⊢
    obtain ⟨allocated, count, each⟩ := addTrees_refers position args a tidy
      (fun arg member => drawn.arg (List.mem_map_of_mem member)) (fun arg member => regular.arg (List.mem_map_of_mem member))
    obtain ⟨placed, refers⟩ := place_call allocated.tidy drawn regular count each position
      (Typed.text (.call typing args))
    rw [addTree_call]
    exact ⟨allocated.trans (placed.note _ _), by simpa only [note_nodes] using! refers⟩
termination_by structural tree

private theorem addTrees_refers (position : Nat) (trees : List (Typed σ)) (a : Allocation σ) (tidy : Tidy catalog a.nodes)
    (drawn : ∀ tree ∈ trees, Bound.Over catalog tree.erase) (regular : ∀ tree ∈ trees, Regular tree.erase) :
    Allocated catalog a (addTrees position trees a).1 ∧
      (addTrees position trees a).2.length = (trees.map Typed.erase).length ∧
      ∀ pair ∈ (addTrees position trees a).2.zip (trees.map Typed.erase),
        Refers (addTrees position trees a).1.nodes pair.1 pair.2 := by
  cases trees with
  | nil => exact ⟨⟨tidy, .refl _, rfl, rfl⟩, rfl, fun _ member => absurd member List.not_mem_nil⟩
  | cons tree trees =>
    obtain ⟨first, refers⟩ := addTree_refers position tree a tidy (drawn tree List.mem_cons_self)
      (regular tree List.mem_cons_self)
    obtain ⟨rest, count, each⟩ := addTrees_refers position trees (addTree position tree a).1 first.tidy
      (fun tree member => drawn tree (List.mem_cons_of_mem _ member))
      (fun tree member => regular tree (List.mem_cons_of_mem _ member))
    refine ⟨first.trans rest, congrArg Nat.succ count, ?_⟩
    exact List.forall_mem_cons.mpr ⟨refers.extend rest.larger, each⟩
termination_by structural trees
end

/-- The registers of some exported fields refer to their expressions. -/
structure Exported (catalog : Catalog σ φ) (a : Allocation σ) (fields : List (Field (Typed σ))) : Prop where
  tidy : Tidy catalog a.nodes
  exports : List.Forall₂ (fun e field => Refers a.nodes (.register e.register) field.tree.erase) a.exports fields
  controls : a.controls = []

theorem addExport_extends {a b : Allocation σ} {e : Export} (inside : e.register < a.nodes.length)
    (added : a.addExport e = .ok b) :
    Extends a.nodes b.nodes ∧ b.nodes.length = a.nodes.length ∧ b.exports = a.exports ++ [e] ∧ b.controls = a.controls := by
  rw [addExport, List.getElem?_eq_getElem inside] at added
  dsimp only at added
  split at added
  · cases added
  · cases added
    refine ⟨fun r node found => ?_, List.length_set, rfl, rfl⟩
    by_cases here : e.register = r
    · subst here
      obtain rfl : a.nodes[e.register] = node := Option.some.inj ((List.getElem?_eq_getElem inside).symm.trans found)
      exact ⟨some e.name, List.getElem?_set_self inside⟩
    · exact ⟨node.exported, (List.getElem?_set_ne here).trans found⟩

private theorem Exported.addField {a b : Allocation σ} {fields : List (Field (Typed σ))} (exported : Exported catalog a fields)
    {position : Nat} {field : Field (Typed σ)} (drawn : Bound.Over catalog field.tree.erase)
    (regular : Regular field.tree.erase) (call : ∀ mark, field.tree.erase ≠ .raw mark)
    (added : a.addField position field = .ok b) : Exported catalog b (fields ++ [field]) := by
  obtain ⟨allocated, refers⟩ := addTree_refers position field.tree a exported.tidy drawn regular
  rw [addField_eq] at added
  generalize reference : (addTree position field.tree a).2 = arg at added refers
  cases arg with
  | raw =>
    generalize field.tree.erase = tree at refers call
    cases refers with
    | raw mark => exact absurd rfl (call mark)
  | register r =>
    have inside : r < (addTree position field.tree a).1.nodes.length := by
      obtain ⟨node, found⟩ := refers.node
      exact (List.getElem?_eq_some_iff.mp found).1
    obtain ⟨larger, same, exports, controls⟩ := addExport_extends inside added
    refine ⟨allocated.tidy.mark larger same, ?_, controls.trans (allocated.controls.trans exported.controls)⟩
    rw [exports, allocated.exports]
    refine List.rel_append (exported.exports.imp fun e field refers => ?_) (.cons (refers.extend larger) .nil)
    exact (refers.extend allocated.larger).extend larger

private theorem Exported.addFields {fields : List (Field (Typed σ) × Nat)} {before : List (Field (Typed σ))} {a b : Allocation σ}
    (exported : Exported catalog a before) (drawn : ∀ field ∈ fields, Bound.Over catalog field.1.tree.erase)
    (regular : ∀ field ∈ fields, Regular field.1.tree.erase)
    (call : ∀ field ∈ fields, ∀ mark, field.1.tree.erase ≠ .raw mark)
    (added : fields.foldlM (fun a field => a.addField (field.2 + 1) field.1) a = .ok b) :
    Exported catalog b (before ++ fields.map (·.1)) := by
  induction fields generalizing before a with
  | nil =>
    cases added
    rwa [List.map_nil, List.append_nil]
  | cons field fields ih =>
    rw [List.foldlM_cons] at added
    obtain ⟨middle, first, rest⟩ := bind_eq_ok.mp added
    have next := exported.addField (drawn field List.mem_cons_self) (regular field List.mem_cons_self)
      (call field List.mem_cons_self) first
    rw [List.map_cons, List.append_cons]
    exact ih next (fun field member => drawn field (List.mem_cons_of_mem _ member))
      (fun field member => regular field (List.mem_cons_of_mem _ member))
      (fun field member => call field (List.mem_cons_of_mem _ member)) rest

/-- There are registers for the expressions of the fields, and no others before the controls come. -/
theorem fields_exported {fields : List (Field (Typed σ))} {controls : List (Registered σ)} {a : Allocation σ}
    (drawn : ∀ field ∈ fields, Bound.Over catalog field.tree.erase) (regular : ∀ field ∈ fields, Regular field.tree.erase)
    (call : ∀ field ∈ fields, ∀ mark, field.tree.erase ≠ .raw mark) (allocated : ofFields fields controls = .ok a) :
    ∃ made, Exported catalog made fields ∧
      a = controls.zipIdx.foldl (fun a (control, i) => a.addControl (i + 1) control) made := by
  obtain ⟨made, added, rest⟩ := bind_eq_ok.mp allocated
  have inside {field : Field (Typed σ) × Nat} (member : field ∈ fields.zipIdx) : field.1 ∈ fields :=
    List.mem_of_getElem? (List.mem_zipIdx_iff_getElem?.mp member)
  have start : Exported catalog (empty : Allocation σ) [] := ⟨.empty, .nil, rfl⟩
  have last := start.addFields (fun field member => drawn field.1 (inside member))
    (fun field member => regular field.1 (inside member)) (fun field member => call field.1 (inside member)) added
  rw [List.zipIdx_map_fst, List.nil_append] at last
  exact ⟨made, last, (Except.ok.inj rest).symm⟩

end FlowMetering.Allocation
