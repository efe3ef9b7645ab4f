import FlowMetering.Proofs.LiveStreams

/-! Lowered expressions evaluate like the expressions that they come from. Substitution has put a selection tree into
the place of each raw input; what the selection lets through is what the feature sees. -/

namespace FlowMetering.Library

def Grounded (tree : Plain) : Prop :=
  ∀ mark, .raw mark ∉ tree.subtrees

structure Own (binding : Binding Instance) (role : Role) : Prop where
  result : binding.chosen.entry.result = role.kind
  kind : binding.kind = role.kind

/-- An expression and what lowering makes of it where `input` stands for the raw packets. A selection in front of what
reads no packets leaves no trace. -/
inductive Lowers : Role → Expression → Plain → Plain → Prop
  | constant {role : Role} {input : Plain} {value : Value} (other : role ≠ .selection) :
    Lowers role (.constant value) input (.constant value)
  | packetSource {name : String} {input : Plain} {binding : Binding Instance} {s : Instance}
    {read : Packet → Option Value} (found : packetSource? name = some read) (built : instance? binding = some s)
    (reads : Reads s read) (own : Own binding .packet) : Lowers .packet (.call name [.raw ()]) input (.call binding [input])
  | flowSource {name : String} {input : Plain} {binding : Binding Instance} {s : Instance}
    {gather : EndReason → List Packet → Option Value} (found : flowSource? name = some gather)
    (built : instance? binding = some s) (sums : Sums s gather) (own : Own binding .flow) :
    Lowers .flow (.call name [.raw ()]) input (.call binding [input])
  | aggregate {name : String} {arg : Expression} {input tree : Plain} {binding : Binding Instance} {s : Instance}
    {gather : List Value → Option Value} (found : aggregate? name = some gather) (built : instance? binding = some s)
    (collects : Collects s gather) (lowers : Lowers .packet arg input tree) (own : Own binding .flow) :
    Lowers .flow (.call name [arg]) input (.call binding [tree])
  | operator {role : Role} {op : Operator} {args : List Expression} {input : Plain} {trees : List Plain}
    {binding : Binding Instance} (other : role ≠ .selection)
    (built : instance? binding = some (.operator op role.kind [] [])) (count : args.length = trees.length)
    (lowers : ∀ pair ∈ args.zip trees, Lowers role pair.1 input pair.2)
    (varies : ∃ tree ∈ trees, constant? tree = none) (result : binding.chosen.entry.result = .matchType)
    (kind : binding.kind = role.kind) : Lowers role (.call op.name args) input (.call binding trees)
  | map {feature selection : Expression} {input between tree : Plain} (selects : Lowers .selection selection input between)
    (lowers : Lowers .packet feature between tree) : Lowers .packet (.call "map" [feature, selection]) input tree
  | mapConstant {feature selection : Expression} {input : Plain} {value : Value}
    (lowers : Lowers .packet feature (.raw ()) (.constant value)) :
    Lowers .packet (.call "map" [feature, selection]) input (.constant value)
  | apply {feature selection : Expression} {input between tree : Plain} (selects : Lowers .selection selection input between)
    (lowers : Lowers .flow feature between tree) : Lowers .flow (.call "apply" [feature, selection]) input tree
  | applyGrounded {feature selection : Expression} {input tree : Plain} (grounded : Grounded tree)
    (lowers : Lowers .flow feature (.raw ()) tree) : Lowers .flow (.call "apply" [feature, selection]) input tree
  | direction {forward : Bool} {input : Plain} {binding : Binding Instance}
    (built : instance? binding = some (.direction forward)) (own : Own binding .selection) :
    Lowers .selection (.call (if forward then "forward" else "backward") [.raw ()]) input (.call binding [input])
  | select {arg : Expression} {input tree : Plain} {binding : Binding Instance}
    (built : instance? binding = some (.predicate none none)) (lowers : Lowers .packet arg input tree)
    (own : Own binding .selection) :
    Lowers .selection (.call "select" [arg]) input (.call binding [tree, input])
  | sliceFrom {start : Value} {input : Plain} {binding : Binding Instance}
    (built : instance? binding = some (.slice 0 none 0)) (own : Own binding .selection) :
    Lowers .selection (.call "select_slice" [.constant start]) input (.call binding [.constant start, input])
  | sliceBetween {start stop : Value} {input : Plain} {binding : Binding Instance}
    (built : instance? binding = some (.slice 0 none 0)) (own : Own binding .selection) :
    Lowers .selection (.call "select_slice" [.constant start, .constant stop]) input
      (.call binding [.constant start, .constant stop, input])

private theorem Meaning.ofExpressions_eq_map (args : List Expression) : ofExpressions args = args.map ofExpression := by
  induction args with
  | nil => rfl
  | cons arg args ih => rw [ofExpressions, ih, List.map_cons]

private theorem Meaning.ofExpression_call (name : String) (args : List Expression) :
    ofExpression (.call name args) = call name (args.map ofExpression) := by
  rw [ofExpression, ofExpressions_eq_map]

private theorem Meaning.ofExpression_one (name : String) (arg : Expression) :
    ofExpression (.call name [arg]) = call name [ofExpression arg] := rfl

private theorem Meaning.constant_one (name : String) (arg : Meaning) : (call name [arg]).constant = none := by
  unfold call
  dsimp only
  split <;> simp_all

private theorem Meaning.constant_operator (op : Operator) (args : List Meaning) : (call op.name args).constant = none := by
  cases op <;> rfl

/-- Lowering gives a constant exactly for what amounts to one. -/
theorem Lowers.constant?_eq {role : Role} {e : Expression} {input tree : Plain} (lowers : Lowers role e input tree) :
    constant? tree = (Meaning.ofExpression e).constant := by
  induction lowers with
  | constant other => rfl
  | packetSource found built reads own => rw [Meaning.ofExpression_call]; exact (Meaning.constant_one _ _).symm
  | flowSource found built sums own => rw [Meaning.ofExpression_call]; exact (Meaning.constant_one _ _).symm
  | aggregate found built collects lowers own ih => rw [Meaning.ofExpression_call]; exact (Meaning.constant_one _ _).symm
  | operator other built count lowers varies result kind ih =>
    rw [Meaning.ofExpression_call]; exact (Meaning.constant_operator _ _).symm
  | map selects lowers ihs ih => rw [Meaning.ofExpression_call, ih]; rfl
  | apply selects lowers ihs ih => rw [Meaning.ofExpression_call, ih]; rfl
  | mapConstant lowers ih => rw [Meaning.ofExpression_call, ih]; rfl
  | applyGrounded grounded lowers ih => rw [Meaning.ofExpression_call, ih]; rfl
  | direction built own => rw [Meaning.ofExpression_call]; exact (Meaning.constant_one _ _).symm
  | select built lowers own ih => rw [Meaning.ofExpression_call]; rfl
  | sliceFrom built own => rw [Meaning.ofExpression_call]; rfl
  | sliceBetween built own => rw [Meaning.ofExpression_call]; rfl

theorem Lowers.hasRole {role : Role} {e : Expression} {input tree : Plain} (lowers : Lowers role e input tree)
    (has : Live.HasRole .selection (awake input)) : Live.HasRole role (awake tree) := by
  have start {s : Instance} {role : Role} (held : s.role? = some role) (constants : List (Option Value))
      (args : List Live) : Live.HasRole role (.call (some (s.startOn constants)) args) :=
    (Instance.role?_start _ s).trans held
  induction lowers with
  | constant other => exact other
  | packetSource found built reads own => rw [awake_call built]; exact start reads.role _ _
  | flowSource found built sums own => rw [awake_call built]; exact start sums.role _ _
  | aggregate found built collects lowers own ih => rw [awake_call built]; exact start collects.role _ _
  | operator other built count lowers varies result kind ih =>
    rename_i role op args input trees binding
    rw [awake_call built]
    refine start ?_ _ _
    rw [Instance.role?_operator]
    cases role with
    | packet => rfl
    | selection => exact absurd rfl other
    | flow => rfl
  | map selects lowers ihs ih => exact ih (ihs has)
  | mapConstant lowers ih => exact ih rfl
  | apply selects lowers ihs ih => exact ih (ihs has)
  | applyGrounded grounded lowers ih => exact ih rfl
  | direction built own | select built lowers own ih | sliceFrom built own | sliceBetween built own =>
    rw [awake_call built]; exact start rfl _ _

/-- What lowering keeps: the values, the packets let through, or the result, as the role has it. -/
def Agrees (role : Role) (e : Expression) (input tree : Plain) (packets : List Packet) : Prop :=
  match role with
  | .packet => constant? tree = none →
    (Live.emissions (awake tree) packets).map Emission.value? =
      (Meaning.ofExpression e).values (Live.stream (awake input) packets)
  | .selection =>
    Live.stream (awake tree) packets = (Meaning.ofExpression e).passed (Live.stream (awake input) packets)
  | .flow => ∀ reason, Live.result reason (Live.after (awake tree) packets) =
    (Meaning.ofExpression e).result reason (Live.stream (awake input) packets)

/-- A meaning that is a constant has no values on packets, and the constant as its result. -/
private def Meaning.Constantly (role : Role) (meaning : Meaning) (value : Value) : Prop :=
  match role with
  | .packet => ∀ stream, (meaning.values stream).reduceOption = []
  | .selection => True
  | .flow => ∀ reason stream, meaning.result reason stream = some value

private theorem Lowers.constantly {role : Role} {e : Expression} {input tree : Plain} (lowers : Lowers role e input tree)
    {value : Value} (known : constant? tree = some value) : (Meaning.ofExpression e).Constantly role value := by
  induction lowers with
  | constant other =>
    rename_i role input value'
    cases known
    cases role with
    | packet =>
      intro stream
      exact (List.reduceOption_eq_nil_iff _).mpr ⟨stream.length, List.map_const' ..⟩
    | selection => trivial
    | flow => exact fun reason stream => rfl
  | map selects lowers ihs ih => exact fun stream => ih known _
  | mapConstant lowers ih => exact fun stream => ih known _
  | apply selects lowers ihs ih => exact fun reason stream => ih known _ _
  | applyGrounded grounded lowers ih => exact fun reason stream => ih known _ _
  | _ => cases known

private theorem Meaning.values_source {name : String} {read : Packet → Option Value} (found : packetSource? name = some read)
    (arg : Meaning) (stream : Stream) : (call name [arg]).values stream = stream.map fun packet => packet.bind read := by
  unfold packetSource? at found
  split at found <;> cases found <;> rfl

private theorem Meaning.result_source {name : String} {gather : EndReason → List Packet → Option Value}
    (found : flowSource? name = some gather) (arg : Meaning) (reason : EndReason) (stream : Stream) :
    (call name [arg]).result reason stream = gather reason stream.reduceOption := by
  unfold flowSource? at found
  split at found <;> cases found <;> rfl

private theorem Meaning.result_aggregate {name : String} {gather : List Value → Option Value}
    (found : aggregate? name = some gather) (arg : Meaning) (reason : EndReason) (stream : Stream) :
    (call name [arg]).result reason stream = gather (arg.values stream).reduceOption := by
  unfold aggregate? at found
  split at found <;> cases found <;> rfl

private theorem Meaning.values_operator (op : Operator) (args : List Meaning) (stream : Stream) :
    (call op.name args).values stream = operate op stream.length (args.map fun arg => arg.readings stream) := by
  cases op <;> rfl

private theorem Meaning.result_operator (op : Operator) (args : List Meaning) (reason : EndReason) (stream : Stream) :
    (call op.name args).result reason stream = op.evaluate (args.map fun arg => arg.result reason stream) := by
  cases op <;> rfl

private theorem Lowers.values_eq {e : Expression} {input tree : Plain} {packets : List Packet} (lowers : Lowers .packet e input tree)
    (agrees : Agrees .packet e input tree packets) :
    ((Live.emissions (awake tree) packets).map Emission.value?).reduceOption =
      ((Meaning.ofExpression e).values (Live.stream (awake input) packets)).reduceOption := by
  cases known : constant? tree with
  | none => rw [agrees known]
  | some value =>
    rw [lowers.constantly known, constant_of_constant? known, awake, Live.values_constant]
    exact (List.reduceOption_eq_nil_iff _).mpr ⟨packets.length, List.map_const' ..⟩

private theorem Lowers.readings_eq {e : Expression} {input tree : Plain} {packets : List Packet} (lowers : Lowers .packet e input tree)
    (agrees : Agrees .packet e input tree packets) :
    Live.readings (awake tree) packets = (Meaning.ofExpression e).readings (Live.stream (awake input) packets) := by
  rw [Live.readings, Meaning.readings, constant?_awake, ← lowers.constant?_eq]
  cases known : constant? tree with
  | none => exact agrees known
  | some value =>
    dsimp only
    rw [List.map_const', List.map_const', Live.stream_length]

theorem map_eq_of_zip {α β γ : Type} {f : α → γ} {g : β → γ} {as : List α} {bs : List β} (count : as.length = bs.length)
    (same : ∀ pair ∈ as.zip bs, f pair.1 = g pair.2) : as.map f = bs.map g := by
  induction as generalizing bs with
  | nil => rw [List.length_eq_zero_iff.mp count.symm, List.map_nil, List.map_nil]
  | cons a as ih =>
    cases bs with
    | nil => cases count
    | cons b bs =>
      rw [List.map_cons, List.map_cons, same (a, b) List.mem_cons_self,
        ih (Nat.succ.inj count) fun pair member => same pair (List.mem_cons_of_mem _ member)]

theorem getElem_mem_zip {α β : Type} {as : List α} {bs : List β} (count : as.length = bs.length) (i : Nat)
    (small : i < as.length) : (as[i], bs.get ⟨i, count ▸ small⟩) ∈ as.zip bs :=
  List.mem_iff_getElem.mpr ⟨i, by rw [List.length_zip]; omega, List.getElem_zip⟩

theorem exists_zip_left {α β : Type} {as : List α} {bs : List β} (count : as.length = bs.length) {b : β}
    (member : b ∈ bs) : ∃ a, (a, b) ∈ as.zip bs := by
  obtain ⟨i, small, rfl⟩ := List.mem_iff_getElem.mp member
  exact ⟨_, getElem_mem_zip count i (count ▸ small)⟩

theorem exists_zip_right {α β : Type} {as : List α} {bs : List β} (count : as.length = bs.length) {a : α}
    (member : a ∈ as) : ∃ b, (a, b) ∈ as.zip bs := by
  obtain ⟨i, small, rfl⟩ := List.mem_iff_getElem.mp member
  exact ⟨_, getElem_mem_zip count i small⟩

private theorem grounded_call {binding : Binding Instance} {args : List Plain} :
    Grounded (.call binding args) ↔ ∀ arg ∈ args, Grounded arg := by
  constructor
  · intro grounded arg member mark inside
    exact grounded mark (Tree.mem_subtrees_call.mpr (.inl ⟨arg, member, inside⟩))
  · intro each mark inside
    rcases Tree.mem_subtrees_call.mp inside with ⟨arg, member, inside⟩ | same
    · exact each arg member mark inside
    · cases same

private theorem Lowers.reads_selection {role : Role} {e : Expression} {input tree : Plain} (lowers : Lowers role e input tree)
    (reads : ¬Grounded input) (selects : role = .selection) : ¬Grounded tree := by
  cases lowers with
  | direction built own | select built lowers own | sliceFrom built own | sliceBetween built own =>
    exact fun grounded => reads (grounded_call.mp grounded input (by simp))
  | constant other => exact absurd selects other
  | operator other built count lowers varies result kind => exact absurd selects other
  | _ => cases selects

/-- A packet feature that reads no packets is a constant. -/
theorem Lowers.grounded_constant {role : Role} {e : Expression} {input tree : Plain} (lowers : Lowers role e input tree)
    (reads : ¬Grounded input) (packet : role = .packet) (grounded : Grounded tree) : constant? tree ≠ none := by
  induction lowers with
  | constant other => exact nofun
  | packetSource found built source own =>
    exact absurd (grounded_call.mp grounded _ (List.mem_singleton_self _)) reads
  | operator other built count lowers varies result kind ih =>
    obtain ⟨tree, member, unknown⟩ := varies
    obtain ⟨arg, paired⟩ := exists_zip_left count member
    exact absurd unknown (ih _ paired reads packet (grounded_call.mp grounded tree member))
  | map selects lowers ihs ih => exact ih (selects.reads_selection reads rfl) rfl grounded
  | mapConstant lowers ih => exact nofun
  | _ => cases packet

private theorem slots_awake (trees : List Plain) : trees.map constant? = Live.slots (trees.map awake) := by
  rw [Live.slots, List.map_map]
  exact List.map_congr_left fun tree _ => (constant?_awake tree).symm

private theorem Lowers.hasRole_each {role : Role} {args : List Expression} {input : Plain} {trees : List Plain}
    (count : args.length = trees.length) (lowers : ∀ pair ∈ args.zip trees, Lowers role pair.1 input pair.2)
    (has : Live.HasRole .selection (awake input)) : ∀ live ∈ trees.map awake, Live.HasRole role live := by
  intro live member
  obtain ⟨tree, inside, rfl⟩ := List.mem_map.mp member
  obtain ⟨arg, paired⟩ := exists_zip_left count inside
  exact (lowers _ paired).hasRole has

private theorem result_of_results {op : Operator} {args : List Expression} {trees : List Plain} {binding : Binding Instance}
    (built : instance? binding = some (.operator op Role.flow.kind [] []))
    (hasArgs : ∀ live ∈ trees.map awake, Live.HasRole .flow live) {packets : List Packet} {reason : EndReason} {stream : Stream}
    (results : (args.map fun arg => (Meaning.ofExpression arg).result reason stream) =
      trees.map fun tree => Live.result reason (Live.after (awake tree) packets)) :
    Live.result reason (Live.after (awake (.call binding trees)) packets) =
      (Meaning.ofExpression (.call op.name args)).result reason stream := by
  rw [awake_call built, Instance.startOn_operator, slots_awake, Meaning.ofExpression_call, Meaning.result_operator,
    List.map_map]
  refine (Live.result_operator op hasArgs packets reason).trans ?_
  rw [List.map_map]
  exact congrArg _ results.symm

private theorem Lowers.grounded_result {role : Role} {e : Expression} {input tree : Plain} (lowers : Lowers role e input tree)
    (flow : role = .flow) (has : Live.HasRole .selection (awake input)) (reads : ¬Grounded input) (grounded : Grounded tree)
    (packets : List Packet) (reason : EndReason) (stream : Stream) :
    Live.result reason (Live.after (awake tree) packets) = (Meaning.ofExpression e).result reason stream := by
  induction lowers generalizing stream with
  | constant other =>
    rw [awake, Live.after_constant]
    rfl
  | flowSource found built sums own => exact absurd (grounded_call.mp grounded _ (List.mem_singleton_self _)) reads
  | aggregate found built collects lowers own ih =>
    rename_i name arg input tree binding s gather
    obtain ⟨value, known⟩ := Option.ne_none_iff_exists'.mp
      (lowers.grounded_constant reads rfl (grounded_call.mp grounded _ (List.mem_singleton_self _)))
    rw [awake_call built, Meaning.ofExpression_one, Meaning.result_aggregate found, lowers.constantly known,
      constant_of_constant? known, Instance.startOn, collects.start]
    refine (Live.result_collects collects (show Live.HasRole .packet (.constant value) by rintro ⟨⟩) packets reason).trans ?_
    rw [Live.values_constant, (List.reduceOption_eq_nil_iff _).mpr ⟨packets.length, List.map_const' ..⟩]
  | operator other built count lowers varies result kind ih =>
    subst flow
    refine result_of_results built (Lowers.hasRole_each count lowers has) (map_eq_of_zip count fun pair paired => ?_)
    exact (ih pair paired rfl has reads (grounded_call.mp grounded _ (List.of_mem_zip paired).2) stream).symm
  | apply selects lowers ihs ih =>
    exact ih rfl (selects.hasRole has) (selects.reads_selection reads rfl) grounded _
  | applyGrounded grounded lowers ih =>
    exact ih rfl rfl (fun g => g () (Tree.mem_subtrees_self _)) grounded _
  | _ => cases flow

theorem Lowers.agrees {role : Role} {e : Expression} {input tree : Plain} (lowers : Lowers role e input tree)
    (has : Live.HasRole .selection (awake input)) (packets : List Packet) : Agrees role e input tree packets := by
  induction lowers with
  | constant other =>
    rename_i role input value
    cases role with
    | packet => exact nofun
    | selection => exact absurd rfl other
    | flow =>
      intro reason
      rw [awake, Live.after_constant]
      rfl
  | packetSource found built reads own =>
    intro _
    rw [awake_call built, Meaning.ofExpression_one, Meaning.values_source found]
    exact Live.emissions_reads (reads.startOn _) has packets
  | flowSource found built sums own =>
    intro reason
    rw [awake_call built, Meaning.ofExpression_one, Meaning.result_source found,
      Instance.startOn, sums.start]
    exact Live.result_sums sums has packets reason
  | aggregate found built collects lowers own ih =>
    intro reason
    rw [awake_call built, Meaning.ofExpression_one, Meaning.result_aggregate found,
      Instance.startOn, collects.start]
    refine (Live.result_collects collects (lowers.hasRole has) packets reason).trans ?_
    rw [lowers.values_eq (ih has)]
  | operator other built count lowers varies result kind ih =>
    rename_i role op args input trees binding
    have hasArgs := Lowers.hasRole_each count lowers has
    cases role with
    | selection => exact absurd rfl other
    | packet =>
      intro _
      have varying : ∃ live ∈ trees.map awake, constant? live = none := by
        obtain ⟨tree, inside, unknown⟩ := varies
        exact ⟨_, List.mem_map_of_mem inside, (constant?_awake tree).trans unknown⟩
      have columns : (args.map fun arg =>
          (Meaning.ofExpression arg).readings (Live.stream (awake input) packets)) =
            trees.map fun tree => Live.readings (awake tree) packets :=
        map_eq_of_zip count fun pair paired => ((lowers pair paired).readings_eq (ih pair paired has)).symm
      rw [awake_call built, Instance.startOn_operator, slots_awake, Meaning.ofExpression_call, Meaning.values_operator,
        Live.stream_length, List.map_map]
      refine (Live.emissions_operator op hasArgs varying packets).trans ?_
      rw [List.map_map]
      exact congrArg _ columns.symm
    | flow =>
      intro reason
      exact result_of_results built hasArgs (map_eq_of_zip count fun pair paired => (ih pair paired has reason).symm)
  | map selects lowers ihs ih =>
    intro unknown
    rw [ih (selects.hasRole has) unknown, ihs has]
    rfl
  | mapConstant lowers ih => exact nofun
  | apply selects lowers ihs ih =>
    intro reason
    rw [ih (selects.hasRole has) reason, ihs has]
    rfl
  | applyGrounded grounded lowers ih =>
    intro reason
    exact lowers.grounded_result rfl rfl (fun raw => raw () (Tree.mem_subtrees_self _)) grounded packets reason _
  | direction built own =>
    rename_i forward input binding
    change Live.stream _ packets = _
    rw [awake_call built, Meaning.ofExpression_one]
    refine (Live.stream_direction has packets).trans ?_
    cases forward with
    | true =>
      refine List.map_congr_left fun packet _ => ?_
      cases packet with
      | none => rfl
      | some p => simp
    | false =>
      refine List.map_congr_left fun packet _ => ?_
      cases packet with
      | none => rfl
      | some p => simp
  | select built lowers own ih =>
    rename_i arg input tree binding
    have started : Instance.startOn [constant? tree, constant? input] (.predicate none none) =
        .predicate ((constant? (awake tree)).map Value.isTruthy) none := by
      rw [constant?_awake]
      rfl
    change Live.stream _ packets = _
    rw [awake_call built]
    change Live.stream (.call (some (Instance.startOn [constant? tree, constant? input] _)) [awake tree, awake input])
      packets = _
    rw [started, Live.stream_select (lowers.hasRole has) has, lowers.readings_eq (ih has)]
    rfl
  | sliceFrom built own =>
    rename_i start input binding
    have started : Instance.startOn [some start, constant? input] (.slice 0 none 0) =
        .slice (((some start).bind index?).getD 0).toNat none 0 := by
      rw [← constant?_awake input, has.not_constant]
      rfl
    change Live.stream _ packets = _
    rw [awake_call built]
    change Live.stream (.call (some (Instance.startOn [some start, constant? input] _)) ([.constant start] ++ [awake input]))
      packets = _
    rw [started, Live.stream_slice (List.forall_mem_singleton.mpr rfl) has]
    rfl
  | sliceBetween built own =>
    rename_i start stop input binding
    change Live.stream _ packets = _
    rw [awake_call built]
    change Live.stream (.call (some (Instance.startOn [some start, some stop, constant? input] _))
      ([.constant start, .constant stop] ++ [awake input])) packets = _
    exact (Live.stream_slice (List.forall_mem_cons.mpr ⟨rfl, List.forall_mem_singleton.mpr rfl⟩) has _ _ 0 packets).trans rfl

end FlowMetering.Library
