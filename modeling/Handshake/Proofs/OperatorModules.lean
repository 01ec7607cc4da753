import Handshake.Proofs.Feasibility
import Handshake.Proofs.Operators
import Handshake.Proofs.Selects

/-!
# The modules of operators

A multiplier and the floating-point operators connect the parts of the control,
and a datapath, properly: they are well formed once flattened, do not depend on
themselves, and contain the control. Of a floating-point operator only the
control is simulated; its cores come from outside.

What an operator needs of its parts is a list of small obligations: the parts
are well formed, each port is connected once and exists, what is connected is
declared, what a part drives can be driven. `controlParts` collects the three
parts that all operators share, and each obligation is settled for them at once.
A multiplier adds one part, its core, and a floating-point operator adds none.

The ranks of signals are tables. `ownRank` is for the signals of the operator
and `partRank` for those inside of each part; with them the absence of
combinational loops is decided part by part, for every width and latency.
-/

namespace Handshake

namespace Operator

/-! ## The control -/

/-- The parts of the control. -/
def controlParts (latency : Nat) (join delay output : String) : List Part :=
  [joinPart join, delayPart latency delay, outputPart output]

section

variable {latency : Nat} {join delay output : String}

/-- The parts of the control are well formed, as long as a stage is left for the delay. -/
theorem wellFormed_controlParts (h : 1 < latency) :
    ∀ p ∈ controlParts latency join delay output, p.2.WellFormed := by
  have hslots : latency - 1 ≠ 0 := by omega
  simp only [controlParts, List.forall_mem_cons, List.not_mem_nil, false_imp_iff,
    implies_true, and_true]
  exact ⟨(Join.wellFormed_body (by decide)).named join,
    (DelayBuffer.wellFormed_body hslots).named delay,
    (DataBreak.wellFormed_body .dataless).named output⟩

theorem once_controlParts :
    ∀ p ∈ controlParts latency join delay output, (p.1.connections.map Prod.fst).Nodup := by
  simp [controlParts, joinPart, joinInstance, delayPart, delayInstance, outputPart, outputInstance,
    clockWires, sameName, wire]

/-- The parts of the control have no parts of their own. -/
theorem leaf_controlParts :
    ∀ p ∈ controlParts latency join delay output, p.1.moduleName = p.2.name ∧
      Item.instancesOf p.2.items = [] := by
  simp only [controlParts, List.forall_mem_cons, List.not_mem_nil, false_imp_iff,
    implies_true, and_true]
  exact ⟨⟨rfl, rfl⟩, ⟨rfl, instancesOf_delayBuffer (latency - 1)⟩, rfl, rfl⟩

/-- The control connects only ports that its parts have. -/
theorem ports_controlParts :
    ∀ p ∈ controlParts latency join delay output, ∀ c ∈ p.1.connections,
      (p.2.port? c.1).isSome = true := by
  simp only [controlParts, List.forall_mem_cons, List.not_mem_nil, false_imp_iff,
    implies_true, and_true]
  exact ⟨(by decide : ∀ c ∈ (joinPart "").1.connections, ((joinPart "").2.port? c.1).isSome = true),
    (by decide : ∀ c ∈ (delayPart 2 "").1.connections,
      ((delayPart 2 "").2.port? c.1).isSome = true),
      (by decide : ∀ c ∈ (outputPart "").1.connections,
        ((outputPart "").2.port? c.1).isSome = true)⟩

variable {widths : Widths}
    (hbits : ∀ name ∈ "clk" :: controlBits, widths.Declares name ∧ widths.width name = 1)

include hbits in
/--
The control connects its parts to expressions that make sense, if the bits
between them are declared as bits.
-/
theorem connected_controlParts :
    ∀ p ∈ controlParts latency join delay output, ∀ c ∈ p.1.connections, ∀ e ∈ c.2,
      e.Typed widths := by
  have hone : 1 < wordBits := by decide
  simp only [controlBits, List.forall_mem_cons] at hbits
  simp [-Prod.forall, controlParts, joinPart, joinInstance, delayPart, delayInstance, outputPart,
    outputInstance, clockWires, sameName, wire, Expr.Typed, Expr.TypedAll, Expr.size, hbits, hone]

include hbits in
/-- What the parts of the control drive are signals of the operator, or several side by side. -/
theorem outputs_controlParts :
    ∀ p ∈ controlParts latency join delay output, ∀ c ∈ p.1.connections, ∀ e ∈ p.drivenBy c,
      e.IsTarget widths := by
  have hone : 1 < wordBits := by decide
  have hall : (controlParts latency join delay output).flatMap
      (fun p => p.1.connections.flatMap p.drivenBy) =
      [.ident "join_valid", .concat [.ident "rhs_ready", .ident "lhs_ready"], .ident "buff_valid",
        .ident enable, .ident "result_valid"] := rfl
  simp only [controlBits, List.forall_mem_cons] at hbits
  intro p hp c hc e he
  have hmem : e ∈ (controlParts latency join delay output).flatMap fun p =>
      p.1.connections.flatMap p.drivenBy :=
    List.mem_flatMap.mpr ⟨p, hp, List.mem_flatMap.mpr ⟨c, hc, he⟩⟩
  rw [hall] at hmem
  simp only [List.mem_cons, List.not_mem_nil, or_false] at hmem
  rcases hmem with rfl | rfl | rfl | rfl | rfl <;>
    simp [Expr.IsTarget, Expr.IsTargetAll, Expr.size, hbits, hone]

end

/-! ## Ranks -/

/-- The ranks of the signals of an operator, in the order in which they settle. -/
def ownRank : String → Nat :=
  rankIn [("rhs_neg", 1), ("result", 2), ("result_valid", 2), ("buff_valid", 2), ("join_valid", 3),
    (enable, 3), ("lhs_ready", 6), ("rhs_ready", 6)]

/-- The ranks inside of the parts of an operator, by the names of their instances. -/
def partRank (instanceName : String) : String → Nat :=
  rankIn <| match instanceName with
    | "join_inputs" => [("ins_valid", 1), ("outs_valid", 2), ("outs_ready", 4), ("ins_ready", 5)]
    | "buff" => [("clk", 1), ("rst", 1), ("valid_in", 4), ("ready_in", 4), ("valid_out", 1)]
    | "one_slot_break_dv" =>
      [("clk", 1), ("rst", 1), ("outs_ready", 1), ("ins_ready", 2), ("outs_valid", 1),
        ("ins_valid", 3)]
    | _ => [("clk", 1), ("ce", 4), ("a", 1), ("b", 1), ("mul", 1), ("p", 1)]

/-- Numbered registers are in no table, and so have the lowest rank. -/
theorem rankIn_numbered {table : List (String × Nat)} {stem : String}
    (h : ∀ name ∈ table.map Prod.fst, ¬ stem.toList <+: name.toList) (i : Nat) :
    rankIn table (stem ++ i.repr) = 0 := by
  have hnone : table.lookup (stem ++ i.repr) = none := by
    refine List.lookup_eq_none_iff.mpr fun entry hentry => ?_
    simpa using (ne_append_of_start (h entry.1 (List.mem_map_of_mem hentry)) i.repr).symm
  rw [rankIn, hnone]
  rfl

section

variable {latency : Nat} {join delay output : String}

/-- Between the operator and the parts of its control, ranks rise the way that signals travel. -/
theorem connections_controlParts :
    ∀ p ∈ controlParts latency join delay output, p.Ranked ownRank (partRank p.1.name) := by
  simp only [controlParts, List.forall_mem_cons, List.not_mem_nil, false_imp_iff,
    implies_true, and_true]
  -- ranks look at signals only, so that any module names and latency will do
  exact ⟨(by decide : (joinPart "").Ranked ownRank (partRank "join_inputs")),
    (by decide : (delayPart 2 "").Ranked ownRank (partRank "buff")),
    (by decide : (outputPart "").Ranked ownRank (partRank "one_slot_break_dv"))⟩

/-- Inside of the parts of the control, signals are computed from those of lower ranks. -/
theorem acyclic_controlParts (h : 1 < latency) :
    ∀ p ∈ controlParts latency join delay output, p.2.circuit.Acyclic (partRank p.1.name) := by
  have hjoin : ∀ a ∈ (Join.body 2).circuit.assigns, a.Ascends (partRank "join_inputs") := by
    unfold Assign.Ascends
    decide
  have houtput : ∀ a ∈ (DataBreak.body 0).circuit.assigns,
      a.Ascends (partRank "one_slot_break_dv") := by
    unfold Assign.Ascends
    decide
  have hdelay : ∀ a ∈ (DelayBuffer.body (latency - 1)).circuit.assigns,
      a.Ascends (partRank "buff") := by
    rw [DelayBuffer.assigns_body (by omega)]
    refine List.forall_mem_singleton.mpr fun name hname target htarget => ?_
    obtain rfl := List.mem_singleton.mp hname
    obtain rfl := List.mem_singleton.mp htarget
    have hslot : partRank "buff" (DelayBuffer.slotName (latency - 1 - 1)) = 0 :=
      rankIn_numbered (by decide) _
    rw [hslot]
    exact Nat.one_pos
  simp only [controlParts, List.forall_mem_cons, List.not_mem_nil, false_imp_iff,
    implies_true, and_true]
  exact ⟨hjoin, hdelay, houtput⟩

end

/-- The module of an operator: its control, and a datapath. -/
def body (width : Nat) (join delay output : String) (datapath : List Item) : Module :=
  anonymous (ports width) (controlItems join delay output ++ datapath)

section

variable {width : Nat} (join delay output : String) (datapath : List Item)

/--
The signals of an operator: those of its three handshakes, the bits between the
parts of the control, and whatever the datapath declares.
-/
theorem signals_body (h : 0 < width) :
    (body width join delay output datapath).signals =
      [("clk", 1), ("rst", 1), ("lhs", width), ("lhs_valid", 1), ("lhs_ready", 1), ("rhs", width),
        ("rhs_valid", 1), ("rhs_ready", 1), ("result", width), ("result_valid", 1),
        ("result_ready", 1), ("join_valid", 1), ("buff_valid", 1),
        (enable, 1)] ++ (Item.declsOf datapath).map fun d => (d.name, d.width) := by
  simp [body, anonymous, Module.signals, Operator.ports, clockPorts, Port.input, handshakePorts,
    PortGroup.ports, PortGroup.channels, PortGroup.valid, PortGroup.ready, ExtraSignals.empty, h,
    controlItems, controlDecls, Decl.net, Item.declsOf, Item.decls, Direction.flip]

theorem bits_body (h : 0 < width) :
    ∀ name ∈ "clk" :: controlBits, (name, 1) ∈ (body width join delay output datapath).signals := by
  rw [signals_body join delay output datapath h]
  simp [controlBits]

theorem data_body (h : 0 < width) :
    ∀ name ∈ ["lhs", "rhs", "result"],
      (name, width) ∈ (body width join delay output datapath).signals := by
  rw [signals_body join delay output datapath h]
  simp

theorem inputs_body (h : 0 < width) :
    (body width join delay output datapath).inputs =
      ["clk", "rst", "lhs", "lhs_valid", "rhs", "rhs_valid", "result_ready"] := by
  simp [body, anonymous, Module.inputs, Operator.ports, clockPorts, Port.input, handshakePorts,
    PortGroup.ports, PortGroup.channels, PortGroup.valid, PortGroup.ready, ExtraSignals.empty, h,
    Direction.flip]

end

/--
An artifact whose top is an operator without extra signals, and the flattening
of that operator.
-/
structure IsFlattened (a : Artifact) (name : String) (width latency : Nat) (m : Module)
    (parts : List Part) (flat : Module) : Prop where
  flatten : a.flatten = .ok flat
  flattens : Flattens m parts flat
  controlled : Controlled m parts latency
  ranked : m.Ranked parts ownRank fun p => partRank p.1.name
  shape : ∃ join delay output datapath, m = body width join delay output datapath
  top : ∃ before top, a.blocks = before ++ [top] ∧ top.identity = name

end Operator

/-! ## Multipliers -/

namespace Multiplier

open Operator

/-- The core, inside the multiplier. -/
def corePart (width : Nat) (name : String) : Part :=
  (coreInstance name, { coreBody width with name })

/-- The module of a multiplier. -/
def operatorBody (width : Nat) (core join delay output : String) : Module :=
  Operator.body width join delay output [.inst (coreInstance core)]

/-- The parts of a multiplier. -/
def operatorParts (width : Nat) (core join delay output : String) : List Part :=
  controlParts latency join delay output ++ [corePart width core]

variable {width : Nat} (core join delay output : String)

theorem driven_operator :
    (operatorBody width core join delay output).drivenWith
      (operatorParts width core join delay output) =
      ["join_valid", "lhs_ready", "rhs_ready", "buff_valid", enable, "result_valid", "result"].map
        fun name =>
        ⟨name, 0, (operatorBody width core join delay output).circuit.widths.width name⟩ :=
  rfl

theorem signals_operator (h : 0 < width) :
    (operatorBody width core join delay output).signals =
      [("clk", 1), ("rst", 1), ("lhs", width), ("lhs_valid", 1), ("lhs_ready", 1), ("rhs", width),
        ("rhs_valid", 1), ("rhs_ready", 1), ("result", width), ("result_valid", 1),
        ("result_ready", 1), ("join_valid", 1), ("buff_valid", 1), (enable, 1)] :=
  Operator.signals_body join delay output [.inst (coreInstance core)] h

/--
The multiplier fits its parts together: every obligation is that of the control,
or of the one core beside it.
-/
theorem assembled_operator (h : 0 < width) (hbound : width ≤ wordBits) :
    (operatorBody width core join delay output).Assembled
      (operatorParts width core join delay output) := by
  have hbit : 1 ≤ wordBits := by decide
  have hsignals := signals_operator core join delay output h
  have hdistinct := Module.distinct_of_declared (distinct_multiplier core join delay output width)
  have hbits : ∀ name ∈ "clk" :: controlBits,
      (operatorBody width core join delay output).circuit.widths.Declares name ∧
        (operatorBody width core join delay output).circuit.widths.width name =
          1 := fun name hname =>
    have hmem := bits_body join delay output [.inst (coreInstance core)] h name hname
    ⟨Module.declares_of_mem hmem, Module.width_eq hdistinct hmem⟩
  have hdata : ∀ name ∈ ["lhs", "rhs", "result"],
      (operatorBody width core join delay output).circuit.widths.Declares name := fun name hname =>
    Module.declares_of_mem (data_body join delay output [.inst (coreInstance core)] h name hname)
  have happart : KeptApart ["join_inputs", "buff", "one_slot_break_dv", "multiply_unit"]
      ["clk", "rst", "lhs", "lhs_valid", "lhs_ready", "rhs", "rhs_valid", "rhs_ready", "result",
        "result_valid", "result_ready", "join_valid", "buff_valid", enable] := by
    decide
  have hparts : ∀ p ∈ operatorParts width core join delay output, p.2.WellFormed := by
    refine List.forall_mem_append.mpr ⟨wellFormed_controlParts (by decide), ?_⟩
    exact List.forall_mem_singleton.mpr ((wellFormed_core hbound).named core)
  refine ⟨⟨hdistinct, ?_, rfl, KeptApart.separate happart, ?_, ?_, ?_, ?_, ?_, ?_, ?_, ?_⟩, hparts⟩
  · simp [hsignals, hbound, hbit]
  · rw [hsignals]
    exact KeptApart.outside happart
  · exact fun a ha => absurd ha List.not_mem_nil
  · exact fun a ha => absurd ha List.not_mem_nil
  · -- in each of these the control is done, and the core is left
    refine List.forall_mem_append.mpr ⟨connected_controlParts hbits, ?_⟩
    simp only [controlBits, List.forall_mem_cons] at hbits hdata
    simp [-Prod.forall, corePart, coreInstance, sameName, wire, Expr.Typed, hbits, hdata]
  · refine List.forall_mem_append.mpr ⟨outputs_controlParts hbits, ?_⟩
    have hall : (corePart width core).1.connections.flatMap (corePart width core).drivenBy =
        [.ident "result"] := rfl
    refine List.forall_mem_singleton.mpr fun c hc e he => ?_
    have hmem := List.mem_flatMap.mpr ⟨c, hc, he⟩
    rw [hall] at hmem
    rw [List.mem_singleton.mp hmem]
    exact hdata "result" (by simp)
  · refine List.forall_mem_append.mpr ⟨once_controlParts, ?_⟩
    simp [corePart, coreInstance, sameName, wire]
  · rw [driven_operator]
    exact Region.apart_of_nodup (by decide) _
  · intro name hname r hr
    rw [operatorBody, inputs_body _ _ _ _ h] at hname
    rw [driven_operator] at hr
    obtain ⟨driven, hdriven, rfl⟩ := List.mem_map.mp hr
    have hne : ∀ name ∈ ["clk", "rst", "lhs", "lhs_valid", "rhs", "rhs_valid", "result_ready"],
        ∀ driven ∈ ["join_valid", "lhs_ready", "rhs_ready", "buff_valid", enable, "result_valid",
          "result"], driven ≠ name := by
      decide
    exact hne name hname driven hdriven

/-- No signal of the multiplier depends on itself. -/
theorem ranked_operator :
    (operatorBody width core join delay output).Ranked
      (operatorParts width core join delay output) ownRank
      fun p => partRank p.1.name where
  assigns a ha := absurd ha List.not_mem_nil
  within := by
    refine List.forall_mem_append.mpr
      ⟨acyclic_controlParts (by decide), List.forall_mem_singleton.mpr ?_⟩
    have hcore : ∀ a ∈ (coreBody 0).circuit.assigns, a.Ascends (partRank "multiply_unit") := by
      unfold Assign.Ascends
      decide
    exact hcore
  connections := by
    refine List.forall_mem_append.mpr ⟨connections_controlParts, List.forall_mem_singleton.mpr ?_⟩
    refine ⟨(by decide : (corePart 0 "").Ranked ownRank (partRank "multiply_unit")).1,
      fun c hc e he name hname => ?_⟩
    -- the width of the core stands in its ports, so that its only output has to be
    -- picked out by hand
    have hpairs : (corePart width core).1.connections.flatMap
        (fun c => ((corePart width core).drivenBy c).map (c.1, ·)) =
        [("p", .ident "result")] := rfl
    have hpair : (c.1, e) ∈ (corePart width core).1.connections.flatMap fun c =>
        ((corePart width core).drivenBy c).map (c.1, ·) :=
          List.mem_flatMap.mpr ⟨c, hc, List.mem_map_of_mem he⟩
    rw [hpairs, List.mem_singleton] at hpair
    obtain ⟨hport, rfl⟩ := Prod.mk.inj hpair
    obtain rfl := List.mem_singleton.mp hname
    show partRank "multiply_unit" c.1 < ownRank "result"
    rw [hport]
    decide

/-- The control of an operator is found in the multiplier, under the names it expects. -/
theorem controlled_operator (h : 0 < width) (hbound : width ≤ wordBits) :
    Controlled (operatorBody width core join delay output)
      (operatorParts width core join delay output) latency where
  assembled := assembled_operator core join delay output h hbound
  bits name hname := bits_body join delay output _ h name (List.mem_cons_of_mem _ hname)
  join := ⟨join, by simp [operatorParts, controlParts]⟩
  delay := ⟨delay, by simp [operatorParts, controlParts]⟩
  output := ⟨output, by simp [operatorParts, controlParts]⟩

/-- A generated multiplier can be flattened. -/
theorem generate_flat {id : Identity} {a : Artifact} (ha : generate id width = .ok a)
    (h : 0 < width) (hbound : width ≤ wordBits) :
    ∃ core join delay output flat,
      IsFlattened a id.text width latency (operatorBody width core join delay output)
      (operatorParts width core join delay output) flat := by
  obtain ⟨hblocks, -, hunit⟩ := generate_ok ha
  -- how the submodules are named does not matter from here on
  generalize derived id.text [.mul4Stage] = core, derived id.text [.join] = join,
    derived id.text [.buff] = delay,
    derived id.text [.oneSlotBreakDv] = output at hblocks
  have hsplit : a.blocks =
      [⟨(corePart width core).2, latency⟩, ⟨(joinPart join).2, 0⟩,
        ⟨(delayPart latency delay).2, latency - 1⟩, ⟨(outputPart output).2, 1⟩] ++
      [⟨{ operatorBody width core join delay output with name := id.text }, latency⟩] := hblocks
  have hinstances : Item.instancesOf (operatorBody width core join delay output).items =
      (operatorParts width core join delay output).map Prod.fst ++ [] := rfl
  have hleaves : ∀ p ∈ operatorParts width core join delay output, p.1.moduleName = p.2.name ∧
      Item.instancesOf p.2.items = [] :=
    List.forall_mem_append.mpr ⟨leaf_controlParts, List.forall_mem_singleton.mpr ⟨rfl, rfl⟩⟩
  have hlisted : ∀ p ∈ operatorParts width core join delay output, p.2 ∈
      [(corePart width core).2, (joinPart join).2, (delayPart latency delay).2,
        (outputPart output).2] := by
    simp [operatorParts, controlParts]
  have hcore : ∀ c ∈ (corePart width core).1.connections,
      ((corePart width core).2.port? c.1).isSome = true := by
    simp [corePart, coreInstance, sameName, wire, Module.port?, coreBody, anonymous, corePorts,
      Port.input, Port.output]
  obtain ⟨flat, hflatten, hflattens⟩ := hunit.wellFormed.flatten_leaves hsplit hinstances
    hlisted hleaves
    (List.forall_mem_append.mpr ⟨ports_controlParts, List.forall_mem_singleton.mpr hcore⟩) (by simp)
  exact ⟨core, join, delay, output, flat, hflatten,
    ⟨hflattens.ports, hflattens.signals, hflattens.assigns, hflattens.processes⟩,
    controlled_operator core join delay output h hbound, ranked_operator core join delay output,
    ⟨_, _, _, _, rfl⟩, ⟨_, _, hsplit, rfl⟩⟩

end Multiplier

/-! ## Floating-point operators -/

namespace FloatOperator

open Operator

/-- The module of a floating-point operator. -/
def operatorBody (op : FloatOperator) (p : Precision) (join delay output : String) : Module :=
  Operator.body p.width join delay output (op.datapath p)

variable (op : FloatOperator) (p : Precision) (join delay output : String)

/--
The floating-point operators drive the bits of the control, and for a
subtraction the operand whose sign is flipped. The result is left to a core.
-/
theorem driven_operator :
    (operatorBody op p join delay output).drivenWith
      (controlParts (op.latency p) join delay output) =
      ((match op with | .mul => [] | .sub => ["rhs_neg"]) ++
        ["join_valid", "lhs_ready", "rhs_ready", "buff_valid", enable, "result_valid"]).map
          fun name =>
          ⟨name, 0, (operatorBody op p join delay output).circuit.widths.width name⟩ := by
  cases op <;> rfl

theorem drives_operator :
    Item.drivesOf (operatorBody op p join delay output).items =
      match op with | .mul => [] | .sub => [negation p] := by
  cases op <;> rfl

variable {p} in
/-- Flipping the sign bit reads the whole right operand and stays inside it. -/
theorem typed_negation {widths : Widths} (hrhs : widths.Declares "rhs")
    (hwidth : widths.width "rhs" = p.width) : (negation p).value.Typed widths := by
  have hbounds : 1 < p.width ∧ p.width < wordBits := by cases p <;> decide
  have hone : 1 < wordBits := by decide
  have hsign : (Expr.select "rhs" p.width (p.width - 1) 1).IsTarget widths :=
    Expr.isTarget_select Nat.one_pos (by omega) (by omega) hrhs hwidth
  have hrest : (Expr.select "rhs" p.width 0 (p.width - 1)).IsTarget widths :=
    Expr.isTarget_select (by omega) (by omega) (by omega) hrhs hwidth
  show Expr.TypedAll widths [_, _]
  rw [Expr.complement_select]
  refine ⟨hsign.typed, ?_, hrest.typed, ?_, trivial⟩
  · rw [Expr.size, Expr.size_select Nat.one_pos (by omega) (by omega) hwidth]
    exact hone
  · rw [Expr.size_select (by omega) (by omega) (by omega) hwidth]
    omega

/-- A floating-point operator fits the parts of its control together, whatever its cores do. -/
theorem assembled_operator :
    (operatorBody op p join delay output).Assembled
      (controlParts (op.latency p) join delay output) := by
  have hpos : 0 < p.width := by cases p <;> decide
  have hlatency : 1 < op.latency p := by cases op <;> cases p <;> decide
  have hsignals := Operator.signals_body join delay output (op.datapath p) hpos
  have hdistinct := Module.distinct_of_declared (distinct_floatOperator op p join delay output)
  have hbits : ∀ name ∈ "clk" :: controlBits,
      (operatorBody op p join delay output).circuit.widths.Declares name ∧
        (operatorBody op p join delay output).circuit.widths.width name = 1 := fun name hname =>
    have hmem := bits_body join delay output (op.datapath p) hpos name hname
    ⟨Module.declares_of_mem hmem, Module.width_eq hdistinct hmem⟩
  have happart : KeptApart ["join_inputs", "buff", "one_slot_break_dv"]
      (["clk", "rst", "lhs", "lhs_valid", "lhs_ready", "rhs", "rhs_valid", "rhs_ready", "result",
        "result_valid", "result_ready", "join_valid", "buff_valid",
        enable] ++ (Item.declsOf (op.datapath p)).map Decl.name) := by
    cases op <;> cases p <;> decide
  refine ⟨⟨hdistinct, ?_, ?_, KeptApart.separate happart, ?_, ?_, ?_, connected_controlParts hbits,
    outputs_controlParts hbits, once_controlParts, ?_, ?_⟩, wellFormed_controlParts hlatency⟩
  · rw [operatorBody, hsignals]
    cases op <;> cases p <;> decide
  · cases op <;> rfl
  · rw [operatorBody, hsignals]
    cases op <;> exact KeptApart.outside happart
  · -- the only assign is the negation that a subtraction begins with
    rw [drives_operator]
    cases op with
    | mul => exact fun a ha => absurd ha List.not_mem_nil
    | sub =>
        have hrhs := data_body join delay output (datapath .sub p) hpos "rhs" (by simp)
        exact List.forall_mem_singleton.mpr
          (typed_negation (Module.declares_of_mem hrhs) (Module.width_eq hdistinct hrhs))
  · rw [drives_operator]
    cases op with
    | mul => exact fun a ha => absurd ha List.not_mem_nil
    | sub =>
        have hneg : ("rhs_neg", p.width) ∈ (operatorBody .sub p join delay output).signals := by
          rw [operatorBody, hsignals]
          exact List.mem_append_right _
            (by simp [datapath, decls, Item.declsOf, Item.decls, Decl.net])
        exact List.forall_mem_singleton.mpr (Module.declares_of_mem hneg)
  · rw [driven_operator]
    refine Region.apart_of_nodup ?_ _
    cases op <;> decide
  · intro name hname r hr
    rw [operatorBody, inputs_body _ _ _ _ hpos] at hname
    rw [driven_operator] at hr
    obtain ⟨driven, hdriven, rfl⟩ := List.mem_map.mp hr
    have hne : ∀ name ∈ ["clk", "rst", "lhs", "lhs_valid", "rhs", "rhs_valid", "result_ready"],
        ∀ driven ∈ ["rhs_neg", "join_valid", "lhs_ready", "rhs_ready", "buff_valid", enable,
          "result_valid"], driven ≠ name := by
      decide
    refine hne name hname driven ?_
    cases op
    · exact List.mem_cons_of_mem _ hdriven
    · exact hdriven

theorem ranked_operator :
    (operatorBody op p join delay output).Ranked
      (controlParts (op.latency p) join delay output) ownRank
      fun p => partRank p.1.name where
  assigns := by
    rw [drives_operator]
    cases op with
    | mul => exact fun a ha => absurd ha List.not_mem_nil
    | sub =>
        refine List.forall_mem_singleton.mpr ?_
        unfold Assign.Ascends
        cases p <;> decide
  within := acyclic_controlParts (by cases op <;> cases p <;> decide)
  connections := connections_controlParts

theorem controlled_operator :
    Controlled (operatorBody op p join delay output) (controlParts (op.latency p) join delay output)
      (op.latency p) where
  assembled := assembled_operator op p join delay output
  bits name hname :=
    bits_body join delay output _ (by cases p <;> decide) name (List.mem_cons_of_mem _ hname)
  join := ⟨join, by simp [controlParts]⟩
  delay := ⟨delay, by simp [controlParts]⟩
  output := ⟨output, by simp [controlParts]⟩

/-- A generated floating-point operator can be flattened; what comes from outside stays. -/
theorem generate_flat {id : Identity} {a : Artifact} (ha : op.generate p id = .ok a) :
    ∃ join delay output flat,
      IsFlattened a id.text p.width (op.latency p) (operatorBody op p join delay output)
      (controlParts (op.latency p) join delay output) flat := by
  obtain ⟨hblocks, hexternals, hunit⟩ := generate_ok ha
  generalize derived id.text [.join] = join, derived id.text [.buff] = delay,
    derived id.text [.oneSlotBreakDv] = output at hblocks
  have hsplit : a.blocks =
      [⟨(joinPart join).2, 0⟩, ⟨(delayPart (op.latency p) delay).2, op.latency p - 1⟩,
        ⟨(outputPart output).2, 1⟩] ++
      [⟨{ operatorBody op p join delay output with name := id.text }, op.latency p⟩] := hblocks
  have hinstances : Item.instancesOf (operatorBody op p join delay output).items =
      (controlParts (op.latency p) join delay output).map Prod.fst ++
        Item.instancesOf (op.datapath p) := rfl
  have hlisted : ∀ q ∈ controlParts (op.latency p) join delay output, q.2 ∈
      [(joinPart join).2, (delayPart (op.latency p) delay).2, (outputPart output).2] := by
    simp [controlParts]
  -- what is no part is one of the cores and converters from outside
  have houtside : ∀ i ∈ Item.instancesOf (op.datapath p), i.moduleName ∈ a.externals := by
    intro i hi
    rw [hexternals]
    revert i
    cases op <;> cases p <;> decide
  obtain ⟨flat, hflatten, hflattens⟩ := hunit.wellFormed.flatten_leaves hsplit hinstances hlisted
    leaf_controlParts ports_controlParts houtside
  exact ⟨join, delay, output, flat, hflatten,
    ⟨hflattens.ports, hflattens.signals, hflattens.assigns, hflattens.processes⟩,
    controlled_operator op p join delay output, ranked_operator op p join delay output,
    ⟨_, _, _, _, rfl⟩, ⟨_, _, hsplit, rfl⟩⟩

end FloatOperator

end Handshake
