import Handshake.Proofs.OperatorModules

/-!
# Extra signals past an operator

The wrapper of an operator with extra signals has two parts: the operator, and a
delay line as long as the operator is deep. It puts the extra signals of the
left operand side by side on the bus that enters the line, and takes them apart
on the bus that leaves it.

`Wrappable` collects what is asked of operator, line and layout. From it follow

* `assembled`: the wrapper connects both parts properly;
* `ranked`: no signal depends on itself, for any operator whose ports have low
  ranks;
* `packed` and `unpacked`: the buses hold the extra signals of the left operand,
  and of the result;
* `carried`: what the line hands on from one bus to the other arrives at the
  extra signals of the result, each under its own name.

How operator and line keep in step is not a matter of this module; here they are
only connected.
-/

namespace Handshake

open Operator

namespace Manager

/-- The operands of an operator with extra signals. -/
def operands (width : Nat) (extra : ExtraSignals) : List PortGroup :=
  [⟨"lhs", width, extra, none⟩, ⟨"rhs", width, extra, none⟩]

/-- The results of an operator with extra signals. -/
def results (width : Nat) (extra : ExtraSignals) : List PortGroup :=
  [⟨"result", width, extra, none⟩]

/-- The wrapper of an operator. -/
def wrapper (inner line : String) (width : Nat) (extra : ExtraSignals) (layout : Layout) : Module :=
  bypassBody inner line (outerPorts (operands width extra) (results width extra))
    (operands width extra)
    (results width extra) ⟨"lhs", width, extra, none⟩ ⟨"result", width, extra, none⟩ layout

/-- The ports of an operator for operands of some width. -/
def innerPorts (width : Nat) : List Port :=
  [Port.input 1 "clk", Port.input 1 "rst", Port.input width "lhs", Port.input 1 "lhs_valid",
    Port.output 1 "lhs_ready", Port.input width "rhs", Port.input 1 "rhs_valid",
    Port.output 1 "rhs_ready", Port.output width "result", Port.output 1 "result_valid",
    Port.input 1 "result_ready"]

/-- The operator inside the wrapper. -/
def innerInstance (name : String) : Instance :=
  ⟨name, "inner", (innerPorts 0).map fun p => sameName p.name⟩

/-- The operator is connected to the signals that are called like its ports. -/
theorem connections_inner (name : String) (width : Nat) :
    (innerInstance name).connections = (innerPorts width).map fun p => sameName p.name :=
  rfl

theorem mem_connections_inner (name : String) {width : Nat} {p : Port} (hp : p ∈ innerPorts width) :
    (p.name, some (.ident p.name)) ∈ (innerInstance name).connections := by
  rw [connections_inner name width]
  exact List.mem_map_of_mem hp

/-- The delay line inside the wrapper. -/
def lineInstance (name : String) : Instance :=
  ⟨name, "buff",
    [sameName "clk", sameName "rst", wire "ins" "extra_ins", wire "ins_valid" "extra_ins_valid",
    wire "outs" "extra_outs", leaveOpen "outs_valid", wire "outs_ready" "result_ready"]⟩

variable {inner line : String} {width : Nat} {extra : ExtraSignals} {layout : Layout}

/-- The parts of the wrapper are the operator and the line. -/
theorem instancesOf_wrapper (h : 0 < width) (htotal : 0 < layout.total) :
    Item.instancesOf (wrapper inner line width extra layout).items =
      [innerInstance inner, lineInstance line] := by
  simp [wrapper, bypassBody, anonymous, Item.instancesOf, Item.instances, operands, results,
    coreWires, ifData, h, htotal, PortGroup.valid, PortGroup.ready, clockWires, innerInstance,
    innerPorts, Port.input, Port.output, lineInstance, Role.token, Expr.select, PortGroup.channels]

theorem declsOf_wrapper (htotal : 0 < layout.total) :
    Item.declsOf (wrapper inner line width extra layout).items =
      [Decl.net layout.total "extra_ins", Decl.net layout.total "extra_outs",
        Decl.net 1 "extra_ins_valid"] := by
  simp [wrapper, bypassBody, anonymous, Item.declsOf, Item.decls, ifData, htotal]

/-- The signals of the wrapper: all ports, the two buses, and the valid bit of the line. -/
theorem signals_wrapper (htotal : 0 < layout.total) :
    (wrapper inner line width extra layout).signals =
      (outerPorts (operands width extra) (results width extra)).map (fun p => (p.name, p.width)) ++
        [("extra_ins", layout.total), ("extra_outs", layout.total), ("extra_ins_valid", 1)] := by
  rw [Module.signals, declsOf_wrapper htotal]
  rfl

/-- The wrapper packs the extra signals of the left operand, and unpacks those of the result. -/
theorem drivesOf_wrapper :
    Item.drivesOf (wrapper inner line width extra layout).items =
      layout.slices.map (fun s => ⟨Expr.select "extra_ins" layout.total s.lo s.width,
        .ident (PortGroup.fieldName ⟨"lhs", width, extra, none⟩ s.field)⟩) ++
      (⟨.ident "extra_ins_valid", .binary .and (.ident "lhs_valid") (.ident "rhs_valid")⟩ ::
      layout.slices.map fun s =>
        ⟨.ident (PortGroup.fieldName ⟨"result", width, extra, none⟩ s.field),
        Expr.select "extra_outs" layout.total s.lo s.width⟩) := by
  simp [wrapper, bypassBody, anonymous, Item.drivesOf, Item.drives, operands, results, packSignals,
    unpackSignals, drive, allValid, PortGroup.channels, PortGroup.valid, Expr.select_whole,
    Expr.all, Expr.and, Expr.apply, Expr.isOperand, Expr.isPrimary, List.map_eq_flatMap]

/-! ## Names and widths -/

theorem mem_signals_bits (htotal : 0 < layout.total) :
    ∀ name ∈ ["clk", "rst", "lhs_valid", "lhs_ready", "rhs_valid", "rhs_ready", "result_valid",
      "result_ready", "extra_ins_valid"],
      (name, 1) ∈ (wrapper inner line width extra layout).signals := by
  rw [signals_wrapper htotal]
  simp [outerPorts, operands, results, clockPorts, Port.input, PortGroup.ports, PortGroup.channels,
    PortGroup.valid, PortGroup.ready]

theorem mem_signals_data (h : 0 < width) (htotal : 0 < layout.total) :
    ∀ name ∈ ["lhs", "rhs", "result"],
      (name, width) ∈ (wrapper inner line width extra layout).signals := by
  rw [signals_wrapper htotal]
  simp [outerPorts, operands, results, clockPorts, Port.input, PortGroup.ports,
    PortGroup.channels, h]

theorem mem_signals_inner (h : 0 < width) (htotal : 0 < layout.total) :
    ∀ p ∈ innerPorts width, (p.name, p.width) ∈
      (wrapper inner line width extra layout).signals := by
  have hbits : ∀ name ∈ ["clk", "rst", "lhs_valid", "lhs_ready", "rhs_valid", "rhs_ready",
      "result_valid", "result_ready", "extra_ins_valid"],
      (name, 1) ∈ (wrapper inner line width extra layout).signals :=
    mem_signals_bits htotal
  have hdata : ∀ name ∈ ["lhs", "rhs", "result"],
      (name, width) ∈ (wrapper inner line width extra layout).signals :=
    mem_signals_data h htotal
  simp only [List.forall_mem_cons] at hbits hdata
  simp [innerPorts, Port.input, Port.output, hbits, hdata]

theorem mem_signals_bus (htotal : 0 < layout.total) :
    ∀ name ∈ ["extra_ins", "extra_outs"],
      (name, layout.total) ∈ (wrapper inner line width extra layout).signals := by
  rw [signals_wrapper htotal]
  simp

/-- Each extra signal has a port beside both operands and beside the result. -/
theorem mem_signals_extra (htotal : 0 < layout.total) {e : ExtraSignal} (he : e ∈ extra.signals) :
    ∀ stem ∈ ["lhs", "rhs", "result"],
      (stem ++ "_" ++ e.name, e.width) ∈ (wrapper inner line width extra layout).signals := by
  have hport : ∀ (stem : String) (direction : Direction),
      (stem ++ "_" ++ e.name, e.width) ∈
        (PortGroup.ports ⟨stem, width, extra, none⟩ direction).map fun p => (p.name, p.width) := by
    intro stem direction
    refine List.mem_map.mpr ⟨⟨direction, 1 * e.width, stem ++ "_" ++ e.name⟩, ?_, by simp⟩
    exact List.mem_append_left _ (List.mem_append_right _ (List.mem_map_of_mem he))
  rw [signals_wrapper htotal]
  simp only [outerPorts, operands, results, List.flatMap_cons, List.flatMap_nil, List.append_nil,
    List.map_append, List.forall_mem_cons, List.mem_append, List.not_mem_nil, false_imp_iff,
    implies_true, and_true]
  exact ⟨Or.inl (Or.inl (Or.inr (Or.inl (hport _ _)))),
    Or.inl (Or.inl (Or.inr (Or.inr (hport _ _)))), Or.inl (Or.inr (hport _ _))⟩

/-- The slices of a bus are the extra signals, in their order. -/
theorem map_fieldName (h : Layout.of 0 extra = .ok layout) (stem : String) :
    layout.slices.map (fun s => PortGroup.fieldName ⟨stem, width, extra, none⟩ s.field) =
      extra.signals.map fun e => stem ++ "_" ++ e.name := by
  rw [Layout.map_slices h, Layout.fields, if_neg (Nat.lt_irrefl 0), List.nil_append, List.map_map]
  rfl

/-- What there is to drive: the outputs, the buses, and the valid bit of the line. -/
theorem drivable_wrapper (h : 0 < width) (htotal : 0 < layout.total) :
    (wrapper inner line width extra layout).drivable =
      ["lhs_ready", "rhs_ready", "result"] ++
        extra.signals.map (fun e => "result" ++ "_" ++ e.name) ++
        ["result_valid", "extra_ins", "extra_outs", "extra_ins_valid"] := by
  rw [Module.drivable, declsOf_wrapper htotal]
  simp [wrapper, bypassBody, anonymous, outerPorts, operands, results, clockPorts, Port.input,
    PortGroup.ports, PortGroup.valid, PortGroup.ready, PortGroup.extraName, Direction.flip, h,
    Decl.net, List.filter_map, Function.comp_def]

theorem inputs_wrapper (h : 0 < width) :
    (wrapper inner line width extra layout).inputs =
      ["clk", "rst", "lhs"] ++ extra.signals.map (fun e => "lhs" ++ "_" ++ e.name) ++
        ["lhs_valid", "rhs"] ++
        extra.signals.map (fun e => "rhs" ++ "_" ++ e.name) ++ ["rhs_valid", "result_ready"] := by
  simp [wrapper, bypassBody, anonymous, Module.inputs, outerPorts, operands, results, clockPorts,
    Port.input, PortGroup.ports, PortGroup.valid, PortGroup.ready, PortGroup.extraName,
    Direction.flip, h, List.filter_map, Function.comp_def]

/-! ## The wrapper as a module made of two parts -/

/-- An operator, flattened, and extra signals that a wrapper can carry past it. -/
structure Wrappable (width latency : Nat) (extra : ExtraSignals) (layout : Layout) (flat : Module) :
    Prop where
  width_pos : 0 < width
  width_le : width ≤ wordBits
  latency_pos : 0 < latency
  layout_of : Layout.of 0 extra = .ok layout
  extra_ne : extra.signals ≠ []
  extra_le : extra.totalWidth ≤ wordBits
  check : checkPortGroups (operands width extra) (results width extra) extra = .ok ()
  ports : flat.ports = Operator.ports width
  wellFormed : flat.WellFormed

/-- The parts of a wrapper. -/
def wrapperParts (inner line : String) (latency : Nat) (extra : ExtraSignals) (flat : Module) :
    List Part :=
  [(innerInstance inner, flat),
    (lineInstance line, { (DelayLine.mk latency extra.totalWidth).body with name := line })]

theorem mem_inner {inner line : String} {latency : Nat} {extra : ExtraSignals} {flat : Module} :
    (innerInstance inner, flat) ∈ wrapperParts inner line latency extra flat :=
  List.mem_cons_self

theorem mem_line {inner line : String} {latency : Nat} {extra : ExtraSignals} {flat : Module} :
    (lineInstance line, { (DelayLine.mk latency extra.totalWidth).body with name := line }) ∈
      wrapperParts inner line latency extra flat :=
  List.mem_cons_of_mem _ List.mem_cons_self

/-- The ranks of the wrapper's signals, in the order in which they settle. -/
def ownRank (m : Module) (name : String) : Nat :=
  if name ∈ m.inputs then 0
  else if name ∈ ["extra_ins", "extra_ins_valid"] then 1
  else if name = "extra_outs" then 8
  else 9

/-- The ranks inside the delay line. -/
def lineRank : String → Nat :=
  rankIn [("clk", 1), ("rst", 1), ("ins", 2), ("ins_valid", 2), ("outs_ready", 1), ("en", 3),
    ("outs", 1), ("outs_valid", 1)]

namespace Wrappable

variable {latency : Nat} {flat : Module} (h : Wrappable width latency extra layout flat)
include h

/-- The bus is as wide as the extra signals together. -/
theorem total_eq : layout.total = extra.totalWidth := by
  rw [Layout.total_of h.layout_of, Nat.zero_add]

theorem total_pos : 0 < layout.total := h.total_eq ▸ ExtraSignals.totalWidth_pos h.extra_ne

theorem total_le : layout.total ≤ wordBits := h.total_eq ▸ h.extra_le

theorem distinct : ((wrapper inner line width extra layout).signals.map Prod.fst).Nodup :=
  Module.distinct_of_declared (distinct_bypassBody inner line layout h.check)

/-- What a part of a bus selects lies inside the bus. -/
theorem slice_reach {s : Slice} (hs : s ∈ layout.slices) :
    0 < s.width ∧ s.lo + s.width ≤ layout.total :=
  Layout.slice_reach h.layout_of hs

theorem width_bit {name : String}
    (hname : name ∈ ["clk", "rst", "lhs_valid", "lhs_ready", "rhs_valid", "rhs_ready",
    "result_valid", "result_ready", "extra_ins_valid"]) :
    (wrapper inner line width extra layout).circuit.widths.width name = 1 :=
  Module.width_eq h.distinct (mem_signals_bits h.total_pos name hname)

theorem width_bus {name : String} (hname : name ∈ ["extra_ins", "extra_outs"]) :
    (wrapper inner line width extra layout).circuit.widths.width name = layout.total :=
  Module.width_eq h.distinct (mem_signals_bus h.total_pos name hname)

theorem mem_signals_field {s : Slice} (hs : s ∈ layout.slices) (stem : String)
    (hstem : stem ∈ ["lhs", "rhs", "result"]) :
    (PortGroup.fieldName ⟨stem, width, extra, none⟩ s.field, s.width) ∈
      (wrapper inner line width extra layout).signals := by
  obtain ⟨e, he, hfield, hwidth, -⟩ := Layout.mem_slices h.layout_of hs
  rw [hfield, hwidth]
  exact mem_signals_extra h.total_pos he stem hstem

/-- The ports of the operator, by name. -/
theorem port_inner : ∀ p ∈ innerPorts width, flat.port? p.name = some p := by
  simp [innerPorts, Module.port?, h.ports, Operator.ports, clockPorts, handshakePorts,
    PortGroup.ports, PortGroup.channels, PortGroup.valid, PortGroup.ready, ExtraSignals.empty,
    h.width_pos, Direction.flip, Port.input, Port.output]

/-- The ports of the delay line, by name. -/
theorem port_line (name : String) :
    ∀ p ∈ [Port.input 1 "clk", Port.input 1 "rst", Port.input layout.total "ins",
      Port.input 1 "ins_valid", Port.output layout.total "outs", Port.output 1 "outs_valid",
      Port.input 1 "outs_ready"],
      ({ (DelayLine.mk latency extra.totalWidth).body with name } : Module).port? p.name =
        some p := by
  have hpos : 0 < extra.totalWidth := ExtraSignals.totalWidth_pos h.extra_ne
  simp [Module.port?, DelayLine.body, anonymous, DelayLine.ports, clockPorts, ifData, hpos,
    h.total_eq, Port.input, Port.output]

theorem drivenBy_inner (name : String) :
    (innerInstance name).connections.flatMap (Part.drivenBy (innerInstance name, flat)) =
      [.ident "lhs_ready", .ident "rhs_ready", .ident "result", .ident "result_valid"] := by
  have hports := h.port_inner
  simp only [innerPorts, Port.input, Port.output, List.forall_mem_cons] at hports
  simp [innerInstance, innerPorts, Port.input, Port.output, sameName, wire, Part.drivenBy, hports]

theorem drivenBy_line (name line : String) :
    (lineInstance name).connections.flatMap
      (Part.drivenBy
        (lineInstance name, { (DelayLine.mk latency extra.totalWidth).body with name := line })) =
      [.ident "extra_outs"] := by
  have hports := h.port_line line
  simp only [Port.input, Port.output, List.forall_mem_cons] at hports
  simp [lineInstance, sameName, wire, leaveOpen, Part.drivenBy, hports]

/--
What is driven, by the wrapper, the operator or the line: the slices of one bus,
and whole signals.
-/
theorem driven_wrapper :
    (wrapper inner line width extra layout).drivenWith
      (wrapperParts inner line latency extra flat) =
      layout.slices.map (fun s => (⟨"extra_ins", s.lo, s.width⟩ : Region)) ++
        (["extra_ins_valid"] ++ extra.signals.map (fun e => "result" ++ "_" ++ e.name) ++
          ["lhs_ready", "rhs_ready", "result", "result_valid", "extra_outs"]).map fun name =>
            ⟨name, 0, (wrapper inner line width extra layout).circuit.widths.width name⟩ := by
  -- packing drives the bus slice by slice
  have hpack : (layout.slices.map fun s => (⟨Expr.select "extra_ins" layout.total s.lo s.width,
        .ident (PortGroup.fieldName ⟨"lhs", width, extra, none⟩ s.field)⟩ : Assign)).flatMap
        (fun a => a.target.regions (wrapper inner line width extra layout).circuit.widths.width) =
      layout.slices.map fun s => ⟨"extra_ins", s.lo, s.width⟩ := by
    rw [List.flatMap_map, List.map_eq_flatMap]
    refine List.flatMap_congr fun s hs => ?_
    obtain ⟨hpos, hreach⟩ := h.slice_reach hs
    exact Expr.regions_select hpos hreach h.total_le (h.width_bus (by simp))
  -- unpacking drives every extra signal of the result as a whole
  have hunpack : (layout.slices.map
      fun s => (⟨.ident (PortGroup.fieldName ⟨"result", width, extra, none⟩ s.field),
      Expr.select "extra_outs" layout.total s.lo s.width⟩ : Assign)).flatMap
        (fun a => a.target.regions (wrapper inner line width extra layout).circuit.widths.width) =
      (extra.signals.map fun e => "result" ++ "_" ++ e.name).map fun name =>
        ⟨name, 0, (wrapper inner line width extra layout).circuit.widths.width name⟩ := by
    rw [← map_fieldName h.layout_of, List.map_map, List.flatMap_map, List.map_eq_flatMap]
    rfl
  have hparts : ∀ p : Part, p.1.connections.flatMap (fun c =>
      (p.drivenBy c).flatMap
        (Expr.regions (wrapper inner line width extra layout).circuit.widths.width)) =
      (p.1.connections.flatMap p.drivenBy).flatMap
        (Expr.regions (wrapper inner line width extra layout).circuit.widths.width) :=
          fun p => List.flatMap_assoc.symm
  have hinner := h.drivenBy_inner inner
  have hline := h.drivenBy_line line line
  rw [Module.drivenWith, drivesOf_wrapper, List.flatMap_append, hpack, List.append_assoc,
    List.flatMap_cons, hunpack, wrapperParts, List.flatMap_cons, List.flatMap_cons,
    List.flatMap_nil, hparts, hparts, hinner, hline]
  simp [Expr.regions]

theorem bounded : ∀ s ∈ (wrapper inner line width extra layout).signals, s.2 ≤ wordBits := by
  have hone : 1 ≤ wordBits := by decide
  -- an extra signal is a slice of a bus that fits a word
  have hextra : ∀ e ∈ extra.signals, e.width ≤ wordBits := by
    intro e he
    obtain ⟨s, hs, -, hwidth⟩ := Layout.exists_slice h.layout_of he
    have hreach := (h.slice_reach hs).2
    have htotal := h.total_le
    omega
  have hgroup : ∀ (stem : String) (direction : Direction),
      ∀ p ∈ PortGroup.ports ⟨stem, width, extra, none⟩ direction, p.width ≤ wordBits := by
    intro stem direction p hp
    simp only [PortGroup.ports, PortGroup.channels, h.width_pos, if_true, Option.getD_none,
      Nat.one_mul, List.mem_append, List.mem_map, List.mem_cons, List.not_mem_nil, or_false] at hp
    rcases hp with (rfl | ⟨e, he, rfl⟩) | rfl | rfl
    · exact h.width_le
    · exact hextra e he
    · exact hone
    · exact hone
  rw [signals_wrapper h.total_pos]
  intro s hs
  rcases List.mem_append.mp hs with hs | hs
  · obtain ⟨p, hp, rfl⟩ := List.mem_map.mp hs
    simp only [outerPorts, operands, results, clockPorts, Port.input, List.flatMap_cons,
      List.flatMap_nil, List.append_nil, List.mem_append, List.mem_cons, List.not_mem_nil,
      or_false] at hp
    rcases hp with ((rfl | rfl) | hp | hp) | hp
    · exact hone
    · exact hone
    · exact hgroup _ _ p hp
    · exact hgroup _ _ p hp
    · exact hgroup _ _ p hp
  · simp only [List.mem_cons, List.not_mem_nil, or_false] at hs
    rcases hs with rfl | rfl | rfl
    · exact h.total_le
    · exact h.total_le
    · exact hone

/-- No name of the wrapper could be taken for one inside of its parts. -/
theorem outside : ∀ p ∈ wrapperParts inner line latency extra flat,
    ∀ name ∈ (wrapper inner line width extra layout).signals.map Prod.fst,
      ¬ p.start <+: name.toList := by
  have hstart : ∀ p ∈ wrapperParts inner line latency extra flat,
      p.start = "inner__".toList ∨ p.start = "buff__".toList := by
    simp only [wrapperParts, List.forall_mem_cons, List.not_mem_nil, false_imp_iff,
      implies_true, and_true]
    exact ⟨Or.inl rfl, Or.inr rfl⟩
  have hfixed : ∀ start ∈ ["inner__", "buff__"],
      (∀ name ∈ ["clk", "rst", "extra_ins", "extra_outs", "extra_ins_valid"],
        ¬ start.toList <+: name.toList) ∧
        ∀ stem ∈ ["lhs", "rhs", "result"], ¬ start.toList <+: stem.toList ∧
          ¬ stem.toList <+: start.toList := by
    decide
  intro p hp name hname hbegins
  obtain ⟨start, hin, hstarts⟩ : ∃ start ∈ ["inner__", "buff__"], p.start = start.toList := by
    rcases hstart p hp with heq | heq
    · exact ⟨_, by simp, heq⟩
    · exact ⟨_, by simp, heq⟩
  rw [hstarts] at hbegins
  obtain ⟨hnames, hstems⟩ := hfixed start hin
  rw [signals_wrapper h.total_pos, List.map_append, List.map_map] at hname
  rcases List.mem_append.mp hname with hname | hname
  · rcases outerPorts_start hname with rfl | rfl | ⟨g, hg, hstem⟩
    · exact hnames "clk" (by simp) hbegins
    · exact hnames "rst" (by simp) hbegins
    · have hg' : g.name ∈ ["lhs", "rhs", "result"] := by
        simp only [operands, results, List.cons_append, List.nil_append, List.mem_cons,
          List.not_mem_nil, or_false] at hg
        rcases hg with rfl | rfl | rfl <;> simp
      -- two beginnings of one name: one of them would begin the other
      exact (List.prefix_or_prefix_of_prefix hbegins hstem).elim (hstems _ hg').1 (hstems _ hg').2
  · refine hnames name ?_ hbegins
    have hbus : name ∈ ["extra_ins", "extra_outs", "extra_ins_valid"] := hname
    exact List.mem_cons_of_mem _ (List.mem_cons_of_mem _ hbus)

/-- Operator and line are well formed. -/
theorem wellFormed_parts : ∀ p ∈ wrapperParts inner line latency extra flat, p.2.WellFormed := by
  have hlatency : latency ≠ 0 := Nat.ne_of_gt h.latency_pos
  simp only [wrapperParts, List.forall_mem_cons, List.not_mem_nil, false_imp_iff,
    implies_true, and_true]
  exact ⟨h.wellFormed, (DelayLine.wellFormed_body hlatency h.extra_le).named line⟩

/-- The driven signals are outputs and nets; of these, only the bus is driven piece by piece. -/
theorem nodup_driven :
    ("extra_ins" ::
      (["extra_ins_valid"] ++ extra.signals.map (fun e => "result" ++ "_" ++ e.name) ++
      ["lhs_ready", "rhs_ready", "result", "result_valid", "extra_outs"])).Nodup := by
  have hdistinct : ((wrapper "" "" width extra layout).signals.map Prod.fst).Nodup := h.distinct
  have hdrivable := Module.nodup_drivable hdistinct
  rw [drivable_wrapper h.width_pos h.total_pos] at hdrivable
  -- these are the drivable names in another order
  refine (List.Perm.nodup_iff (List.perm_iff_count.mpr fun name => ?_)).mp hdrivable
  simp only [List.count_append, List.count_cons, List.count_nil]
  omega

/-- No bit has two drivers, since slices do not overlap and names are distinct. -/
theorem apart_driven :
    ((wrapper inner line width extra layout).drivenWith
      (wrapperParts inner line latency extra flat)).Pairwise
      Region.Apart := by
  obtain ⟨hbus, hwhole⟩ := List.nodup_cons.mp h.nodup_driven
  rw [h.driven_wrapper, List.pairwise_append]
  refine ⟨?_, Region.apart_of_nodup hwhole _, ?_⟩
  · have hslices :=
      Layout.pairwise_place 0 (extra.signals.map fun e => (Field.extra e.name, e.width))
    rw [← Layout.slices_of h.layout_of] at hslices
    exact List.pairwise_map.mpr (hslices.imp fun hst _ => Or.inl hst)
  · intro r hr t ht
    obtain ⟨s, -, rfl⟩ := List.mem_map.mp hr
    obtain ⟨name, hname, rfl⟩ := List.mem_map.mp ht
    refine Region.apart_of_ne fun heq => hbus ?_
    have hsame : "extra_ins" = name := heq
    rwa [← hsame] at hname

theorem mem_drivable {name : String}
    (hname : name ∈ ["extra_ins_valid"] ++ extra.signals.map (fun e => "result" ++ "_" ++ e.name) ++
      ["lhs_ready", "rhs_ready", "result", "result_valid", "extra_outs"] ∨ name = "extra_ins") :
    name ∈ (wrapper inner line width extra layout).drivable := by
  rw [drivable_wrapper h.width_pos h.total_pos]
  simp only [List.mem_append, List.mem_cons, List.not_mem_nil, or_false] at hname ⊢
  tauto

/-- **A wrapper connects the operator and the delay line properly.** -/
theorem assembled :
    (wrapper inner line width extra layout).Assembled
      (wrapperParts inner line latency extra flat) := by
  -- what is declared, by its width: bits, payloads, buses, extra signals
  have hbit : ∀ name ∈ ["clk", "rst", "lhs_valid", "lhs_ready", "rhs_valid", "rhs_ready",
      "result_valid", "result_ready", "extra_ins_valid"],
      (wrapper inner line width extra layout).circuit.widths.Declares name :=
    fun name hname => Module.declares_of_mem (mem_signals_bits h.total_pos name hname)
  have hdata : ∀ name ∈ ["lhs", "rhs", "result"],
      (wrapper inner line width extra layout).circuit.widths.Declares name :=
    fun name hname => Module.declares_of_mem (mem_signals_data h.width_pos h.total_pos name hname)
  have hbus : ∀ name ∈ ["extra_ins", "extra_outs"],
      (wrapper inner line width extra layout).circuit.widths.Declares name ∧
        (wrapper inner line width extra layout).circuit.widths.width name =
          layout.total := fun name hname =>
    ⟨Module.declares_of_mem (mem_signals_bus h.total_pos name hname), h.width_bus hname⟩
  have hselect : ∀ name ∈ ["extra_ins", "extra_outs"], ∀ s ∈ layout.slices,
      (Expr.select name layout.total s.lo s.width).IsTarget
        (wrapper inner line width extra layout).circuit.widths := by
    intro name hname s hs
    obtain ⟨hpos, hreach⟩ := h.slice_reach hs
    exact Expr.isTarget_select hpos hreach h.total_le (hbus name hname).1 (hbus name hname).2
  have hfield : ∀ stem ∈ ["lhs", "rhs", "result"], ∀ s ∈ layout.slices,
      (wrapper inner line width extra layout).circuit.widths.Declares
        (PortGroup.fieldName ⟨stem, width, extra, none⟩ s.field) :=
    fun stem hstem s hs => Module.declares_of_mem (h.mem_signals_field hs stem hstem)
  refine ⟨⟨h.distinct, h.bounded, ?_, ?_, h.outside, ?_, ?_, ?_, ?_, ?_, h.apart_driven, ?_⟩,
    h.wellFormed_parts⟩
  · simp [wrapper, bypassBody, anonymous, Item.processesOf, Item.processes]
  · -- names inside of the parts begin with different names of instances
    have happart : KeptApart ["inner", "buff"] [] := by decide
    exact KeptApart.separate happart
  · -- what the assigns read
    intro a ha
    rw [drivesOf_wrapper, List.mem_append, List.mem_cons] at ha
    rcases ha with ha | rfl | ha
    · obtain ⟨s, hs, rfl⟩ := List.mem_map.mp ha
      exact hfield "lhs" (by simp) s hs
    · exact ⟨hbit "lhs_valid" (by simp), hbit "rhs_valid" (by simp)⟩
    · obtain ⟨s, hs, rfl⟩ := List.mem_map.mp ha
      exact (hselect "extra_outs" (by simp) s hs).typed
  · -- what they drive
    intro a ha
    rw [drivesOf_wrapper, List.mem_append, List.mem_cons] at ha
    rcases ha with ha | rfl | ha
    · obtain ⟨s, hs, rfl⟩ := List.mem_map.mp ha
      exact hselect "extra_ins" (by simp) s hs
    · exact hbit "extra_ins_valid" (by simp)
    · obtain ⟨s, hs, rfl⟩ := List.mem_map.mp ha
      exact hfield "result" (by simp) s hs
  · -- what the parts are connected to
    simp only [List.forall_mem_cons] at hbit hdata hbus
    simp [-Prod.forall, wrapperParts, innerInstance, innerPorts, Port.input, Port.output,
      lineInstance, sameName, wire, leaveOpen, Expr.Typed, hbit, hdata, hbus]
  · -- what the parts drive
    have hinner := h.drivenBy_inner inner
    have hline := h.drivenBy_line line line
    simp only [wrapperParts, List.forall_mem_cons, List.not_mem_nil, false_imp_iff,
      implies_true, and_true]
    constructor
    · intro c hc e he
      have hmem := List.mem_flatMap.mpr ⟨c, hc, he⟩
      rw [hinner] at hmem
      simp only [List.mem_cons, List.not_mem_nil, or_false] at hmem
      rcases hmem with rfl | rfl | rfl | rfl
      · exact hbit "lhs_ready" (by simp)
      · exact hbit "rhs_ready" (by simp)
      · exact hdata "result" (by simp)
      · exact hbit "result_valid" (by simp)
    · intro c hc e he
      have hmem := List.mem_flatMap.mpr ⟨c, hc, he⟩
      rw [hline] at hmem
      rw [List.mem_singleton.mp hmem]
      exact (hbus "extra_outs" (by simp)).1
  · simp [wrapperParts, innerInstance, innerPorts, Port.input, Port.output, lineInstance, sameName,
      wire, leaveOpen]
  · intro name hname r hr
    refine Module.input_ne_drivable h.distinct hname (h.mem_drivable ?_)
    rw [h.driven_wrapper] at hr
    rcases List.mem_append.mp hr with hr | hr
    · obtain ⟨s, -, rfl⟩ := List.mem_map.mp hr
      exact Or.inr rfl
    · obtain ⟨driven, hdriven, rfl⟩ := List.mem_map.mp hr
      exact Or.inl hdriven

/-! ## Ranks -/

theorem rank_input {name : String}
    (hname : name ∈ ["clk", "rst", "lhs", "lhs_valid", "rhs", "rhs_valid",
    "result_ready"] ++ extra.signals.map fun e => "lhs" ++ "_" ++ e.name) :
    ownRank (wrapper inner line width extra layout) name = 0 := by
  refine if_pos ?_
  rw [inputs_wrapper h.width_pos]
  simp only [List.mem_append, List.mem_cons, List.not_mem_nil, or_false] at hname ⊢
  tauto

/-- The bus into the line comes first, then the bus out of it, then the outputs. -/
theorem rank_driven {name : String}
    (hname : name ∈ (wrapper inner line width extra layout).drivable) :
    ownRank (wrapper inner line width extra layout) name =
      if name ∈ ["extra_ins", "extra_ins_valid"] then 1 else if name = "extra_outs" then 8 else 9 :=
  if_neg fun hin => Module.input_ne_drivable h.distinct hin hname rfl

theorem rank_fixed {name : String}
    (hname : name ∈ ["lhs_ready", "rhs_ready", "result", "result_valid", "extra_ins", "extra_outs",
    "extra_ins_valid"]) :
    ownRank (wrapper inner line width extra layout) name =
      if name ∈ ["extra_ins", "extra_ins_valid"] then 1
      else if name = "extra_outs" then 8
      else 9 := by
  refine h.rank_driven ?_
  rw [drivable_wrapper h.width_pos h.total_pos]
  simp only [List.mem_append, List.mem_cons, List.not_mem_nil, or_false] at hname ⊢
  tauto

theorem rank_extra {e : ExtraSignal} (he : e ∈ extra.signals) :
    ownRank (wrapper inner line width extra layout) ("result" ++ "_" ++ e.name) = 9 := by
  have hne : ∀ name ∈ ["extra_ins", "extra_ins_valid", "extra_outs"],
      "result_" ++ e.name ≠ name := by
    have hstart : ∀ name ∈ ["extra_ins", "extra_ins_valid", "extra_outs"],
        ¬ "result_".toList <+: name.toList := by
      decide
    exact fun name hname => (ne_append_of_start (hstart name hname) e.name).symm
  simp only [List.forall_mem_cons] at hne
  rw [h.rank_driven]
  · simp [hne]
  · rw [drivable_wrapper h.width_pos h.total_pos]
    exact List.mem_append_left _ (List.mem_append_right _ (List.mem_map_of_mem he))

/-- The wrapper's own assigns go from lower to higher ranks. -/
theorem ascends : ∀ a ∈ Item.drivesOf (wrapper inner line width extra layout).items,
    a.Ascends (ownRank (wrapper inner line width extra layout)) := by
  intro a ha
  rw [drivesOf_wrapper, List.mem_append, List.mem_cons] at ha
  rcases ha with ha | rfl | ha
  · obtain ⟨s, hs, rfl⟩ := List.mem_map.mp ha
    obtain ⟨e, he, hfield, -⟩ := Layout.mem_slices h.layout_of hs
    intro name hname target htarget
    have hname' : name = "lhs" ++ "_" ++ e.name := by rw [List.mem_singleton.mp hname, hfield]; rfl
    have htarget' : target = "extra_ins" := by
      rwa [Expr.reads_select, List.mem_singleton] at htarget
    rw [hname', htarget', h.rank_input (List.mem_append_right _ (List.mem_map_of_mem he)),
      h.rank_fixed (by simp)]
    decide
  · intro name hname target htarget
    have hname' : name ∈ ["lhs_valid", "rhs_valid"] := hname
    rw [h.rank_input, List.mem_singleton.mp htarget, h.rank_fixed (by simp)]
    · decide
    · simp only [List.mem_append, List.mem_cons, List.not_mem_nil, or_false] at hname' ⊢
      tauto
  · obtain ⟨s, hs, rfl⟩ := List.mem_map.mp ha
    obtain ⟨e, he, hfield, -⟩ := Layout.mem_slices h.layout_of hs
    intro name hname target htarget
    have hname' : name = "extra_outs" := by rwa [Expr.reads_select, List.mem_singleton] at hname
    have htarget' : target = "result" ++ "_" ++ e.name := by
      rw [List.mem_singleton.mp htarget, hfield]; rfl
    rw [hname', htarget', h.rank_extra he, h.rank_fixed (by simp)]
    decide

omit h in
theorem acyclic_line (hlatency : latency ≠ 0) (hpos : 0 < extra.totalWidth) :
    (DelayLine.mk latency extra.totalWidth).body.circuit.Acyclic lineRank := by
  have hvalid : ∀ i, lineRank (DelayLine.validName i) = 0 := rankIn_numbered (by decide)
  have hdata : ∀ i, lineRank (DelayLine.dataName i) = 0 := rankIn_numbered (by decide)
  intro a ha
  rw [DelayLine.assigns_body hlatency hpos] at ha
  simp only [List.mem_cons, List.not_mem_nil, or_false] at ha
  rcases ha with rfl | rfl | rfl <;> simp [Assign.Ascends, Expr.reads, hvalid, hdata] <;> decide

/--
No signal depends on itself. The ports of the operator are ranked between those
of the two buses.
-/
theorem ranked {rank : String → Nat} (hrank : flat.circuit.Acyclic rank)
    (hlow : ∀ p ∈ innerPorts width, rank p.name ≤ 6) :
    (wrapper inner line width extra layout).Ranked (wrapperParts inner line latency extra flat)
      (ownRank (wrapper inner line width extra layout))
      fun p => if p.1.name = "inner" then fun name => rank name + 1 else lineRank := by
  have hparts : ∀ p ∈ wrapperParts inner line latency extra flat, p.2.WellFormed :=
    h.wellFormed_parts
  have hports := h.port_line line
  simp only [wrapperParts, List.forall_mem_cons, List.not_mem_nil, false_imp_iff, implies_true,
    and_true] at hparts
  simp only [Port.input, Port.output, List.forall_mem_cons] at hports
  have hinputs : ∀ p ∈ innerPorts width, p.direction = .input →
      ownRank (wrapper inner line width extra layout) p.name = 0 := by
    simp [innerPorts, Port.input, Port.output, h.rank_input]
  have houtputs : ∀ p ∈ innerPorts width, p.direction = .output →
      ownRank (wrapper inner line width extra layout) p.name = 9 := by
    simp [innerPorts, Port.input, Port.output, h.rank_fixed]
  refine ⟨h.ascends, ?_, ?_⟩
  · simp only [wrapperParts, List.forall_mem_cons, List.not_mem_nil, false_imp_iff,
      implies_true, and_true]
    constructor
    · exact fun a ha name hname target htarget =>
        Nat.succ_lt_succ (hrank a ha name hname target htarget)
    · exact acyclic_line (Nat.ne_of_gt h.latency_pos) (ExtraSignals.totalWidth_pos h.extra_ne)
  · simp only [wrapperParts, List.forall_mem_cons, List.not_mem_nil, false_imp_iff,
      implies_true, and_true]
    constructor
    · refine Part.ranked_of_ports hparts.1.distinct fun c hc e he q hq name hname => ?_
      have hc' : c ∈ (innerPorts width).map fun p => sameName p.name := hc
      obtain ⟨p, hp, rfl⟩ := List.mem_map.mp hc'
      obtain rfl : q = p := Option.some.inj (hq.symm.trans (h.port_inner p hp))
      obtain rfl := Option.some.inj he
      obtain rfl := List.mem_singleton.mp hname
      -- ports of the operator lead from rank 0 outside through ranks 1 to 7 inside to rank 9
      cases hdirection : q.direction with
      | input =>
          show ownRank _ q.name < rank q.name + 1
          rw [hinputs q hp hdirection]
          exact Nat.succ_pos _
      | output =>
          show rank q.name + 1 < ownRank _ q.name
          have hleast := hlow q hp
          rw [houtputs q hp hdirection]
          omega
    · refine Part.ranked_of_ports hparts.2.distinct ?_
      simp [-Prod.forall, lineInstance, sameName, wire, leaveOpen, hports, Expr.reads, h.rank_input,
        h.rank_fixed, lineRank, rankIn, lookup_cons]

/-! ## What the wrapper connects -/

section

variable {whole : Module} {x : State}
  (hf : Flattens (wrapper inner line width extra layout)
    (wrapperParts inner line latency extra flat) whole) (hx : whole.circuit.Settled x)
  (hfits : whole.circuit.widths.Fits x)
include hf hx hfits

/-- The signals of the operator inside are those of the wrapper that have their names. -/
theorem inner_eq {name : String} (hname : name ∈ (innerPorts width).map Port.name) :
    x ("inner__" ++ name) = x name := by
  obtain ⟨p, hp, rfl⟩ := List.mem_map.mp hname
  have hwidth : (wrapper inner line width extra layout).circuit.widths.width p.name = p.width :=
    Module.width_eq h.distinct (mem_signals_inner h.width_pos h.total_pos p hp)
  have hconnection := mem_connections_inner inner hp
  cases hdirection : p.direction with
  | input =>
      exact hf.input_ident h.assembled hx hfits mem_inner p.name p.name hconnection
        (h.port_inner p hp) hdirection hwidth
  | output =>
      exact (hf.output_ident h.assembled hx hfits mem_inner p.name p.name hconnection
        (h.port_inner p hp) hdirection hwidth).symm

/-- What the delay line is connected to. -/
theorem line_wires :
    x "buff__rst" = x "rst" ∧ x "buff__ins" = x "extra_ins" ∧
      x "buff__ins_valid" = x "extra_ins_valid" ∧
      x "buff__outs_ready" = x "result_ready" ∧ x "extra_outs" = x "buff__outs" := by
  have hports := h.port_line line
  refine ⟨?_, ?_, ?_, ?_, ?_⟩
  · exact hf.input_ident h.assembled hx hfits mem_line "rst" "rst"
      (by simp [lineInstance, sameName, wire])
      (hports (.input 1 "rst") (by simp)) rfl (h.width_bit (by simp))
  · exact hf.input_ident h.assembled hx hfits mem_line "ins" "extra_ins"
      (by simp [lineInstance, wire])
      (hports (.input layout.total "ins") (by simp)) rfl (h.width_bus (by simp))
  · exact hf.input_ident h.assembled hx hfits mem_line "ins_valid" "extra_ins_valid"
      (by simp [lineInstance, wire])
      (hports (.input 1 "ins_valid") (by simp)) rfl (h.width_bit (by simp))
  · exact hf.input_ident h.assembled hx hfits mem_line "outs_ready" "result_ready"
      (by simp [lineInstance, wire])
      (hports (.input 1 "outs_ready") (by simp)) rfl (h.width_bit (by simp))
  · exact hf.output_ident h.assembled hx hfits mem_line "outs" "extra_outs"
      (by simp [lineInstance, wire])
      (hports (.output layout.total "outs") (by simp)) rfl (h.width_bus (by simp))

omit hfits in
/-- The line takes the extra signals when both operands are valid. -/
theorem offered_eq : high x "extra_ins_valid" = (high x "lhs_valid" && high x "rhs_valid") := by
  have hholds := hf.holds_own h.assembled hx (a := ⟨.ident "extra_ins_valid",
    .binary .and (.ident "lhs_valid") (.ident "rhs_valid")⟩) (by rw [drivesOf_wrapper]; simp)
  have hbit := hholds.1 0 (by dsimp only; rw [h.width_bit (by simp)]; exact Nat.one_pos)
  simpa [Expr.value, BinaryOp.eval, Expr.size, h.width_bit, high, Word.getLsbD_low] using hbit

omit hfits in
/-- The bus into the line has the extra signals of the left operand side by side. -/
theorem packed {s : Slice} (hs : s ∈ layout.slices) {i : Nat} (hi : i < s.width) :
    (x "extra_ins").getLsbD (s.lo + i) =
      (x (PortGroup.fieldName ⟨"lhs", width, extra, none⟩ s.field)).getLsbD i := by
  obtain ⟨hpos, hreach⟩ := h.slice_reach hs
  have hholds := hf.holds_own h.assembled hx
    (a := ⟨Expr.select "extra_ins" layout.total s.lo s.width,
      .ident (PortGroup.fieldName ⟨"lhs", width, extra, none⟩ s.field)⟩)
    (by rw [drivesOf_wrapper]; exact List.mem_append_left _ (List.mem_map.mpr ⟨s, hs, rfl⟩))
  unfold Assign.Holds at hholds
  rw [Expr.regions_select hpos hreach h.total_le (h.width_bus (by simp))] at hholds
  have hbit := hholds.1 i hi
  rw [Nat.zero_add] at hbit
  exact hbit

/-- The extra signals of the result stand side by side on the bus out of the line. -/
theorem unpacked {s : Slice} (hs : s ∈ layout.slices) {i : Nat} (hi : i < s.width) :
    (x (PortGroup.fieldName ⟨"result", width, extra, none⟩ s.field)).getLsbD i =
      (x "extra_outs").getLsbD (s.lo + i) := by
  obtain ⟨hpos, hreach⟩ := h.slice_reach hs
  have hholds := hf.holds_own h.assembled hx
    (a := ⟨.ident (PortGroup.fieldName ⟨"result", width, extra, none⟩ s.field),
      Expr.select "extra_outs" layout.total s.lo s.width⟩)
    (by
      rw [drivesOf_wrapper]
      exact List.mem_append_right _ (List.mem_cons_of_mem _ (List.mem_map.mpr ⟨s, hs, rfl⟩)))
  have hfield : (wrapper inner line width extra layout).circuit.widths.width
      (PortGroup.fieldName ⟨"result", width, extra, none⟩ s.field) = s.width :=
    Module.width_eq h.distinct (h.mem_signals_field hs "result" (by simp))
  have hlow := hf.low_own h.assembled hfits (mem_signals_bus h.total_pos "extra_outs" (by simp))
  have hbit := hholds.1 i (hfield ▸ hi)
  dsimp only at hbit
  rwa [Expr.value_select hpos hreach h.total_le hlow, Nat.zero_add, Word.getLsbD_low,
    Word.getLsbD_down, decide_eq_true hi, Bool.and_true] at hbit

end

/-- **If the bus out of the line shows what was on the bus into it, so do the extra signals.** -/
theorem carried {whole : Module}
    (hf : Flattens (wrapper inner line width extra layout)
      (wrapperParts inner line latency extra flat) whole) {x origin : State}
    (hx : whole.circuit.Settled x) (hfits : whole.circuit.widths.Fits x)
    (ho : whole.circuit.Settled origin) (hofits : whole.circuit.widths.Fits origin)
    (hbus : x "extra_outs" = origin "extra_ins") {e : ExtraSignal} (he : e ∈ extra.signals) :
    x ("result_" ++ e.name) = origin ("lhs_" ++ e.name) := by
  obtain ⟨s, hs, hfield, hwidth⟩ := Layout.exists_slice h.layout_of he
  have hresult := hf.low_own h.assembled hfits (h.mem_signals_field hs "result" (by simp))
  have hleft := hf.low_own h.assembled hofits (h.mem_signals_field hs "lhs" (by simp))
  have hbits : ∀ i < s.width,
      (x (PortGroup.fieldName ⟨"result", width, extra, none⟩ s.field)).getLsbD i =
      (origin (PortGroup.fieldName ⟨"lhs", width, extra, none⟩ s.field)).getLsbD i := by
    intro i hi
    rw [h.unpacked hf hx hfits hs hi, hbus, h.packed hf ho hs hi]
  have hsame : x (PortGroup.fieldName ⟨"result", width, extra, none⟩ s.field) =
      origin (PortGroup.fieldName ⟨"lhs", width, extra, none⟩ s.field) := by
    rw [← hresult, ← hleft]
    refine BitVec.eq_of_getLsbD_eq fun i _ => ?_
    rw [Word.getLsbD_low, Word.getLsbD_low]
    by_cases hi : i < s.width
    · rw [hbits i hi]
    · simp [hi]
  rw [hfield] at hsame
  exact hsame

end Wrappable

end Manager

end Handshake
