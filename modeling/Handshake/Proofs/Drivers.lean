import Handshake.Proofs.Netlists
import Handshake.Proofs.Tilings

/-!
# Every bit has one driver

The sources of each body of a block tile its outputs and nets: most drive whole
signals, joins and merges drive the ready bits of their channels one by one, and
wrappers drive buses and ports slice by slice.

There is one lemma for each body that a block can have, and `Body.tiled`
collects them. The bodies without instances are tiled in any artifact. For the
others it matters what the artifact offers under the names they instantiate,
since an instance drives what is connected to the outputs of its module; of an
external module the one output is known by its name.

So in every module of a generated artifact each bit of an output or a net has
exactly one source, and each register is written by exactly one process.
-/

namespace Handshake

/-! ## Modules without submodules -/

section

variable (a : Artifact)

/-- A join drives its ready signal bit by bit, one bit for each channel. -/
theorem Join.tiled (size : Nat) : (body size).Tiled a [] := by
  have hdrivable : (body size).drivable = ["ins_ready", "outs_valid"] := by
    simp [Module.drivable, body, anonymous, handshakePorts, PortGroup.ports, PortGroup.channels,
      PortGroup.valid, PortGroup.ready, ExtraSignals.empty, Direction.flip, Item.declsOf,
      Item.decls]
  have hready : (body size).width? "ins_ready" = some size :=
    Module.width?_of_mem (Module.distinct_of_declared (distinct_join size)) (by simp [signals_body])
  refine .of_lanes (instancesOf_join size) rfl rfl (assigns_body size) hready ?_
  rw [hdrivable]
  exact List.Perm.refl _

theorem PriorityMerge.tiled (size width : Nat) : (body size width).Tiled a [] := by
  have hports : (body size width).ports = passThroughPorts size width := rfl
  have hdrivable : (body size width).drivable =
      ["ins_ready"] ++ ifData width ["outs"] ++ ["outs_valid"] := by
    rw [Module.drivable, ports_passThrough hports]
    by_cases hw : 0 < width <;>
      simp [ifData, hw, clockPorts, Port.input, body, anonymous, Item.declsOf, Item.decls]
  obtain ⟨-, -, hready, -⟩ :=
    Module.width?_passThrough hports
      (Module.distinct_of_declared (distinct_priorityMerge size width))
  refine .of_lanes (instancesOf_priorityMerge size width) rfl rfl
    (assigns_lanes size width) hready ?_
  rw [hdrivable]
  by_cases hw : 0 < width <;> simp [ifData, hw]

/-- The two registers of the slot are written by a process each. -/
theorem ReadyBreak.tiled (width : Nat) :
    (body width).Tiled a ([["full"]] ++ ifData width [["data_reg"]]) := by
  refine .of_slot rfl (instancesOf_readyBreak width) (declsOf_body width) (assigns_body width)
    (processes_body width) ?_ ?_
  · intro name
    simp [assigned_full]
  · intro name
    rw [assigned_data]

theorem DataBreak.tiled (width : Nat) :
    (body width).Tiled a ([["valid_reg"]] ++ ifData width [["data_reg"]]) := by
  refine .of_slot rfl (instancesOf_dataBreak width) (declsOf_body width) (assigns_body width)
    (processes_body width) ?_ ?_
  · intro name
    simp [Statement.assignedAll, Statement.assigned, Expr.reads]
  · intro name
    simp [Statement.assignedAll, Statement.assigned, Expr.reads]

/-- A delay drives its output, and one process writes all its slots. -/
theorem DelayBuffer.tiled (slots : Nat) :
    (body slots).Tiled a (if slots = 0 then [] else [(List.range slots).map slotName]) := by
  by_cases h : slots = 0
  · subst h
    have hsources : (body 0).sources a = ["valid_out"].map Expr.ident := rfl
    exact .of_names hsources (by decide) rfl .nil
  · have hsources : (body slots).sources a = ["valid_out"].map Expr.ident :=
      Module.sources_of_leaf (instancesOf_delayBuffer slots) (assigns_body h)
    rw [if_neg h]
    refine .of_names hsources ?_ ?_ ?_
    · simp [Module.drivable, body, h, anonymous, ports, clockPorts, Port.input, Port.output,
        process, Item.clocked, Item.declsOf, Item.decls, Decl.reg]
    · simp [Module.storage, body, h, anonymous, process, Item.clocked, Item.declsOf,
        Item.decls, Decl.reg, List.filter_map, Function.comp_def]
    · rw [show Item.processesOf (body slots).items = _ from processes_body h]
      refine .cons (fun name => ?_) .nil
      simp only [Statement.assignedAll, Statement.assigned, List.append_nil, List.mem_append,
        List.mem_map, List.mem_range, Statement.mem_assigned_clear, Statement.mem_assigned_shift,
        or_self]

/-- Valid bits and data of a delay line are written by a process each. -/
theorem DelayLine.tiled {line : DelayLine} (h : line.latency ≠ 0) (hw : 0 < line.width) :
    line.body.Tiled
      a [(List.range line.latency).map validName, (List.range line.latency).map dataName] := by
  have hsources : line.body.sources a = ["en", "outs", "outs_valid"].map Expr.ident :=
    Module.sources_of_leaf (instancesOf_body h hw) (assigns_body h hw)
  refine .of_names hsources ?_ ?_ ?_
  · have hdrivable : line.body.drivable = ["outs", "outs_valid", "en"] := by
      simp [Module.drivable, body, h, anonymous, ports, clockPorts, ifData, hw, Port.input,
        Port.output, decls, validProcess, dataProcess, outputs, Item.clocked, Item.declsOf,
        Item.decls, Decl.net, Decl.reg, List.filter_map, Function.comp_def]
    rw [hdrivable]
    decide
  · rw [storage_body h hw]
    simp
  · rw [show Item.processesOf line.body.items = _ from processes_body h hw]
    refine .cons (fun name => ?_) (.cons (fun name => ?_) .nil)
    · simp only [Statement.assignedAll, Statement.assigned, List.append_nil, List.mem_append,
        List.mem_map, List.mem_range, Statement.mem_assigned_clear, Statement.mem_assigned_shift,
        or_self]
    · simp only [Statement.assignedAll, Statement.assigned, List.append_nil, List.mem_map,
        List.mem_range, Statement.mem_assigned_shift]

theorem Multiplier.tiled_core (width : Nat) :
    (coreBody width).Tiled a [["a_reg", "b_reg", "q0", "q1", "q2"]] := by
  have hsources : (coreBody width).sources a = ["mul", "p"].map Expr.ident := rfl
  have hdrivable : (coreBody width).drivable = ["p", "mul"] := rfl
  refine .of_names hsources ?_ rfl (.cons (fun name => Iff.rfl) .nil)
  rw [hdrivable]
  decide

end

/-! ## Modules with submodules -/

/-- The outputs that an instance has are those of the module that the artifact offers. -/
theorem Artifact.Offers.outputs {a : Artifact} {name : String} {ports : List Port}
    (h : a.Offers name ports) (ha : a.Coherent) :
    a.outputs name = (ports.filter fun p => p.direction = .output).map Port.name := by
  obtain ⟨b, hb, rfl, rfl⟩ := h
  cases hget : a.get? b.identity with
  | none => exact absurd (List.mem_map_of_mem hb) (Artifact.get?_eq_none_iff.mp hget)
  | some b' =>
      -- one name has one meaning
      obtain ⟨hb', hname⟩ := Artifact.get?_some hget
      obtain rfl := List.inj_on_of_nodup_map ha.distinct hb' hb hname
      rw [Artifact.outputs, hget]

/-- The cores and converters from outside have one output. -/
theorem Artifact.outputs_external {a : Artifact} {name : String} (h : name ∈ a.externals)
    (ha : a.Coherent) : a.outputs name = ["R"] := by
  have hget : a.get? name = none := by
    refine Artifact.get?_eq_none_iff.mpr fun hmem => ?_
    obtain ⟨b, hb, rfl⟩ := List.mem_map.mp hmem
    exact ha.apart b hb h
  rw [Artifact.outputs, hget]

/-- An instance whose ports are connected to whole signals drives those at its outputs. -/
theorem Instance.driven_of_wires {a : Artifact} {i : Instance} {ports : List Port}
    {wires : List (Port × String)}
    (hconnections : i.connections = wires.map fun w => (w.1.name, some (.ident w.2)))
    (hoffers : a.Offers i.moduleName ports) (ha : a.Coherent) (hports : ∀ w ∈ wires, w.1 ∈ ports)
    (hnames : (ports.map Port.name).Nodup) :
    i.driven a = ((wires.filter fun w => w.1.direction = .output).map Prod.snd).map Expr.ident := by
  have houtput : ∀ w ∈ wires, w.1.name ∈ a.outputs i.moduleName ↔ w.1.direction = .output := by
    intro w hw
    rw [hoffers.outputs ha, List.mem_map]
    constructor
    · rintro ⟨q, hq, hname⟩
      obtain ⟨hq, hdirection⟩ := List.mem_filter.mp hq
      rw [← List.inj_on_of_nodup_map hnames hq (hports w hw) hname]
      exact of_decide_eq_true hdirection
    · intro hdirection
      exact ⟨w.1, List.mem_filter.mpr ⟨hports w hw, decide_eq_true hdirection⟩, rfl⟩
  rw [driven, hconnections, List.filterMap_map]
  clear hconnections hports
  induction wires with
  | nil => rfl
  | cons w rest ih =>
      obtain ⟨hw, hrest⟩ := List.forall_mem_cons.mp houtput
      rw [List.filterMap_cons, ih hrest]
      by_cases hdirection : w.1.direction = .output
      · simp [hw.mpr hdirection, hdirection]
      · simp [mt hw.mp hdirection, hdirection]

/-- A merge drives nothing itself: its two parts drive its ports and the nets between them. -/
theorem Merge.tiled {a : Artifact} {inner output : String} {size width : Nat} (ha : a.Coherent)
    (hinner : a.Offers inner (passThroughPorts size width))
    (houtput : a.Offers output (passThroughPorts 1 width)) :
    (body inner output size width).Tiled a [] := by
  have hports : (body inner output size width).ports = passThroughPorts size width := rfl
  have hnodup : ∀ size : Nat, ((passThroughPorts size width).map Port.name).Nodup := by
    intro size
    rw [names_passThroughPorts]
    by_cases hw : 0 < width <;> simp [ifData, hw]
  -- what each part drives: the signals at its outputs, some of which depend on the width
  have hmerge : (mergePart size width inner).1.driven a =
      (["ins_ready", "one_slot_break_r_pvalid"] ++ ifData width ["one_slot_break_r_data_in"]).map
        Expr.ident := by
    have hplugs := plugs_merge size width inner
    rw [Instance.driven_of_wires hplugs.connections hinner ha
      (fun w hw => List.mem_of_find?_eq_some (hplugs.ports w hw)) (hnodup size)]
    by_cases hw : 0 < width <;> simp [mergeWires, ifData, hw]
  have hbuffer : (bufferPart width output).1.driven a =
      (["one_slot_break_r_ready", "outs_valid"] ++ ifData width ["outs"]).map Expr.ident := by
    have hplugs := plugs_buffer width output
    rw [Instance.driven_of_wires hplugs.connections houtput ha
      (fun w hw => List.mem_of_find?_eq_some (hplugs.ports w hw)) (hnodup 1)]
    by_cases hw : 0 < width <;> simp [bufferWires, ifData, hw]
  have hsources : (body inner output size width).sources a =
      (["ins_ready", "one_slot_break_r_pvalid"] ++ ifData width ["one_slot_break_r_data_in"] ++
        (["one_slot_break_r_ready", "outs_valid"] ++ ifData width ["outs"])).map Expr.ident := by
    have hinstances : Item.instancesOf (body inner output size width).items =
        [(mergePart size width inner).1, (bufferPart width output).1] := rfl
    rw [Module.sources, hinstances, List.flatMap_cons, List.flatMap_singleton, hmerge, hbuffer,
      ← List.map_append]
    rfl
  have hdrivable : (body inner output size width).drivable =
      ["ins_ready"] ++ ifData width ["outs"] ++ ["outs_valid"] ++
      (ifData width ["one_slot_break_r_data_in"] ++
        ["one_slot_break_r_pvalid", "one_slot_break_r_ready"]) := by
    rw [Module.drivable, ports_passThrough hports]
    by_cases hw : 0 < width <;>
      simp [ifData, hw, clockPorts, Port.input, body, anonymous, Item.declsOf, Item.decls,
        decls, Decl.net]
  have hstorage : (body inner output size width).storage = [] := by
    by_cases hw : 0 < width <;>
      simp [Module.storage, ifData, hw, body, anonymous, Item.declsOf, Item.decls, decls, Decl.net]
  -- the two lists have the same names in another order
  refine .of_names hsources ?_ hstorage .nil
  rw [hdrivable]
  unfold ifData
  split <;> decide

namespace Operator

/-- What the parts of the control drive. -/
theorem driven_control {a : Artifact} {join delay output : String} (ha : a.Coherent)
    (hjoin : a.Offers join (Join.body 2).ports) (hdelay : a.Offers delay DelayBuffer.ports)
    (houtput : a.Offers output (passThroughPorts 1 0)) :
    [joinInstance join, delayInstance delay, outputInstance output].flatMap (Instance.driven a) =
      [.ident "join_valid", .concat [.ident "rhs_ready", .ident "lhs_ready"], .ident "buff_valid",
        .ident enable, .ident "result_valid"] := by
  have hjoin' : a.outputs join = ["ins_ready", "outs_valid"] := hjoin.outputs ha
  have hdelay' : a.outputs delay = ["valid_out"] := hdelay.outputs ha
  have houtput' : a.outputs output = ["ins_ready", "outs_valid"] := houtput.outputs ha
  simp [Instance.driven, joinInstance, delayInstance, outputInstance, clockWires, sameName, wire,
    hjoin', hdelay', houtput']

/-- An operator is driven properly if its datapath drives the result and its own nets. -/
theorem tiled {a : Artifact} {join delay output : String} {width : Nat} {datapath : List Item}
    {names : List String} (hpos : 0 < width) (ha : a.Coherent)
    (hjoin : a.Offers join (Join.body 2).ports) (hdelay : a.Offers delay DelayBuffer.ports)
    (houtput : a.Offers output (passThroughPorts 1 0)) (hprocesses : Item.processesOf datapath = [])
    (hnets : ∀ d ∈ Item.declsOf datapath, d.storage = .net)
    (hsources : (Item.drivesOf datapath).map Assign.target ++
      (Item.instancesOf datapath).flatMap (Instance.driven a) =
      names.map Expr.ident)
    (hnames : names.Perm ("result" :: (Item.declsOf datapath).map Decl.name)) :
    (body width join delay output datapath).Tiled a [] := by
  have hdecls : Item.declsOf (body width join delay output datapath).items =
      controlDecls ++ Item.declsOf datapath := rfl
  have hdeclared : ∀ d ∈ Item.declsOf (body width join delay output datapath).items,
      d.storage = .net :=
    List.forall_mem_append.mpr ⟨by decide, hnets⟩
  have hports : (body width join delay output datapath).ports = Manager.innerPorts width :=
    Manager.ports_inner hpos
  -- only the join drives two signals at once
  have hall : ((body width join delay output datapath).sources a).Perm
      ([Expr.concat [.ident "rhs_ready", .ident "lhs_ready"]] ++
        (["join_valid", "buff_valid", enable, "result_valid"] ++ names).map Expr.ident) := by
    have hdrives : Item.drivesOf (body width join delay output datapath).items =
        Item.drivesOf datapath := rfl
    have hinstances : Item.instancesOf (body width join delay output datapath).items =
        [joinInstance join, delayInstance delay, outputInstance output] ++
          Item.instancesOf datapath := rfl
    rw [Module.sources, hdrives, hinstances, List.flatMap_append,
      driven_control ha hjoin hdelay houtput, List.map_append, ← hsources, ← List.append_assoc,
      ← List.append_assoc, ← List.append_assoc]
    exact (List.perm_append_comm.trans ((List.Perm.swap _ _ _).append_right _)).append_right _
  have htiles : Tiles ([Expr.concat [.ident "rhs_ready", .ident "lhs_ready"]].flatMap
      (Expr.pieces (body width join delay output datapath).width?))
        (["rhs_ready", "lhs_ready"].map (body width join delay output datapath).whole) :=
          .of_perm (List.Perm.refl _)
  refine .of_parts hprocesses (Module.storage_of_nets hdeclared) hall
    (List.forall_mem_singleton.mpr rfl) htiles ?_
  rw [Module.drivable_of_nets hdeclared, hports, hdecls, ← List.append_assoc]
  refine (hnames.append_left _).trans ?_
  rw [List.append_cons, List.map_append, ← List.append_assoc]
  refine List.Perm.append_right _ ?_
  exact (by decide :
    ["rhs_ready", "lhs_ready", "join_valid", "buff_valid", enable, "result_valid", "result"].Perm
    ["lhs_ready", "rhs_ready", "result", "result_valid", "join_valid", "buff_valid", enable])

end Operator

theorem Multiplier.tiled {a : Artifact} {core join delay output : String} {width : Nat}
    (hpos : 0 < width) (ha : a.Coherent) (hcore : a.Offers core (corePorts width))
    (hjoin : a.Offers join (Join.body 2).ports) (hdelay : a.Offers delay DelayBuffer.ports)
    (houtput : a.Offers output (passThroughPorts 1 0)) :
    (operatorBody width core join delay output).Tiled a [] := by
  have hcore' : a.outputs core = ["p"] := hcore.outputs ha
  have hsources : [coreInstance core].flatMap (Instance.driven a) = ["result"].map Expr.ident := by
    simp [Instance.driven, coreInstance, sameName, wire, hcore']
  exact Operator.tiled hpos ha hjoin hdelay houtput rfl
    (fun d hd => absurd hd List.not_mem_nil) hsources
    (List.Perm.refl _)

theorem FloatOperator.tiled {a : Artifact} {join delay output : String} (op : FloatOperator)
    (p : Precision) (ha : a.Coherent) (hexternals : ∀ e ∈ op.externals p, e ∈ a.externals)
    (hjoin : a.Offers join (Join.body 2).ports) (hdelay : a.Offers delay DelayBuffer.ports)
    (houtput : a.Offers output (passThroughPorts 1 0)) :
    (operatorBody op p join delay output).Tiled a [] := by
  have hpos : 0 < p.width := by cases p <;> decide
  have hexternal : ∀ e ∈ op.externals p, a.outputs e = ["R"] :=
    fun e he => Artifact.outputs_external (hexternals e he) ha
  simp only [externals, List.forall_mem_cons] at hexternal
  obtain ⟨hinput, hresult, hcore, -⟩ := hexternal
  have hdecls := declsOf_datapath op p
  have hnets : ∀ d ∈ Item.declsOf (op.datapath p), d.storage = .net := by
    rw [hdecls]
    cases op <;> simp [decls, Decl.net]
  have hinstances : (Item.instancesOf (op.datapath p)).flatMap (Instance.driven a) =
      ["ip_lhs", "ip_rhs", "result", "ip_result"].map Expr.ident := by
    cases op <;>
      simp [datapath, converter, Item.instancesOf, Item.instances, Instance.driven, sameName, wire,
        hinput, hresult, hcore]
  cases op with
  | mul =>
      refine Operator.tiled hpos ha hjoin hdelay houtput rfl hnets hinstances ?_
      rw [hdecls]
      exact (by decide : ["ip_lhs", "ip_rhs", "result", "ip_result"].Perm ["result", "ip_lhs",
        "ip_rhs", "ip_result"])
  | sub =>
      -- the right operand with its sign flipped is driven by an assign
      have hsources : [Expr.ident "rhs_neg"] ++
          (Item.instancesOf (sub.datapath p)).flatMap (Instance.driven a) =
          ["rhs_neg", "ip_lhs", "ip_rhs", "result", "ip_result"].map Expr.ident := by
        rw [hinstances]
        rfl
      refine Operator.tiled hpos ha hjoin hdelay houtput rfl hnets hsources ?_
      rw [hdecls]
      exact (by decide : ["rhs_neg", "ip_lhs", "ip_rhs", "result", "ip_result"].Perm
        ["result", "ip_lhs", "ip_rhs", "ip_result", "rhs_neg"])

namespace Manager

namespace Grouped

variable {width : Nat} {extra : ExtraSignals} {layout : Layout} {ins outs : List PortGroup}
    {inner : String} {a : Artifact} (h : Grouped width extra layout ins outs)
include h

/-- The slices of an input, over all its channels, make up its bus. -/
theorem tiles_encode {g : PortGroup} (hg : g ∈ ins ++ outs) :
    Tiles (((LaidOut.encode (g, layout)).map Assign.target).flatMap
        (Expr.pieces (bundling inner ins outs layout).width?))
      ([busOf g].map (bundling inner ins outs layout).whole) := by
  have hbus : (bundling inner ins outs layout).width? (busOf g) =
      some (g.channels * layout.total) :=
    Module.width?_of_mem h.distinct_signals (h.mem_signals_bus hg)
  have hpieces : ((LaidOut.encode (g, layout)).map Assign.target).flatMap
      (Expr.pieces (bundling inner ins outs layout).width?) =
        (List.range g.channels).flatMap fun c =>
          layout.slices.map fun s => ⟨busOf g, c * layout.total + s.lo, s.width⟩ := by
    rw [LaidOut.encode, LaidOut.fieldPairs, List.map_map, List.map_flatMap, List.flatMap_assoc]
    refine List.flatMap_congr fun c _ => ?_
    rw [List.map_map, List.flatMap_map, List.map_eq_flatMap]
    exact List.flatMap_congr fun s _ => Expr.pieces_select hbus
  -- the slices of a channel make up its part of the bus
  have hchannel : ∀ c ∈ List.range g.channels,
      Tiles (layout.slices.map fun s => ⟨busOf g, c * layout.total + s.lo, s.width⟩)
        [⟨busOf g, c * layout.total, layout.total⟩] := by
    intro c _
    have hplace := Tiles.place (busOf g) (c * layout.total) 0 (Layout.fields width extra)
    rwa [← Layout.slices_eq h.layout_of, Layout.sum_fields, ← Layout.total_of h.layout_of] at hplace
  rw [hpieces, List.map_singleton, Module.whole, hbus]
  refine (Tiles.flatMap hchannel).trans ?_
  rw [← List.map_eq_flatMap]
  exact .channels _ _ _

/-- The channels of an output make up its ports, field by field. -/
theorem tiles_decode {g : PortGroup} (hg : g ∈ ins ++ outs) :
    Tiles (((LaidOut.decode (g, layout)).map Assign.target).flatMap
        (Expr.pieces (bundling inner ins outs layout).width?))
      ((layout.slices.map fun s => g.fieldName s.field).map
        (bundling inner ins outs layout).whole) := by
  have hfield : ∀ s ∈ layout.slices,
      (bundling inner ins outs layout).width? (g.fieldName s.field) =
        some (g.channels * s.width) := fun s hs =>
    Module.width?_of_mem h.distinct_signals (h.mem_signals_field hg hs)
  have hpieces : ((LaidOut.decode (g, layout)).map Assign.target).flatMap
      (Expr.pieces (bundling inner ins outs layout).width?) =
        (List.range g.channels).flatMap fun c =>
          layout.slices.map fun s => ⟨g.fieldName s.field, c * s.width, s.width⟩ := by
    rw [LaidOut.decode, LaidOut.fieldPairs, List.map_map, List.map_flatMap, List.flatMap_assoc]
    refine List.flatMap_congr fun c _ => ?_
    rw [List.map_map, List.flatMap_map, List.map_eq_flatMap]
    exact List.flatMap_congr fun s hs => Expr.pieces_select (hfield s hs)
  have hwhole : (layout.slices.map fun s => g.fieldName s.field).map
      (bundling inner ins outs layout).whole =
      layout.slices.map fun s => ⟨g.fieldName s.field, 0, g.channels * s.width⟩ := by
    rw [List.map_map]
    refine List.map_congr_left fun s hs => ?_
    rw [Function.comp_apply, Module.whole, hfield s hs]
    rfl
  rw [hpieces, hwhole]
  exact .columns _ _ _ _

theorem driven_bundling (ha : a.Coherent)
    (hinner : a.Offers inner (bundledPorts ins outs layout.total))
    (hnames : ((bundledPorts ins outs layout.total).map Port.name).Nodup) :
    (bundlingInstance inner ins outs).driven a =
      (ins.map PortGroup.ready ++ outs.flatMap fun g => [busOf g, g.valid]).map Expr.ident := by
  have hports := h.ports_bundledWires
  rw [Instance.driven_of_wires (connections_bundling layout inner ins outs) hinner ha
    (fun w hw => hports ▸ List.mem_map_of_mem hw) hnames]
  have hinput : ∀ g : PortGroup,
      (groupWires layout .input g).filter (fun w => w.1.direction = .output) =
      [(⟨.output, g.channels, g.ready⟩, g.ready)] := fun _ => rfl
  have houtput : ∀ g : PortGroup,
      (groupWires layout .output g).filter (fun w => w.1.direction = .output) =
      [(⟨.output, g.channels * layout.total, g.name⟩, busOf g),
        (⟨.output, g.channels, g.valid⟩, g.valid)] := fun _ => rfl
  have hready : ins.map PortGroup.ready = ins.flatMap fun g => [g.ready] := List.map_eq_flatMap
  simp [bundledWires, clockPorts, Port.input, List.filter_flatMap, hinput, houtput,
    List.map_flatMap, hready]

theorem nets_bundling : ∀ d ∈ Item.declsOf (bundling inner ins outs layout).items,
    d.storage = .net := by
  rw [declsOf_bundling h.bus_pos]
  exact List.forall_mem_map.mpr fun _ _ => rfl

theorem drivable_bundling :
    (bundling inner ins outs layout).drivable =
      ins.map PortGroup.ready ++
        outs.flatMap (fun g => layout.slices.map (fun s => g.fieldName s.field) ++ [g.valid]) ++
        (ins.map busOf ++ outs.map busOf) := by
  have hinput : ∀ g ∈ ins, ((g.ports .input).filter fun p => p.direction = .output).map Port.name =
      [g.ready] := by
    intro g _
    by_cases hpos : 0 < g.width <;> simp [PortGroup.ports, hpos, Direction.flip, List.filter_map]
  have houtput : ∀ g ∈ outs,
      ((g.ports .output).filter fun p => p.direction = .output).map Port.name =
      layout.slices.map (fun s => g.fieldName s.field) ++ [g.valid] := by
    intro g hg
    obtain ⟨rfl, rfl, -⟩ := h.groups g (List.mem_append_right _ hg)
    rw [Layout.map_slices h.layout_of]
    by_cases hpos : 0 < g.width <;>
      simp [PortGroup.ports, PortGroup.fieldName, Layout.fields, hpos, Direction.flip,
        List.filter_map, Function.comp_def]
  have hports : ((outerPorts ins outs).filter fun p => p.direction = .output).map Port.name =
      ins.map PortGroup.ready ++
        outs.flatMap fun g => layout.slices.map (fun s => g.fieldName s.field) ++ [g.valid] := by
    have hready : ins.map PortGroup.ready = ins.flatMap fun g => [g.ready] := List.map_eq_flatMap
    rw [outerPorts, List.filter_append, List.filter_append, List.filter_flatMap,
      List.filter_flatMap, List.map_append, List.map_append, List.map_flatMap, List.map_flatMap,
      List.flatMap_congr hinput, List.flatMap_congr houtput, hready]
    rfl
  rw [Module.drivable_of_nets h.nets_bundling, declsOf_bundling h.bus_pos, List.map_map,
    List.map_append, ← hports]
  rfl

theorem tiled (ha : a.Coherent) (hinner : a.Offers inner (bundledPorts ins outs layout.total))
    (hnames : ((bundledPorts ins outs layout.total).map Port.name).Nodup) :
    (bundling inner ins outs layout).Tiled a [] := by
  have hsources : (bundling inner ins outs layout).sources a =
      (Item.drivesOf (bundling inner ins outs layout).items).map Assign.target ++
        (ins.map PortGroup.ready ++ outs.flatMap fun g => [busOf g, g.valid]).map Expr.ident := by
    rw [Module.sources, h.instancesOf_bundling, List.flatMap_singleton,
      h.driven_bundling ha hinner hnames]
  have htiles : Tiles
      (((Item.drivesOf (bundling inner ins outs layout).items).map Assign.target).flatMap
        (Expr.pieces (bundling inner ins outs layout).width?))
      ((ins.flatMap (fun g => [busOf g]) ++
        outs.flatMap fun g => layout.slices.map fun s => g.fieldName s.field).map
          (bundling inner ins outs layout).whole) := by
    rw [drivesOf_bundling, List.map_append, List.map_flatMap, List.map_flatMap, List.flatMap_append,
      List.flatMap_assoc, List.flatMap_assoc, List.map_append, List.map_flatMap, List.map_flatMap]
    exact (Tiles.flatMap fun g hg => h.tiles_encode (List.mem_append_left _ hg)).append
      (Tiles.flatMap fun g hg => h.tiles_decode (List.mem_append_right _ hg))
  refine .of_parts (processesOf_concatBody _ _ _ _) (Module.storage_of_nets h.nets_bundling)
    (List.Perm.of_eq hsources) ?_ htiles ?_
  · refine List.forall_mem_map.mpr fun x hx => ?_
    rcases mem_drives.mp hx with ⟨g, -, c, -, s, -, rfl⟩ | ⟨g, -, c, -, s, -, rfl⟩
    · exact Expr.isLvalue_select _ _ _ _
    · exact Expr.isLvalue_select _ _ _ _
  · -- the buses, the fields, and what the unit drives: these are the drivable names
    -- in another order
    have hfields := List.flatMap_append_perm outs
      (fun g => layout.slices.map fun s => g.fieldName s.field) fun g => [g.valid]
    have hpairs := List.flatMap_append_perm outs (fun g => [busOf g]) fun g => [g.valid]
    rw [h.drivable_bundling, List.perm_iff_count]
    intro name
    have hcount := hfields.count_eq name
    have hcount' := hpairs.count_eq name
    simp only [List.count_append, ← List.map_eq_flatMap, List.cons_append,
      List.nil_append] at hcount hcount' ⊢
    omega

end Grouped

/-- The wrapper around a delay line tiles its outputs, and the buses into and out of the line. -/
theorem tiled_wrapper {inner line : String} {width latency : Nat} {extra : ExtraSignals}
    {layout : Layout} {a : Artifact} (hpos : 0 < width) (hne : extra.signals ≠ [])
    (hlayout : Layout.of 0 extra = .ok layout)
    (hcheck : checkPortGroups (operands width extra) (results width extra) extra = .ok ())
    (ha : a.Coherent) (hinner : a.Offers inner (Operator.ports width))
    (hline : a.Offers line (DelayLine.mk latency layout.total).ports) :
    (wrapper inner line width extra layout).Tiled a [] := by
  have htotal : layout.total = extra.totalWidth := by rw [Layout.total_of hlayout, Nat.zero_add]
  have hbusPos : 0 < layout.total := htotal ▸ ExtraSignals.totalWidth_pos hne
  have hbus : (wrapper inner line width extra layout).width? "extra_ins" = some layout.total :=
    Module.width?_of_mem
      (Module.distinct_of_declared (distinct_bypassBody inner line layout hcheck))
      (mem_signals_bus hbusPos "extra_ins" List.mem_cons_self)
  have hunit : (innerInstance inner).driven a =
      ["lhs_ready", "rhs_ready", "result", "result_valid"].map Expr.ident := by
    have hwires : (innerInstance inner).connections =
        ((innerPorts width).map fun p => (p, p.name)).map fun w =>
          (w.1.name, some (.ident w.2)) := rfl
    rw [ports_inner hpos] at hinner
    exact Instance.driven_of_wires hwires hinner ha (List.forall_mem_map.mpr fun p hp => hp)
      (by decide : ((innerPorts 0).map Port.name).Nodup)
  have hdelayed : (lineInstance line).driven a = ["extra_outs"].map Expr.ident := by
    have houtputs : a.outputs line = ["outs", "outs_valid"] := by
      rw [hline.outputs ha]
      simp [DelayLine.ports, clockPorts, ifData, hbusPos, Port.input, Port.output]
    simp [Instance.driven, lineInstance, sameName, wire, leaveOpen, houtputs]
  -- the bus is driven slice by slice, and all else as wholes
  have hsources : (wrapper inner line width extra layout).sources a =
      layout.slices.map (fun s => Expr.select "extra_ins" layout.total s.lo s.width) ++
        ("extra_ins_valid" :: (extra.signals.map fun e => "result" ++ "_" ++ e.name) ++
          (["lhs_ready", "rhs_ready", "result", "result_valid"] ++ ["extra_outs"])).map
            Expr.ident := by
    have hresults : layout.slices.map
        (fun s => PortGroup.fieldName ⟨"result", width, extra, none⟩ s.field) =
        extra.signals.map fun e => "result" ++ "_" ++ e.name := map_fieldName hlayout "result"
    rw [Module.sources, drivesOf_wrapper, instancesOf_wrapper hpos hbusPos, List.flatMap_cons,
      List.flatMap_singleton, hunit, hdelayed, ← hresults]
    simp [Function.comp_def]
  have hnets : ∀ d ∈ Item.declsOf (wrapper inner line width extra layout).items,
      d.storage = .net := by
    rw [declsOf_wrapper hbusPos]
    simp [Decl.net]
  have hprocesses : Item.processesOf (wrapper inner line width extra layout).items = [] := by
    simp [wrapper, bypassBody, anonymous, Item.processesOf, Item.processes]
  have htiles : Tiles
      ((layout.slices.map fun s => Expr.select "extra_ins" layout.total s.lo s.width).flatMap
        (Expr.pieces (wrapper inner line width extra layout).width?))
      (["extra_ins"].map (wrapper inner line width extra layout).whole) := by
    have hslices : (layout.slices.map
        fun s => Expr.select "extra_ins" layout.total s.lo s.width).flatMap
        (Expr.pieces (wrapper inner line width extra layout).width?) =
          layout.slices.map fun s => ⟨"extra_ins", 0 + s.lo, s.width⟩ := by
      rw [List.flatMap_map, List.map_eq_flatMap]
      refine List.flatMap_congr fun s _ => ?_
      rw [Expr.pieces_select hbus, Nat.zero_add]
    have hplace := Tiles.place "extra_ins" 0 0 (Layout.fields 0 extra)
    rw [← Layout.slices_eq hlayout, Layout.sum_fields, ← Layout.total_of hlayout] at hplace
    rw [hslices, List.map_singleton, Module.whole, hbus]
    exact hplace
  refine .of_parts hprocesses (Module.storage_of_nets hnets) (List.Perm.of_eq hsources)
    (List.forall_mem_map.mpr fun s _ => Expr.isLvalue_select _ _ _ _) htiles ?_
  rw [drivable_wrapper hpos hbusPos, List.perm_iff_count]
  intro name
  simp only [List.count_append, List.count_cons, List.count_nil]
  omega

end Manager

/-! ## Artifacts -/

/-- Every body of a block is tiled. -/
theorem Body.tiled {a : Artifact} {m : Module} (h : Body a m) (ha : a.Coherent) :
    ∃ shares, m.Tiled a shares := by
  cases h with
  | join => exact ⟨_, Join.tiled a _⟩
  | priorityMerge width => exact ⟨_, PriorityMerge.tiled a _ width⟩
  | readyBreak width => exact ⟨_, ReadyBreak.tiled a width⟩
  | dataBreak width => exact ⟨_, DataBreak.tiled a width⟩
  | delayBuffer slots => exact ⟨_, DelayBuffer.tiled a slots⟩
  | delayLine hlatency hwidth => exact ⟨_, DelayLine.tiled a hlatency hwidth⟩
  | multiplierCore width => exact ⟨_, Multiplier.tiled_core a width⟩
  | merge hinner houtput => exact ⟨_, Merge.tiled ha hinner houtput⟩
  | multiplier hpos hcore hjoin hdelay houtput =>
      exact ⟨_, Multiplier.tiled hpos ha hcore hjoin hdelay houtput⟩
  | float op p hexternals hjoin hdelay houtput =>
      exact ⟨_, FloatOperator.tiled op p ha hexternals hjoin hdelay houtput⟩
  | bundling hgrouped hinner =>
      refine ⟨_, hgrouped.tiled ha hinner ?_⟩
      rw [← hgrouped.ports_bundledWires]
      exact (by decide :
        ["clk", "rst", "ins", "ins_valid", "ins_ready", "outs", "outs_valid", "outs_ready"].Nodup)
  | bypassing hpos hne hlayout hcheck hinner hline =>
      exact ⟨_, Manager.tiled_wrapper hpos hne hlayout hcheck ha hinner hline⟩

/--
**Every bit has one driver.** Whatever is asked for, in every module of the
answer: each bit of an output and of a net is driven by one source, which is an
assign or the output of an instance; each register is assigned in one process
and driven by no source; and nothing drives an input. All of this is under the
condition that no module declares a name twice.
-/
theorem bits_driven_once {request : Request} {a : Artifact} (h : generate request = .ok a)
    (hdistinct : a.Distinct) : ∀ b ∈ a.blocks, b.content.DrivenOnce a := by
  obtain ⟨kind, id, -, hbuilt⟩ := generate_built h
  intro b hb
  obtain ⟨m, hbody, hcontent⟩ := hbuilt.known hdistinct b hb
  obtain ⟨shares, htiled⟩ := hbody.tiled hbuilt.isUnit.wellFormed.toCoherent
  have hsignals := Module.distinct_of_declared (hdistinct b hb)
  rw [hcontent] at hsignals ⊢
  exact Module.Tiled.drivenOnce
    ⟨htiled.tiles, htiled.targets, htiled.storage, htiled.shares⟩ hsignals

/-- A request for a subtraction of numbers of double precision, with two extra signals. -/
def Request.taggedSubtraction : Request :=
  ⟨"subf", "u", OrderedMap.empty.insert "is_double" (.bool true) |>.insert "extra_signals"
    (.signals (OrderedMap.empty.insert "spec" 1 |>.insert "tag" 4))⟩

/-- Three external cores, registers that carry the extra signals along, and a bus of them. -/
theorem bits_driven_once_subtraction :
    ∃ a, generate .taggedSubtraction = .ok a ∧ a.externals.length = 3 ∧
      ("extra_ins", 5) ∈ a.blocks.flatMap (·.content.signals) ∧
        ∀ b ∈ a.blocks, b.content.DrivenOnce a := by
  have hmade : ∃ a ∈ (generate .taggedSubtraction).toOption,
      (∀ b ∈ a.blocks, b.content.declared.Nodup) ∧
      a.externals.length = 3 ∧ ("extra_ins", 5) ∈ a.blocks.flatMap (·.content.signals) := by
    decide +kernel
  obtain ⟨a, ha, hdistinct, hexternals, hbus⟩ := hmade
  exact ⟨a, eq_ok_of_mem_toOption ha, hexternals, hbus,
    bits_driven_once (eq_ok_of_mem_toOption ha) hdistinct⟩

end Handshake
