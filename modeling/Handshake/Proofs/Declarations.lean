import Mathlib.Data.List.Nodup
import Handshake.Proofs.Generated
import Handshake.Proofs.Items
import Handshake.Proofs.Layouts

/-!
# Which names a generated module declares

A module that declares a name twice is no module. Generators choose most names
themselves, and those are distinct; the names of extra signals come from
outside. A wrapper refuses extra signals that would make two of its *ports*
equal, but it also declares signals of its own. The wrapper that carries extra
signals past a unit calls these `extra_ins` and the like, which no port is
called. The wrapper that carries them through a unit calls the bus beside port
`p` by the name `p_inner`, which is also the name of the port that an extra
signal `inner` gets. This is the only way in which a name comes to be declared
twice.

The bodies of blocks are taken one by one, then the two wrappers, and in the end
it is said of every answer whether its modules declare distinct names.
-/

namespace Handshake

/-- The names that a module declares: of its ports, its signals and its instances. -/
def Module.declared (m : Module) : List String :=
  m.ports.map Port.name ++ (Item.declsOf m.items).map Decl.name ++
    (Item.instancesOf m.items).map Instance.name

/-! ## Ports -/

/-- The names of a handshake. A payload of no bits has no port. -/
theorem names_handshakePorts (direction : Direction) (name : String) (width channels : Nat) :
    (handshakePorts direction name width channels).map Port.name =
      ifData width [name] ++ [name ++ "_valid", name ++ "_ready"] := by
  unfold handshakePorts PortGroup.ports ifData
  split <;> simp [ExtraSignals.empty, PortGroup.valid, PortGroup.ready]

theorem names_passThroughPorts (size width : Nat) :
    (passThroughPorts size width).map Port.name =
      ["clk", "rst"] ++ ifData width ["ins"] ++ ["ins_valid", "ins_ready"] ++
        ifData width ["outs"] ++
        ["outs_valid", "outs_ready"] := by
  simp [passThroughPorts, clockPorts, Port.input, names_handshakePorts]

theorem names_operatorPorts (width : Nat) :
    (Operator.ports width).map Port.name =
      ["clk", "rst"] ++ ifData width ["lhs"] ++ ["lhs_valid", "lhs_ready"] ++
        ifData width ["rhs"] ++
        ["rhs_valid", "rhs_ready"] ++ ifData width ["result"] ++
          ["result_valid", "result_ready"] := by
  simp [Operator.ports, clockPorts, Port.input, names_handshakePorts]

/-- A port of a group is the payload, an extra signal, the valid bit or the ready bit. -/
theorem PortGroup.mem_names {g : PortGroup} {direction : Direction} {name : String} :
    name ∈ (g.ports direction).map Port.name ↔
      (0 < g.width ∧ name = g.name) ∨ (∃ s ∈ g.extra.signals, name = g.name ++ "_" ++ s.name) ∨
        name = g.name ++ "_valid" ∨ name = g.name ++ "_ready" := by
  unfold PortGroup.ports
  by_cases h : 0 < g.width <;>
    simp [h, PortGroup.extraName, PortGroup.valid, PortGroup.ready, eq_comm]

/-- The ports of a group are named after it. -/
theorem PortGroup.names_start {g : PortGroup} {direction : Direction} {name : String}
    (h : name ∈ (g.ports direction).map Port.name) : g.name.toList <+: name.toList := by
  rcases PortGroup.mem_names.mp h with ⟨-, rfl⟩ | ⟨s, -, rfl⟩ | rfl | rfl
  · exact List.prefix_refl _
  · rw [String.toList_append, String.toList_append, List.append_assoc]
    exact List.prefix_append _ _
  · rw [String.toList_append]
    exact List.prefix_append _ _
  · rw [String.toList_append]
    exact List.prefix_append _ _

/-- The check passes only on names that are distinct, from each other and from those seen before. -/
theorem checkDistinct_ok {seen names : List String} (h : checkDistinct seen names = .ok ()) :
    names.Nodup ∧ ∀ name ∈ names, name ∉ seen := by
  induction names generalizing seen with
  | nil => simp
  | cons name rest ih =>
      unfold checkDistinct at h
      split at h
      · exact absurd h (by simp)
      · rename_i hseen
        obtain ⟨hrest, hnot⟩ := ih h
        have hname : name ∉ seen := by simpa using hseen
        refine ⟨List.nodup_cons.mpr ⟨fun hmem => hnot name hmem List.mem_cons_self, hrest⟩, ?_⟩
        intro other hother
        rcases List.mem_cons.mp hother with rfl | hother
        · exact hname
        · exact fun hin => hnot other hother (List.mem_cons_of_mem _ hin)

/-- The ports of an accepted wrapper have distinct names. -/
theorem Manager.nodup_outerPorts {ins outs : List PortGroup} {extra : ExtraSignals}
    (h : checkPortGroups ins outs extra = .ok ()) :
    ((outerPorts ins outs).map Port.name).Nodup := by
  unfold checkPortGroups at h
  obtain ⟨_, -, h⟩ := bind_ok h
  exact (checkDistinct_ok h).1

/-! ## Units -/

theorem distinct_join (size : Nat) : (Join.body size).declared.Nodup := by
  simp [Module.declared, Join.body, anonymous, names_handshakePorts, ifData, Item.declsOf,
    Item.decls, Item.instancesOf, Item.instances]

theorem distinct_priorityMerge (size width : Nat) :
    (PriorityMerge.body size width).declared.Nodup := by
  by_cases h : 0 < width <;>
    simp [Module.declared, PriorityMerge.body, anonymous, names_passThroughPorts, ifData, h,
      Item.declsOf, Item.decls, Item.instancesOf, Item.instances]

theorem distinct_readyBreak (width : Nat) : (ReadyBreak.body width).declared.Nodup := by
  by_cases h : 0 < width <;>
    simp [Module.declared, ReadyBreak.body, ReadyBreak.decls, ReadyBreak.fullProcess,
      ReadyBreak.dataProcess, anonymous, names_passThroughPorts, ifData, h, Item.declsOf,
      Item.decls, Item.instancesOf, Item.instances, Decl.reg, Item.clocked]

theorem distinct_dataBreak (width : Nat) : (DataBreak.body width).declared.Nodup := by
  by_cases h : 0 < width <;>
    simp [Module.declared, DataBreak.body, DataBreak.decls, DataBreak.validProcess,
      DataBreak.dataProcess, anonymous, names_passThroughPorts, ifData, h, Item.declsOf, Item.decls,
      Item.instancesOf, Item.instances, Decl.reg, Item.clocked]

theorem distinct_merge (inner output : String) (size width : Nat) :
    (Merge.body inner output size width).declared.Nodup := by
  by_cases h : 0 < width <;>
    simp [Module.declared, Merge.body, Merge.decls, Merge.mergeInstance, Merge.bufferInstance,
      anonymous, names_passThroughPorts, ifData, h, Item.declsOf, Item.decls, Item.instancesOf,
      Item.instances, Decl.net]

theorem distinct_multiplierCore (width : Nat) : (Multiplier.coreBody width).declared.Nodup := by
  show ["clk", "ce", "a", "b", "p", "a_reg", "b_reg", "q0", "q1", "q2", "mul"].Nodup
  decide

theorem distinct_multiplier (core join delay output : String) (width : Nat) :
    (anonymous (Operator.ports width)
      (Operator.controlItems join delay output ++
        [.inst (Multiplier.coreInstance core)])).declared.Nodup := by
  by_cases h : 0 < width <;>
    simp [Module.declared, anonymous, names_operatorPorts, ifData, h, Operator.controlItems,
      Operator.controlDecls, Operator.enable, Operator.joinInstance, Operator.delayInstance,
      Operator.outputInstance, Multiplier.coreInstance, Item.declsOf, Item.decls, Item.instancesOf,
      Item.instances, Decl.net]

theorem distinct_floatOperator (op : FloatOperator) (p : Precision) (join delay output : String) :
    (anonymous (Operator.ports p.width)
      (Operator.controlItems join delay output ++ op.datapath p)).declared.Nodup := by
  have h : 0 < p.width := by cases p <;> decide
  cases op <;>
    simp [Module.declared, anonymous, names_operatorPorts, ifData, h, Operator.controlItems,
      Operator.controlDecls, Operator.enable, Operator.joinInstance, Operator.delayInstance,
      Operator.outputInstance, FloatOperator.datapath, FloatOperator.decls, FloatOperator.converter,
      Item.declsOf, Item.decls, Item.instancesOf, Item.instances, Decl.net]

/-! ## Numbered registers -/

/-- Numbering a stem makes distinct names. -/
theorem nodup_numbered (stem : String) (n : Nat) :
    ((List.range n).map fun i => stem ++ i.repr).Nodup :=
  List.Nodup.map (fun _ _ h => numbered_inj.mp h) List.nodup_range

/-- Names that do not begin with a stem differ from the numbered names under it. -/
theorem ne_numbered {stem : String} {names : List String}
    (h : ∀ name ∈ names, ¬ stem.toList <+: name.toList) (n : Nat) :
    ∀ name ∈ names, ∀ other ∈ (List.range n).map (fun i => stem ++ i.repr), name ≠ other := by
  intro name hname other hother
  obtain ⟨i, -, rfl⟩ := List.mem_map.mp hother
  exact ne_append_of_start (h name hname) i.repr

/-- A delay declares its ports and its slots. -/
theorem declared_delayBuffer (slots : Nat) :
    (DelayBuffer.body slots).declared =
      ["clk", "rst", "valid_in", "ready_in", "valid_out"] ++
        (List.range slots).map DelayBuffer.slotName := by
  unfold DelayBuffer.body
  by_cases h : slots = 0 <;>
    simp [h, Module.declared, anonymous, DelayBuffer.ports, DelayBuffer.process, clockPorts,
      Port.input, Port.output, Decl.reg, Item.clocked, Item.declsOf, Item.decls, Item.instancesOf,
      Item.instances, Function.comp_def]

theorem distinct_delayBuffer (slots : Nat) : (DelayBuffer.body slots).declared.Nodup := by
  rw [declared_delayBuffer, List.nodup_append]
  exact ⟨by decide, nodup_numbered "regs_" slots, ne_numbered (by decide) slots⟩

theorem declared_delayLine (line : DelayLine) :
    line.body.declared =
      (["clk", "rst"] ++ ifData line.width ["ins"] ++ ["ins_valid"] ++ ifData line.width ["outs"] ++
        ["outs_valid", "outs_ready"]) ++
      ((List.range line.latency).map DelayLine.validName ++
        ifData line.width ((List.range line.latency).map DelayLine.dataName)) ++
      (if line.latency = 0 then [] else ["en"]) := by
  unfold DelayLine.body
  by_cases h : line.latency = 0 <;> by_cases hw : 0 < line.width <;>
    simp [h, hw, Module.declared, anonymous, DelayLine.ports, DelayLine.decls, DelayLine.outputs,
      DelayLine.validProcess, DelayLine.dataProcess, ifData, clockPorts, Port.input,
      Port.output, Decl.reg, Decl.net, Item.clocked, Item.declsOf, Item.decls, Item.instancesOf,
      Item.instances, Function.comp_def]

theorem mem_ifData {α : Type} {width : Nat} {xs : List α} {x : α} (h : x ∈ ifData width xs) :
    x ∈ xs := by
  unfold ifData at h
  split at h
  · exact h
  · exact absurd h List.not_mem_nil

theorem forall_mem_ifData {α : Type} {width : Nat} {xs : List α} {P : α → Prop} :
    (∀ x ∈ ifData width xs, P x) ↔ (0 < width → ∀ x ∈ xs, P x) := by
  unfold ifData
  by_cases hw : 0 < width <;> simp [hw]

/-- Valid bits, data and the enable of a delay line are named apart, whether or not it has data. -/
theorem distinct_delayLine (line : DelayLine) : line.body.declared.Nodup := by
  rw [declared_delayLine]
  generalize hP : ["clk", "rst"] ++ ifData line.width ["ins"] ++ ["ins_valid"] ++
    ifData line.width ["outs"] ++
    ["outs_valid", "outs_ready"] = ports
  generalize hE : (if line.latency = 0 then [] else ["en"]) = enable
  have hfixed : (ports ++ enable).Nodup ∧ ∀ name ∈ ports ++ enable,
      ¬ "valid_".toList <+: name.toList ∧ ¬ "data_".toList <+: name.toList := by
    subst hP hE
    unfold ifData
    split <;> split <;> decide
  -- the numbered registers go last, so that they are compared with all other names at once
  have hlast : ∀ numbered : List String,
      (ports ++ numbered ++ enable).Perm (ports ++ enable ++ numbered) := by
    intro numbered
    rw [List.append_assoc, List.append_assoc]
    exact List.perm_append_comm.append_left ports
  rw [(hlast _).nodup_iff]
  refine List.nodup_append.mpr
    ⟨hfixed.1, List.nodup_append.mpr ⟨nodup_numbered "valid_" _, ?_, ?_⟩, ?_⟩
  · unfold ifData
    split
    · exact nodup_numbered "data_" _
    · exact List.nodup_nil
  · intro name hname other hother
    obtain ⟨i, -, rfl⟩ := List.mem_map.mp hname
    obtain ⟨j, -, rfl⟩ := List.mem_map.mp (mem_ifData hother)
    exact append_ne_append (by decide) (by decide) i.repr j.repr
  · intro name hname other hother
    rcases List.mem_append.mp hother with hother | hother
    · exact ne_numbered (fun n hn => (hfixed.2 n hn).1) line.latency name hname other hother
    · exact ne_numbered (fun n hn => (hfixed.2 n hn).2) line.latency name hname other
        (mem_ifData hother)

/-! ## Wrappers -/

/-- Extra signals, if there are any, have a width. -/
theorem ExtraSignals.totalWidth_pos {extra : ExtraSignals} (h : extra.signals ≠ []) :
    0 < extra.totalWidth := by
  obtain ⟨s, rest, hs⟩ := List.exists_cons_of_ne_nil h
  have hwidth := (extra.declarable.1 s (by simp [hs])).2
  rw [ExtraSignals.totalWidth, hs, sumWidths]
  omega

namespace Manager

theorem layOut_singleton {g : PortGroup} {laid : List LaidOut} (h : [g].mapM layOut = .ok laid) :
    ∃ layout, g.layout = .ok layout ∧ laid = [(g, layout)] := by
  rw [List.mapM_cons, List.mapM_nil] at h
  obtain ⟨l, hl, h⟩ := bind_ok h
  obtain ⟨layout, hlayout, hl⟩ := bind_ok hl
  cases hl
  cases h
  exact ⟨layout, hlayout, rfl⟩

/-- The wrapper of a unit declares its ports, its buses, and one instance. -/
theorem declared_concatBody (inner : String) (ports : List Port) (ins outs : List LaidOut) :
    (concatBody inner ports ins outs).declared =
      ports.map Port.name ++ ((ins ++ outs).flatMap LaidOut.busDecl).map Decl.name ++
        ["inner"] := by
  rw [Module.declared, declsOf_concatBody, instancesOf_concatBody]
  rfl

/-- Groups that pass the check carry the extra signals of the unit, and have a channel. -/
theorem groups_checked {ins outs : List PortGroup} {extra : ExtraSignals}
    (h : checkPortGroups ins outs extra = .ok ()) :
    ∀ g ∈ ins ++ outs, g.extra = extra ∧ 0 < g.channels := by
  unfold checkPortGroups at h
  obtain ⟨_, hall, -⟩ := bind_ok h
  generalize ins ++ outs = groups at hall
  induction groups with
  | nil => exact fun g hg => absurd hg List.not_mem_nil
  | cons g rest ih =>
      have hfirst : (g.validate extra >>= fun _ => rest.forM fun g => g.validate extra) =
          .ok _ := hall
      obtain ⟨_, hg, hrest⟩ := bind_ok hfirst
      refine List.forall_mem_cons.mpr ⟨?_, ih hrest⟩
      unfold PortGroup.validate at hg
      split at hg
      · exact absurd hg (by simp)
      · rename_i hsize
        split at hg
        · rename_i hextra
          refine ⟨hextra, ?_⟩
          unfold PortGroup.channels
          cases hs : g.size with
          | none => decide
          | some n =>
              rw [hs] at hsize
              exact Nat.pos_of_ne_zero fun hn => hsize (hn ▸ rfl)
        · exact absurd hg (by simp)

/-- Groups of one width with the same extra signals have the same layout. -/
theorem layOut_same {width : Nat} {extra : ExtraSignals} {layout : Layout}
    (hlayout : Layout.of width extra = .ok layout) {groups : List PortGroup}
    (h : ∀ g ∈ groups, g.width = width ∧ g.extra = extra) :
    groups.mapM layOut = .ok (groups.map fun g => (g, layout)) := by
  induction groups with
  | nil => rfl
  | cons g rest ih =>
      obtain ⟨hwidth, hextra⟩ := h g List.mem_cons_self
      have hg : layOut g = .ok (g, layout) := by
        unfold layOut PortGroup.layout
        rw [hwidth, hextra, hlayout]
        rfl
      rw [List.mapM_cons, hg, ok_bind, ih fun g hg => h g (List.mem_cons_of_mem _ hg), ok_bind]
      rfl

theorem mem_outerPorts {g h : PortGroup} {name : String} :
    name ∈ (outerPorts [g] [h]).map Port.name ↔
      name = "clk" ∨ name = "rst" ∨ name ∈ (g.ports .input).map Port.name ∨
        name ∈ (h.ports .output).map Port.name := by
  simp [outerPorts, clockPorts, Port.input, eq_comm]

/-- Of the names that a wrapper adds, an extra signal can only give a port the name of a bus. -/
theorem mem_outerPorts_added (width : Nat) (size : Option Nat) (extra : ExtraSignals) :
    ("ins_inner" ∈ (outerPorts [⟨"ins", width, extra, size⟩] [⟨"outs", width, extra, none⟩]).map
        Port.name ↔
        "inner" ∈ extra.signals.map ExtraSignal.name) ∧
      ("outs_inner" ∈ (outerPorts [⟨"ins", width, extra, size⟩] [⟨"outs", width, extra, none⟩]).map
        Port.name ↔
        "inner" ∈ extra.signals.map ExtraSignal.name) ∧
      "inner" ∉ (outerPorts [⟨"ins", width, extra, size⟩] [⟨"outs", width, extra, none⟩]).map
        Port.name := by
  have hinner : ∀ stem : String, (∃ s ∈ extra.signals, stem ++ "inner" = stem ++ s.name) ↔
      "inner" ∈ extra.signals.map ExtraSignal.name := by
    intro stem
    simp [eq_comm]
  -- what begins with one stem is no name under the other
  have hother : ∀ stem name : String, ¬ stem.toList <+: name.toList →
      ¬ ∃ s ∈ extra.signals, name = stem ++ s.name := by
    rintro stem name h ⟨s, -, hs⟩
    exact ne_append_of_start h s.name hs
  rw [mem_outerPorts, mem_outerPorts, mem_outerPorts]
  simp only [PortGroup.mem_names]
  refine ⟨?_, ?_, ?_⟩
  · rw [← hinner "ins_"]
    have := hother "outs_" "ins_inner" (by decide)
    simp [this]
  · rw [← hinner "outs_"]
    have := hother "ins_" "outs_inner" (by decide)
    simp [this]
  · have hins := hother "ins_" "inner" (by decide)
    have houts := hother "outs_" "inner" (by decide)
    simp [hins, houts]

/-- **The bus of a port clashes with an extra signal `inner`, and with nothing else.** -/
theorem distinct_concatBody {width : Nat} {size : Option Nat} {extra : ExtraSignals}
    {laidIns laidOuts : List LaidOut} (inner : String) (hextra : extra.signals ≠ [])
    (hcheck : checkPortGroups [⟨"ins", width, extra, size⟩] [⟨"outs", width, extra, none⟩]
      extra = .ok ())
    (hins : [(⟨"ins", width, extra, size⟩ : PortGroup)].mapM layOut = .ok laidIns)
    (houts : [(⟨"outs", width, extra, none⟩ : PortGroup)].mapM layOut = .ok laidOuts) :
    (concatBody inner
        (outerPorts [⟨"ins", width, extra, size⟩] [⟨"outs", width, extra, none⟩]) laidIns
        laidOuts).declared.Nodup ↔ "inner" ∉ extra.signals.map ExtraSignal.name := by
  obtain ⟨layoutIn, hlayoutIn, rfl⟩ := layOut_singleton hins
  obtain ⟨layoutOut, hlayoutOut, rfl⟩ := layOut_singleton houts
  have htotal := ExtraSignals.totalWidth_pos hextra
  have hbusIn : 0 < LaidOut.busWidth (⟨"ins", width, extra, size⟩, layoutIn) := by
    refine Nat.mul_pos (groups_checked hcheck _ List.mem_cons_self).2 ?_
    rw [Layout.total_of hlayoutIn]
    exact Nat.add_pos_right width htotal
  have hbusOut : 0 < LaidOut.busWidth (⟨"outs", width, extra, none⟩, layoutOut) := by
    refine Nat.mul_pos Nat.one_pos ?_
    rw [Layout.total_of hlayoutOut]
    exact Nat.add_pos_right width htotal
  have hbuses :
      (([(⟨"ins", width, extra, size⟩, layoutIn)] ++ [(⟨"outs", width, extra, none⟩, layoutOut)] :
      List LaidOut).flatMap LaidOut.busDecl).map Decl.name = ["ins_inner", "outs_inner"] := by
    simp [LaidOut.busDecl, ifData, hbusIn, hbusOut, Decl.net, LaidOut.bus]
  have hnodup := nodup_outerPorts hcheck
  obtain ⟨hin, hout, hinst⟩ := mem_outerPorts_added width size extra
  rw [declared_concatBody, hbuses, List.append_assoc, List.nodup_append]
  constructor
  · rintro ⟨-, -, hapart⟩ hmem
    exact hapart _ (hin.mpr hmem) "ins_inner" (by simp) rfl
  · intro hnot
    refine ⟨hnodup, by decide, ?_⟩
    intro name hname other hother heq
    subst heq
    -- the two buses and the instance are all that the wrapper adds to its ports
    rcases (by simpa using hother : name = "ins_inner" ∨ name = "outs_inner" ∨ name = "inner")
      with rfl | rfl | rfl
    · exact hnot (hin.mp hname)
    · exact hnot (hout.mp hname)
    · exact hinst hname

/-- The wrapper of an operator declares three signals of its own, and two instances. -/
theorem declared_bypassBody (inner line : String) (ports : List Port) (ins outs : List PortGroup)
    (first drain : PortGroup) (layout : Layout) :
    (bypassBody inner line ports ins outs first drain layout).declared =
      ports.map Port.name ++
        (ifData layout.total ["extra_ins", "extra_outs"] ++ ["extra_ins_valid"] ++
          ["inner", "buff"]) := by
  by_cases h : 0 < layout.total <;>
    simp [Module.declared, bypassBody, anonymous, ifData, h, Item.declsOf, Item.decls,
      Item.instancesOf, Item.instances, Role.token, Decl.net]

/--
The ports of a wrapper are the clock, the reset, and names that begin like those
of its groups.
-/
theorem outerPorts_start {ins outs : List PortGroup} {name : String}
    (h : name ∈ (outerPorts ins outs).map Port.name) :
    name = "clk" ∨ name = "rst" ∨ ∃ g ∈ ins ++ outs, g.name.toList <+: name.toList := by
  unfold outerPorts at h
  rw [List.map_append, List.map_append, List.mem_append, List.mem_append] at h
  rcases h with (h | h) | h
  · simp only [clockPorts, Port.input, List.map_cons, List.map_nil, List.mem_cons, List.not_mem_nil,
      or_false] at h
    exact h.imp_right Or.inl
  · obtain ⟨p, hp, rfl⟩ := List.mem_map.mp h
    obtain ⟨g, hg, hp⟩ := List.mem_flatMap.mp hp
    exact Or.inr
      (Or.inr ⟨g, List.mem_append_left _ hg, PortGroup.names_start (List.mem_map_of_mem hp)⟩)
  · obtain ⟨p, hp, rfl⟩ := List.mem_map.mp h
    obtain ⟨g, hg, hp⟩ := List.mem_flatMap.mp hp
    exact Or.inr
      (Or.inr ⟨g, List.mem_append_right _ hg, PortGroup.names_start (List.mem_map_of_mem hp)⟩)

/--
The wrapper of an operator declares distinct names: its ports were checked, and
none of them begins like its own signals.
-/
theorem distinct_bypassBody {width : Nat} {extra : ExtraSignals} (inner line : String)
    (layout : Layout)
    (hcheck : checkPortGroups [⟨"lhs", width, extra, none⟩, ⟨"rhs", width, extra, none⟩]
      [⟨"result", width, extra, none⟩] extra = .ok ()) :
    (bypassBody inner line
      (outerPorts [⟨"lhs", width, extra, none⟩,
        ⟨"rhs", width, extra, none⟩] [⟨"result", width, extra, none⟩])
      [⟨"lhs", width, extra, none⟩, ⟨"rhs", width, extra, none⟩] [⟨"result", width, extra, none⟩]
      ⟨"lhs", width, extra, none⟩ ⟨"result", width, extra, none⟩ layout).declared.Nodup := by
  rw [declared_bypassBody]
  generalize hadded : ifData layout.total ["extra_ins", "extra_outs"] ++ ["extra_ins_valid"] ++
    ["inner", "buff"] = added
  have hfixed : added.Nodup ∧ ∀ name ∈ added, name ≠ "clk" ∧ name ≠ "rst" ∧
      ¬ "lhs".toList <+: name.toList ∧
      ¬ "rhs".toList <+: name.toList ∧ ¬ "result".toList <+: name.toList := by
    subst hadded
    unfold ifData
    split <;> decide
  refine List.nodup_append.mpr ⟨nodup_outerPorts hcheck, hfixed.1, ?_⟩
  intro name hname other hother heq
  subst heq
  obtain ⟨hclk, hrst, hlhs, hrhs, hresult⟩ := hfixed.2 name hother
  rcases outerPorts_start hname with h | h | ⟨g, hg, hstart⟩
  · exact hclk h
  · exact hrst h
  · simp only [List.cons_append, List.nil_append, List.mem_cons, List.not_mem_nil, or_false] at hg
    rcases hg with rfl | rfl | rfl
    · exact hlhs hstart
    · exact hrhs hstart
    · exact hresult hstart

end Manager

/-! ## Requests -/

/-- What has been read of the parameters when a variant was chosen. -/
theorem Variant.ofParams_ok {kind : String} {support : Support} {params : Params} {key : ParamKey}
    {variant : Variant} (h : Variant.ofParams kind support params key = .ok variant) :
    ∃ width extra, params.count key = .ok width ∧ params.extraSignals = .ok extra ∧
      Variant.choose kind support width extra = .ok variant := by
  unfold Variant.ofParams at h
  obtain ⟨width, hwidth, h⟩ := bind_ok h
  obtain ⟨extra, hextra, h⟩ := bind_ok h
  exact ⟨width, extra, hwidth, hextra, h⟩

theorem Variant.choose_ok {kind : String} {support : Support} {width : Nat} {extra : ExtraSignals}
    {variant : Variant} (h : Variant.choose kind support width extra = .ok variant) :
    variant = Variant.of width extra ∧ support.supports (Variant.of width extra).shape = true := by
  unfold Variant.choose at h
  dsimp only at h
  split at h
  · rename_i hs
    cases h
    exact ⟨rfl, hs⟩
  · exact absurd h (by simp)

/-- With extra signals a unit is wrapped, whatever its payload. -/
theorem Variant.of_extra {width : Nat} {extra : ExtraSignals} (h : extra.signals ≠ []) :
    Variant.of width extra = .signalManaged width extra :=
  if_neg (by simp [ExtraSignals.isEmpty, h])

theorem Multiplier.operandWidth_ok {width operand : Nat} {extra : ExtraSignals}
    (h : operandWidth (Variant.of width extra) = .ok operand) : operand = width ∧ 0 < width := by
  -- operands are checked alike with and without extra signals
  have hscalar : ∀ variant, operandWidth variant = .ok operand → ∀ w, variant = .scalar w ∨
      variant = .signalManaged w extra → operand = w ∧ 0 < w := by
    rintro _ hok w (rfl | rfl) <;>
    · rw [operandWidth] at hok
      split at hok
      · rename_i hpos
        exact ⟨(Except.ok.inj hok).symm, hpos⟩
      · exact absurd hok (by simp)
  unfold Variant.of at h
  split at h
  · split at h
    · exact absurd h (by simp [operandWidth])
    · exact hscalar _ h width (Or.inl rfl)
  · exact hscalar _ h width (Or.inr rfl)

theorem Multiplier.ofParams_ok {id : Identity} {params : Params} {a : Artifact}
    (h : ofParams id params = .ok a) :
    ∃ width extra, params.count .bitwidth = .ok width ∧ params.extraSignals = .ok extra ∧
      0 < width ∧
      Operator.generate id (Variant.of width extra) latency (fun coreId => generate coreId width) =
        .ok a := by
  obtain ⟨variant, hvariant, h⟩ := bind_ok h
  obtain ⟨operand, hoperand, h⟩ := bind_ok h
  obtain ⟨width, extra, hwidth, hextra, hchoose⟩ := Variant.ofParams_ok hvariant
  obtain ⟨rfl, -⟩ := Variant.choose_ok hchoose
  obtain ⟨rfl, hpos⟩ := operandWidth_ok hoperand
  exact ⟨operand, extra, hwidth, hextra, hpos, h⟩

theorem FloatOperator.ofParams_ok {op : FloatOperator} {id : Identity} {params : Params}
    {a : Artifact} (h : op.ofParams id params = .ok a) :
    ∃ p extra, Precision.ofParams params = .ok p ∧ params.extraSignals = .ok extra ∧
      Operator.generate id (Variant.of p.width extra) (op.latency p) (generate op p) = .ok a := by
  obtain ⟨p, hp, h⟩ := bind_ok h
  obtain ⟨extra, hextra, h⟩ := bind_ok h
  obtain ⟨variant, hvariant, h⟩ := bind_ok h
  obtain ⟨rfl, -⟩ := Variant.choose_ok hvariant
  exact ⟨p, extra, hp, hextra, h⟩

/-- All modules of an artifact declare distinct names. -/
def Artifact.Distinct (a : Artifact) : Prop := ∀ b ∈ a.blocks, b.content.declared.Nodup

theorem Artifact.distinct_leaf {id : Identity} {content : Module} {latency : Nat} {a : Artifact}
    (h : (Accumulator.start id).finish content latency = .ok a) (hc : content.declared.Nodup) :
    a.IsUnit id.text ∧ a.Distinct := by
  obtain ⟨hblocks, -, -, hunit⟩ := Accumulator.finish_start h
  refine ⟨hunit, fun b hb => ?_⟩
  rw [hblocks, List.mem_singleton] at hb
  exact hb ▸ hc

/--
A unit that hands tokens on declares distinct names, unless an extra signal is
called like its instance.
-/
theorem distinct_passThrough {id : Identity} {kind : String} {params : Params} {size : Option Nat}
    {generate : Identity → Nat → Except Error Artifact} {a : Artifact}
    (hgen : ∀ id width sub, generate id width = .ok sub → sub.IsUnit id.text ∧ sub.Distinct)
    (h : passThrough id kind params size generate = .ok a) :
    ∃ extra, params.extraSignals = .ok extra ∧
      (a.Distinct ↔ "inner" ∉ extra.signals.map ExtraSignal.name) := by
  unfold passThrough at h
  obtain ⟨variant, hvariant, h⟩ := bind_ok h
  obtain ⟨width, extra, -, hextra, hchoose⟩ := Variant.ofParams_ok hvariant
  obtain ⟨rfl, -⟩ := Variant.choose_ok hchoose
  refine ⟨extra, hextra, ?_⟩
  by_cases hempty : extra.signals = []
  · -- without extra signals there is no wrapper
    have hall : a.Distinct := by
      unfold Variant.of at h
      rw [if_pos (by simp [ExtraSignals.isEmpty, hempty])] at h
      by_cases hwidth : width = 0
      · rw [if_pos hwidth] at h
        exact (hgen _ _ _ h).2
      · rw [if_neg hwidth] at h
        exact (hgen _ _ _ h).2
    simp [hall, hempty]
  · unfold Variant.of at h
    rw [if_neg (by simp [ExtraSignals.isEmpty, hempty])] at h
    obtain ⟨w, sub, laidIns, laidOuts, hcheck, -, hins, houts, hsub, -, hblocks, -⟩ :=
      Manager.concat_ok (fun w sub _ hsub => (hgen _ w sub hsub).1.wellFormed_top) h
    -- the submodule has distinct names in any case, so the wrapper decides
    rw [← Manager.distinct_concatBody (derived id.text [.inner]) hempty hcheck hins houts]
    unfold Artifact.Distinct
    rw [hblocks]
    constructor
    · intro hall
      exact hall _ (List.mem_append_right _ (List.mem_singleton_self _))
    · intro hwrapper b hb
      rcases List.mem_append.mp hb with hb | hb
      · exact (hgen _ _ _ hsub).2 b hb
      · rw [List.mem_singleton] at hb
        exact hb ▸ hwrapper

/-- An operator declares distinct names if it does so without extra signals. -/
theorem distinct_operator {id : Identity} {variant : Variant} {latency : Nat}
    {core : Identity → Except Error Artifact} {a : Artifact}
    (hcore : ∀ id sub, core id = .ok sub → sub.IsUnit id.text ∧ sub.Distinct)
    (h : Operator.generate id variant latency core = .ok a) : a.Distinct := by
  cases variant with
  | dataless => exact (hcore id a h).2
  | scalar width => exact (hcore id a h).2
  | signalManaged width extra =>
      obtain ⟨sub, layout, hcheck, hsub, -, -, hblocks, -⟩ :=
        Manager.bypass_ok (fun sub hsub => (hcore _ sub hsub).1) h
      intro b hb
      rw [hblocks, List.mem_append, List.mem_cons, List.mem_singleton] at hb
      rcases hb with hb | rfl | rfl
      · exact (hcore _ _ hsub).2 b hb
      · exact distinct_delayLine _
      · exact Manager.distinct_bypassBody _ _ layout hcheck

theorem Merge.generate_distinct {size width : Nat} {id : Identity} {a : Artifact}
    (h : Merge.generate size id width = .ok a) : a.IsUnit id.text ∧ a.Distinct := by
  obtain ⟨hblocks, hunit⟩ := Merge.generate_ok h
  refine ⟨hunit, fun b hb => ?_⟩
  rw [hblocks, List.mem_cons, List.mem_cons, List.mem_singleton] at hb
  rcases hb with rfl | rfl | rfl
  · exact distinct_priorityMerge size width
  · exact distinct_readyBreak width
  · exact distinct_merge _ _ size width

theorem Multiplier.generate_distinct {width : Nat} {id : Identity} {a : Artifact}
    (h : Multiplier.generate id width = .ok a) : a.IsUnit id.text ∧ a.Distinct := by
  obtain ⟨hblocks, -, hunit⟩ := Multiplier.generate_ok h
  refine ⟨hunit, fun b hb => ?_⟩
  rw [hblocks, List.mem_cons, List.mem_cons, List.mem_cons, List.mem_cons, List.mem_singleton] at hb
  rcases hb with rfl | rfl | rfl | rfl | rfl
  · exact distinct_multiplierCore width
  · exact distinct_join 2
  · exact distinct_delayBuffer (latency - 1)
  · exact distinct_dataBreak 0
  · exact distinct_multiplier _ _ _ _ width

theorem FloatOperator.generate_distinct {op : FloatOperator} {p : Precision} {id : Identity}
    {a : Artifact} (h : op.generate p id = .ok a) : a.IsUnit id.text ∧ a.Distinct := by
  obtain ⟨hblocks, -, hunit⟩ := FloatOperator.generate_ok h
  refine ⟨hunit, fun b hb => ?_⟩
  rw [hblocks, List.mem_cons, List.mem_cons, List.mem_cons, List.mem_singleton] at hb
  rcases hb with rfl | rfl | rfl | rfl
  · exact distinct_join 2
  · exact distinct_delayBuffer (op.latency p - 1)
  · exact distinct_dataBreak 0
  · exact distinct_floatOperator op p _ _ _

/-- A buffer has one slot, of the type that is selected. -/
theorem Buffer.ofParams_ok {id : Identity} {params : Params} {a : Artifact}
    (h : Buffer.ofParams id params = .ok a) :
    params.countOr .numSlots 1 = .ok 1 ∧
      ((BufferType.ofParams params = .ok .breakData ∧ DataBreak.ofParams id params = .ok a) ∨
        (BufferType.ofParams params = .ok .breakReady ∧
          ReadyBreak.ofParams id params = .ok a)) := by
  obtain ⟨bufferType, htype, h⟩ := bind_ok h
  obtain ⟨slots, hslots, h⟩ := bind_ok h
  dsimp only at h
  split at h
  · exact absurd h (by simp [throw, throwThe, MonadExceptOf.throw, bind, Except.bind])
  · rename_i hone
    obtain rfl : slots = 1 := Decidable.not_not.mp hone
    cases bufferType with
    | breakData => exact ⟨hslots, Or.inl ⟨htype, h⟩⟩
    | breakReady => exact ⟨hslots, Or.inr ⟨htype, h⟩⟩

namespace UnitKind

/-- The kinds that hand a token on as it came. -/
def passesThrough : UnitKind → Bool
  | .priorityMerge | .merge | .buffer | .readyBreak | .dataBreak => true
  | .join | .delayBuffer | .multiplier | .float _ => false

/-- For units that compute, no extra signal makes a difference. -/
theorem distinct_computing {kind : UnitKind} {id : Identity} {params : Params} {a : Artifact}
    (h : kind.generate id params = .ok a) (hk : kind.passesThrough = false) : a.Distinct := by
  cases kind with
  | priorityMerge | merge | buffer | readyBreak | dataBreak => exact absurd hk (by decide)
  | join =>
      obtain ⟨extra, -, h⟩ := bind_ok h
      obtain ⟨variant, -, h⟩ := bind_ok h
      obtain ⟨size, -, h⟩ := bind_ok h
      exact (Artifact.distinct_leaf h (distinct_join size)).2
  | delayBuffer =>
      obtain ⟨slots, -, h⟩ := bind_ok h
      exact (Artifact.distinct_leaf h (distinct_delayBuffer slots)).2
  | multiplier =>
      obtain ⟨variant, -, h⟩ := bind_ok h
      obtain ⟨width, -, h⟩ := bind_ok h
      exact distinct_operator (fun _ _ hsub => Multiplier.generate_distinct hsub) h
  | float op =>
      obtain ⟨p, -, h⟩ := bind_ok h
      obtain ⟨extra, -, h⟩ := bind_ok h
      obtain ⟨variant, -, h⟩ := bind_ok h
      exact distinct_operator (fun _ _ hsub => FloatOperator.generate_distinct hsub) h

/-- For units that hand tokens on, one name of an extra signal makes all the difference. -/
theorem distinct_passing {kind : UnitKind} {id : Identity} {params : Params} {a : Artifact}
    (h : kind.generate id params = .ok a) (hk : kind.passesThrough = true) :
    ∃ extra, params.extraSignals = .ok extra ∧
      (a.Distinct ↔ "inner" ∉ extra.signals.map ExtraSignal.name) := by
  have hready : ∀ id width sub, ReadyBreak.generate id width = .ok sub →
      sub.IsUnit id.text ∧ sub.Distinct :=
    fun _ width _ h => Artifact.distinct_leaf h (distinct_readyBreak width)
  have hdata : ∀ id width sub, DataBreak.generate id width = .ok sub →
      sub.IsUnit id.text ∧ sub.Distinct :=
    fun _ width _ h => Artifact.distinct_leaf h (distinct_dataBreak width)
  cases kind with
  | join | delayBuffer | multiplier | float _ => exact absurd hk (by simp [passesThrough])
  | readyBreak => exact distinct_passThrough hready h
  | dataBreak => exact distinct_passThrough hdata h
  | priorityMerge =>
      obtain ⟨size, -, h⟩ := bind_ok h
      exact distinct_passThrough
        (fun _ width _ h => Artifact.distinct_leaf h (distinct_priorityMerge size width)) h
  | merge =>
      obtain ⟨size, -, h⟩ := bind_ok h
      exact distinct_passThrough (fun _ _ _ h => Merge.generate_distinct h) h
  | buffer =>
      obtain ⟨-, ⟨-, h⟩ | ⟨-, h⟩⟩ := Buffer.ofParams_ok h
      · exact distinct_passThrough hdata h
      · exact distinct_passThrough hready h

end UnitKind

/--
A request for a unit that hands its tokens on, with an extra signal called like
the wrapper's buses.
-/
def Request.ClashesWithBus (request : Request) : Prop :=
  ∃ kind extra, UnitKind.ofTag? request.kind = some kind ∧ kind.passesThrough = true ∧
    request.params.extraSignals = .ok extra ∧ "inner" ∈ extra.signals.map ExtraSignal.name

/--
**Which generated modules declare a name twice.** In every module of a generated
artifact the names of ports, signals and instances are pairwise distinct, unless
the unit hands its tokens on and has an extra signal `inner`; then some module
declares a name twice.
-/
theorem declared_nodup_iff {request : Request} {a : Artifact} (h : generate request = .ok a) :
    (∀ b ∈ a.blocks, b.content.declared.Nodup) ↔ ¬ request.ClashesWithBus := by
  obtain ⟨id, -, h⟩ := bind_ok h
  unfold UnitKind.generateTagged at h
  split at h
  · rename_i kind htag
    -- only units that hand their tokens on have wrappers with a bus beside each port
    cases hk : kind.passesThrough with
    | false =>
        have hall : a.Distinct := UnitKind.distinct_computing h hk
        refine ⟨fun _ => ?_, fun _ => hall⟩
        rintro ⟨kind', extra, htag', hk', -⟩
        rw [htag, Option.some.injEq] at htag'
        exact absurd (htag' ▸ hk') (by simp [hk])
    | true =>
        obtain ⟨extra, hextra, hiff⟩ := UnitKind.distinct_passing h hk
        refine hiff.trans (not_congr ⟨fun hin => ⟨kind, extra, htag, hk, hextra, hin⟩, ?_⟩)
        rintro ⟨-, extra', -, -, hextra', hin⟩
        rw [hextra, Except.ok.injEq] at hextra'
        exact hextra' ▸ hin
  · exact absurd h (by simp)

/-- A unit of eight bits of the given kind, with one extra signal. -/
def Request.withSignal (kind signal : String) : Request :=
  ⟨kind, "u", OrderedMap.empty.insert "bitwidth" (.int 8) |>.insert "extra_signals"
    (.signals (OrderedMap.empty.insert signal 1))⟩

/-- A multiplier may have an extra signal of that name: it does not hand its operands on. -/
theorem declared_nodup_multiplier_inner :
    ∃ a, generate (.withSignal "muli" "inner") = .ok a ∧
      ∀ b ∈ a.blocks, b.content.declared.Nodup := by
  have hok : (generate (.withSignal "muli" "inner")).isOk = true := by decide +kernel
  cases h : generate (.withSignal "muli" "inner") with
  | error e => exact absurd (h ▸ hok) (by simp [Except.isOk, Except.toBool])
  | ok a =>
      refine ⟨a, rfl, (declared_nodup_iff h).mpr ?_⟩
      rintro ⟨kind, extra, htag, hk, -⟩
      have hkind : UnitKind.ofTag? (Request.withSignal "muli" "inner").kind =
          some .multiplier := by decide
      rw [hkind, Option.some.injEq] at htag
      exact absurd (htag ▸ hk) (by decide)

/--
A buffer may not: its wrapper declares `ins_inner` as a port and again as a bus,
and is accepted.
-/
theorem declared_twice_buffer_inner :
    ∃ a, generate (.withSignal "one_slot_break_r" "inner") = .ok a ∧
      ¬ ∀ b ∈ a.blocks, b.content.declared.Nodup := by
  have hrun : ∃ a ∈ (generate (.withSignal "one_slot_break_r" "inner")).toOption,
      ¬ ∀ b ∈ a.blocks, b.content.declared.Nodup := by decide +kernel
  obtain ⟨a, ha, hdup⟩ := hrun
  cases h : generate (.withSignal "one_slot_break_r" "inner") with
  | error e => simp [h, Except.toOption] at ha
  | ok a' =>
      simp only [h, Except.toOption, Option.mem_def, Option.some.injEq] at ha
      exact ⟨a, ha ▸ rfl, hdup⟩

end Handshake
