import Handshake.Proofs.Identifiers
import Handshake.Proofs.Widths

/-!
# Generated netlists are closed and agree in width

Nothing here runs a circuit or bounds a width: each body that a block can have
is checked as it stands. Its assignments are balanced, its instances list the
ports of the modules they instantiate, and its names are identifiers. An
artifact whose modules declare no name twice consists of such blocks.

The bodies are taken one by one. Those without instances need the widths of
their signals and nothing else. For an instance it has to be known which ports
it meets: `Offers` says what an artifact provides under a name, and a list of
wires, one for each port, says what is connected to it. Of the cores that come
from outside no ports are known, so only what is connected to them is checked.

`Module.Elaborates` states the outcome without reference to any of these means.
-/

namespace Handshake

namespace Module

variable {a : Artifact} {m : Module}

theorem width?_signals (hdistinct : (m.signals.map Prod.fst).Nodup) :
    ∀ s ∈ m.signals, m.width? s.1 = some s.2 :=
  fun _ hs => width?_of_mem hdistinct hs

/-- A module without submodules is balanced if its assigns and its processes are. -/
theorem Balanced.of_leaf {assigns : List Assign} {processes : List (List Statement)}
    (hleaf : Item.instancesOf m.items = []) (hassigns : m.circuit.assigns = assigns)
    (hprocesses : m.circuit.processes = processes)
    (hclock : processes ≠ [] → ("clk", 1) ∈ m.signals)
    (hassign : ∀ x ∈ assigns, x.Balanced m.width?)
    (hprocess : ∀ body ∈ processes, Statement.BalancedAll m.width? body) : m.Balanced a where
  assigns := by
    intro x hx
    exact hassign x (hassigns ▸ hx)
  processes := by
    intro body hbody
    exact hprocess body (hprocesses ▸ hbody)
  clock := fun hne => hclock (hprocesses ▸ hne)
  instances := by
    intro i hi
    exact absurd hi (by simp [hleaf])

/-- A module of assigns is balanced if its assigns are. -/
theorem Balanced.of_combinational {assigns : List Assign} (hleaf : Item.instancesOf m.items = [])
    (hassigns : m.circuit.assigns = assigns) (hprocesses : m.circuit.processes = [])
    (hassign : ∀ x ∈ assigns, x.Balanced m.width?) : m.Balanced a :=
  .of_leaf hleaf hassigns hprocesses (fun h => absurd rfl h) hassign fun _ h =>
    absurd h List.not_mem_nil

end Module

/-! ## Modules without submodules -/

/-- All signals of a join are bits, or a bit for each channel. -/
theorem Join.balanced (a : Artifact) (size : Nat) : (body size).Balanced a := by
  have hwidth := Module.width?_signals (Module.distinct_of_declared (distinct_join size))
  rw [signals_body] at hwidth
  simp only [List.forall_mem_cons] at hwidth
  obtain ⟨hinsValid, hinsReady, houtsValid, houtsReady, -⟩ := hwidth
  have hvalid : ∀ c < size, (valid size c).width? (body size).width? = some 1 := fun c hc =>
    Expr.width?_select hinsValid Nat.one_pos hc
  refine .of_combinational (instancesOf_join size) (assigns_body size) rfl ?_
  refine List.forall_mem_append.mpr ⟨List.forall_mem_map.mpr (List.forall_mem_singleton.mpr ?_),
    List.forall_mem_map.mpr fun i hi => ?_⟩
  · exact ⟨1, houtsValid,
      Expr.width?_all (List.forall_mem_map.mpr fun c hc => hvalid c (List.mem_range.mp hc))⟩
  · have hothers : ∀ e ∈ Expr.ident "outs_ready" :: ((List.range size).filter
        (· ≠ i)).map (valid size),
        e.width? (body size).width? = some 1 := by
      refine List.forall_mem_cons.mpr ⟨houtsReady, List.forall_mem_map.mpr fun c hc => ?_⟩
      exact hvalid c (List.mem_range.mp (List.mem_filter.mp hc).1)
    exact ⟨1, Expr.width?_select hinsReady Nat.one_pos (List.mem_range.mp hi),
      Expr.width?_all hothers⟩

/-- The signals of the ports of a unit from `ins` to `outs`, with their widths. -/
theorem Module.width?_passThrough {m : Module} {size width : Nat}
    (hports : m.ports = passThroughPorts size width) (hdistinct : (m.signals.map Prod.fst).Nodup) :
    m.width? "rst" = some 1 ∧ m.width? "ins_valid" = some size ∧ m.width? "ins_ready" = some size ∧
      m.width? "outs_valid" = some 1 ∧ m.width? "outs_ready" = some 1 ∧
      (0 < width → m.width? "ins" = some (size * width) ∧ m.width? "outs" = some width) := by
  obtain ⟨hrst, hinsValid, hinsReady, houtsValid, houtsReady⟩ := mem_signals_handshake hports
  refine ⟨width?_of_mem hdistinct hrst, width?_of_mem hdistinct hinsValid,
    width?_of_mem hdistinct hinsReady, width?_of_mem hdistinct houtsValid,
    width?_of_mem hdistinct houtsReady, fun hw => ?_⟩
  obtain ⟨hins, houts⟩ := mem_signals_payload hports hw
  exact ⟨width?_of_mem hdistinct hins, width?_of_mem hdistinct houts⟩

/-- In a merge each channel that can be selected is as wide as the output. -/
theorem PriorityMerge.balanced (a : Artifact) {size : Nat} (width : Nat) (hpos : 0 < size) :
    (body size width).Balanced a := by
  obtain ⟨-, hinsValid, hinsReady, houtsValid, houtsReady, hdata⟩ :=
    Module.width?_passThrough (m := body size width) rfl
      (Module.distinct_of_declared (distinct_priorityMerge size width))
  have hvalid : ∀ c < size, (valid size c).width? (body size width).width? = some 1 := fun c hc =>
    Expr.width?_select hinsValid Nat.one_pos hc
  have hany : ∀ n ≤ size, (Expr.any ((List.range n).map (valid size))).width?
      (body size width).width? = some 1 := by
    intro n hn
    refine Expr.width?_any (List.forall_mem_map.mpr fun c hc => hvalid c ?_)
    exact Nat.lt_of_lt_of_le (List.mem_range.mp hc) hn
  refine .of_combinational (instancesOf_priorityMerge size width) rfl rfl
    (forall_assigns (fun hw => ?_) ⟨1, houtsValid, hany size (Nat.le_refl _)⟩ fun i hi => ?_)
  · obtain ⟨hins, houts⟩ := hdata hw
    have hchannel : ∀ c < size,
        (data size width c).width? (body size width).width? = some width := by
      intro c hc
      refine Expr.width?_select hins hw ?_
      have := Nat.mul_le_mul_right width (Nat.succ_le_of_lt hc)
      rwa [Nat.succ_mul] at this
    -- one condition for each channel but the last
    have hselected : ∀ channels : List Nat, (∀ c ∈ channels, c < size) →
        (channels.foldr (fun i rest => .cond (valid size i) (data size width i) rest)
          (data size width (size - 1))).width? (body size width).width? = some width := by
      intro channels
      induction channels with
      | nil => exact fun _ => hchannel (size - 1) (by omega)
      | cons c rest ih =>
          intro hall
          obtain ⟨hc, hrest⟩ := List.forall_mem_cons.mp hall
          exact Expr.width?_cond.mpr ⟨hvalid c hc, hchannel c hc, ih hrest⟩
    refine ⟨width, houts, hselected _ fun c hc => ?_⟩
    have := List.mem_range.mp hc
    omega
  · refine ⟨1, Expr.width?_select hinsReady Nat.one_pos hi, ?_⟩
    unfold ready
    split
    · exact houtsReady
    · refine Expr.width?_apply houtsReady ?_
      rw [Expr.width?_complement]
      exact hany i (Nat.le_of_lt hi)

theorem Module.mem_signals_clk {m : Module} {size width : Nat}
    (hports : m.ports = passThroughPorts size width) : ("clk", 1) ∈ m.signals := by
  rw [Module.signals, hports]
  simp [passThroughPorts, clockPorts, Port.input]

/-- The slot is as wide as the payload it stores. -/
theorem ReadyBreak.balanced (a : Artifact) (width : Nat) : (body width).Balanced a := by
  have hports : (body width).ports = passThroughPorts 1 width := rfl
  have hdistinct := Module.distinct_of_declared (distinct_readyBreak width)
  obtain ⟨hrst, hinsValid, hinsReady, houtsValid, houtsReady, hpayload⟩ :=
    Module.width?_passThrough hports hdistinct
  have hfull := Module.width?_of_mem hdistinct (mem_signals_full width)
  refine .of_leaf (instancesOf_readyBreak width) (assigns_body width) (processes_body width)
    (fun _ => Module.mem_signals_clk hports) ?_ ?_
  · refine List.forall_mem_append.mpr
      ⟨?_, forall_mem_ifData.mpr fun hw => List.forall_mem_singleton.mpr ?_⟩
    · simp only [List.forall_mem_cons, List.not_mem_nil, false_imp_iff, implies_true, and_true]
      exact ⟨⟨1, hinsReady, hfull⟩, 1, houtsValid, Expr.width?_apply hinsValid hfull⟩
    · obtain ⟨hins, houts⟩ := hpayload hw
      rw [Nat.one_mul] at hins
      have hreg := Module.width?_of_mem hdistinct (mem_signals_data hw)
      exact ⟨width, houts, Expr.width?_cond.mpr ⟨hfull, hreg, hins⟩⟩
  · refine List.forall_mem_append.mpr ⟨List.forall_mem_singleton.mpr ?_,
      forall_mem_ifData.mpr fun hw => List.forall_mem_singleton.mpr ?_⟩
    · have hnext : (Expr.and "outs_valid" (Expr.complement "outs_ready")).width?
          (body width).width? = some 1 :=
        Expr.width?_apply houtsValid ((Expr.width?_complement _).trans houtsReady)
      exact ⟨⟨hrst, ⟨⟨1, hfull, Expr.width?_bit false⟩, trivial⟩, ⟨1, hfull, hnext⟩, trivial⟩,
        trivial⟩
    · obtain ⟨hins, -⟩ := hpayload hw
      rw [Nat.one_mul] at hins
      exact ⟨⟨hinsReady,
        ⟨⟨width, Module.width?_of_mem hdistinct (mem_signals_data hw), hins⟩, trivial⟩, trivial⟩,
        trivial⟩

theorem DataBreak.balanced (a : Artifact) (width : Nat) : (body width).Balanced a := by
  have hports : (body width).ports = passThroughPorts 1 width := rfl
  have hdistinct := Module.distinct_of_declared (distinct_dataBreak width)
  obtain ⟨hrst, hinsValid, hinsReady, houtsValid, houtsReady, hpayload⟩ :=
    Module.width?_passThrough hports hdistinct
  have hvalid := Module.width?_of_mem hdistinct (mem_signals_valid width)
  have hreg : 0 < width → (body width).width? "data_reg" = some width := fun hw =>
    Module.width?_of_mem hdistinct (mem_signals_data hw)
  refine .of_leaf (instancesOf_dataBreak width) (assigns_body width) (processes_body width)
    (fun _ => Module.mem_signals_clk hports) ?_ ?_
  · refine List.forall_mem_append.mpr
      ⟨?_, forall_mem_ifData.mpr fun hw => List.forall_mem_singleton.mpr ?_⟩
    · simp only [List.forall_mem_cons, List.not_mem_nil, false_imp_iff, implies_true, and_true]
      exact ⟨⟨1, hinsReady, Expr.width?_apply ((Expr.width?_complement _).trans hvalid) houtsReady⟩,
        1, houtsValid, hvalid⟩
    · exact ⟨width, (hpayload hw).2, hreg hw⟩
  · refine List.forall_mem_append.mpr ⟨List.forall_mem_singleton.mpr ?_,
      forall_mem_ifData.mpr fun hw => List.forall_mem_singleton.mpr ?_⟩
    · exact ⟨⟨hrst, ⟨⟨1, hvalid, Expr.width?_bit false⟩, trivial⟩,
        ⟨hinsReady, ⟨⟨1, hvalid, hinsValid⟩, trivial⟩, trivial⟩, trivial⟩, trivial⟩
    · obtain ⟨hins, -⟩ := hpayload hw
      rw [Nat.one_mul] at hins
      exact ⟨⟨Expr.width?_apply hinsReady hinsValid, ⟨⟨width, hreg hw, hins⟩, trivial⟩, trivial⟩,
        trivial⟩

theorem DelayBuffer.balanced (a : Artifact) (slots : Nat) : (body slots).Balanced a := by
  have hwidth := Module.width?_signals (Module.distinct_of_declared (distinct_delayBuffer slots))
  by_cases h : slots = 0
  · subst h
    refine .of_combinational (instancesOf_delayBuffer 0) rfl rfl ?_
    exact List.forall_mem_singleton.mpr ⟨1, by decide, by decide⟩
  · rw [signals_body h] at hwidth
    obtain ⟨hports, hslots⟩ := List.forall_mem_append.mp hwidth
    simp only [List.forall_mem_cons] at hports
    obtain ⟨hclk, hrst, hin, hready, hout, -⟩ := hports
    have hslot : ∀ i < slots, (body slots).width? (slotName i) = some 1 := fun i hi =>
      List.forall_mem_map.mp hslots i (List.mem_range.mpr hi)
    refine .of_leaf (instancesOf_delayBuffer slots) (assigns_body h) (processes_body h)
      (fun _ => ?_)
      (List.forall_mem_singleton.mpr ⟨1, hout, hslot (slots - 1) (by omega)⟩)
      (List.forall_mem_singleton.mpr ?_)
    · rw [signals_body h]
      exact List.mem_cons_self
    · exact ⟨⟨hrst, Statement.balanced_clear hslot,
        ⟨hready, Statement.balanced_shift hin hslot, trivial⟩, trivial⟩, trivial⟩

theorem DelayLine.balanced (a : Artifact) {line : DelayLine} (h : line.latency ≠ 0)
    (hw : 0 < line.width) : line.body.Balanced a := by
  have hwidth := Module.width?_signals (Module.distinct_of_declared (distinct_delayLine line))
  rw [signals_body h hw] at hwidth
  obtain ⟨hports, hwidth⟩ := List.forall_mem_append.mp hwidth
  obtain ⟨hvalids, hwidth⟩ := List.forall_mem_append.mp hwidth
  obtain ⟨hdatas, henable⟩ := List.forall_mem_append.mp hwidth
  simp only [List.forall_mem_cons] at hports henable
  obtain ⟨hclk, hrst, hins, hinsValid, houts, houtsValid, houtsReady, -⟩ := hports
  have hvalid : ∀ i < line.latency, line.body.width? (validName i) = some 1 := fun i hi =>
    List.forall_mem_map.mp hvalids i (List.mem_range.mpr hi)
  have hdata : ∀ i < line.latency, line.body.width? (dataName i) = some line.width := fun i hi =>
    List.forall_mem_map.mp hdatas i (List.mem_range.mpr hi)
  have hlast : line.latency - 1 < line.latency := by omega
  refine .of_leaf (instancesOf_body h hw) (assigns_body h hw) (processes_body h hw)
    (fun _ => ?_) ?_ ?_
  · rw [signals_body h hw]
    exact List.mem_cons_self
  · simp only [List.forall_mem_cons, List.not_mem_nil, false_imp_iff, implies_true, and_true]
    exact ⟨⟨1, henable.1, Expr.width?_binary.mpr ⟨hvalid _ hlast, houtsReady⟩⟩,
      ⟨_, houts, hdata _ hlast⟩, 1, houtsValid, hvalid _ hlast⟩
  · simp only [List.forall_mem_cons, List.not_mem_nil, false_imp_iff, implies_true, and_true]
    exact ⟨⟨⟨hrst, Statement.balanced_clear hvalid,
      ⟨henable.1, Statement.balanced_shift hinsValid hvalid, trivial⟩, trivial⟩, trivial⟩,
      ⟨henable.1, Statement.balanced_shift hins hdata, trivial⟩, trivial⟩

/-- The product is as wide as its operands, which is where it is cut. -/
theorem Multiplier.balanced_core (a : Artifact) (width : Nat) : (coreBody width).Balanced a := by
  have hdistinct := Module.distinct_of_declared (distinct_multiplierCore width)
  have hwidth : ∀ name ∈ ["a", "b", "p", "a_reg", "b_reg", "q0", "q1", "q2", "mul"],
      (coreBody width).width? name = some width := fun name hname =>
    Module.width?_of_mem hdistinct (mem_signals_core width hname)
  have hce : (coreBody width).width? "ce" = some 1 :=
    Module.width?_of_mem hdistinct (by simp [signals_core])
  have hpair : ∀ target ∈ ["a", "b", "p", "a_reg", "b_reg", "q0", "q1", "q2", "mul"],
      ∀ value ∈ ["a", "b", "p", "a_reg", "b_reg", "q0", "q1", "q2", "mul"],
      ∃ w, (Expr.ident target).width? (coreBody width).width? = some w ∧
        (Expr.ident value).width? (coreBody width).width? =
          some w := fun target htarget value hvalue =>
    ⟨width, hwidth target htarget, hwidth value hvalue⟩
  refine .of_leaf rfl (congrArg Circuit.assigns (circuit_core width))
    (congrArg Circuit.processes (circuit_core width))
    (fun _ => by simp [signals_core]) ?_ (List.forall_mem_singleton.mpr ?_)
  · simp only [List.forall_mem_cons, List.not_mem_nil, false_imp_iff, implies_true, and_true]
    refine ⟨⟨width, hwidth "mul" (by simp), ?_⟩, hpair "p" (by simp) "q2" (by simp)⟩
    exact Expr.width?_binary.mpr ⟨hwidth "a_reg" (by simp), hwidth "b_reg" (by simp)⟩
  · exact ⟨⟨hce, ⟨hpair "a_reg" (by simp) "a" (by simp), hpair "b_reg" (by simp) "b" (by simp),
      hpair "q0" (by simp) "mul" (by simp), hpair "q1" (by simp) "q0" (by simp),
      hpair "q2" (by simp) "q1" (by simp), trivial⟩, trivial⟩, trivial⟩

/-! ## Modules with submodules -/

/-- An instance fits if it is wired to all ports, by signals of their widths. -/
theorem Instance.fits_of_wires {declared : String → Option Nat} {i : Instance} {ports : List Port}
    {wires : List (Port × String)}
    (hconnections : i.connections = wires.map fun w => (w.1.name, some (.ident w.2)))
    (hnames : (wires.map fun w => w.1.name).Perm (ports.map Port.name))
    (hports : ∀ w ∈ wires, w.1 ∈ ports) (hwidth : ∀ w ∈ wires, declared w.2 = some w.1.width) :
    i.Fits declared ports where
  once := by
    rw [hconnections, List.map_map]
    exact hnames
  widths := by
    rw [hconnections]
    refine List.forall_mem_map.mpr fun w hw e he => ?_
    obtain rfl := Option.some.inj he
    exact ⟨w.1, hports w hw, rfl, hwidth w hw⟩

theorem Part.Plugs.fits {declared : String → Option Nat} {p : Part} {wires : List (Port × String)}
    (h : p.Plugs wires) (hnames : (wires.map fun w => w.1.name).Perm (p.2.ports.map Port.name))
    (hwidth : ∀ w ∈ wires, declared w.2 = some w.1.width) : p.1.Fits declared p.2.ports :=
  Instance.fits_of_wires h.connections hnames
    (fun w hw => List.mem_of_find?_eq_some (h.ports w hw)) hwidth

/-- The wires to the two parts of a merge, in the order in which they are listed. -/
theorem Merge.names_wires (size width : Nat) :
    ((mergeWires size width).map fun w => w.1.name) = ["clk", "rst"] ++ ifData width ["ins"] ++
        ["ins_valid", "ins_ready", "outs_valid", "outs_ready"] ++ ifData width ["outs"] ∧
      ((bufferWires width).map fun w => w.1.name) = ["clk", "rst"] ++ ifData width ["ins"] ++
        ["ins_valid", "ins_ready", "outs_valid", "outs_ready"] ++ ifData width ["outs"] := by
  by_cases hw : 0 < width <;> simp [mergeWires, bufferWires, ifData, hw]

/-- The parts of a merge fit the nets between them. -/
theorem Merge.balanced {a : Artifact} {inner output : String} {size width : Nat}
    (hinner : a.Offers inner (passThroughPorts size width))
    (houtput : a.Offers output (passThroughPorts 1 width)) :
    (body inner output size width).Balanced a := by
  have hdistinct := Module.distinct_of_declared (distinct_merge inner output size width)
  have hwidth : ∀ w ∈ mergeWires size width ++ bufferWires width,
      (body inner output size width).width? w.2 = some w.1.width := fun w hw =>
    Module.width?_of_mem hdistinct (mem_signals_wires inner output w hw)
  obtain ⟨hmerge, hbuffer⟩ := List.forall_mem_append.mp hwidth
  have hnames : ∀ size : Nat, (["clk", "rst"] ++ ifData width ["ins"] ++
      ["ins_valid", "ins_ready", "outs_valid", "outs_ready"] ++ ifData width ["outs"]).Perm
        ((passThroughPorts size width).map Port.name) := by
    intro size
    rw [names_passThroughPorts]
    unfold ifData
    split <;> decide
  refine ⟨fun x hx => absurd hx List.not_mem_nil, fun body hbody => absurd hbody List.not_mem_nil,
    fun h => absurd rfl h, ?_⟩
  refine List.forall_mem_cons.mpr
    ⟨Or.inr ⟨_, hinner, ?_⟩, List.forall_mem_singleton.mpr (Or.inr ⟨_, houtput, ?_⟩)⟩
  · refine (plugs_merge size width inner).fits ?_ hmerge
    rw [(names_wires size width).1]
    exact hnames size
  · refine (plugs_buffer width output).fits ?_ hbuffer
    rw [(names_wires size width).2]
    exact hnames 1

namespace Operator

/-- The parts of the control are connected properly wherever their signals are bits. -/
theorem fits_control {declared : String → Option Nat}
    (hbits : ∀ name ∈ "clk" :: controlBits, declared name = some 1) (join delay output : String) :
    (joinInstance join).Fits declared (Join.body 2).ports ∧
      (delayInstance delay).Fits declared DelayBuffer.ports ∧
      (outputInstance output).Fits declared (passThroughPorts 1 0) := by
  have hjoin : (Join.body 2).ports =
    [⟨.input, 2, "ins_valid"⟩, ⟨.output, 2, "ins_ready"⟩, ⟨.output, 1, "outs_valid"⟩,
    ⟨.input, 1, "outs_ready"⟩] := rfl
  have houtput : passThroughPorts 1 0 =
    [⟨.input, 1, "clk"⟩, ⟨.input, 1, "rst"⟩, ⟨.input, 1, "ins_valid"⟩, ⟨.output, 1, "ins_ready"⟩,
    ⟨.output, 1, "outs_valid"⟩, ⟨.input, 1, "outs_ready"⟩] := rfl
  simp only [controlBits, List.forall_mem_cons] at hbits
  refine ⟨⟨?_, ?_⟩, ⟨?_, ?_⟩, ⟨?_, ?_⟩⟩
  · exact (by decide : ((joinInstance "").connections.map Prod.fst).Perm
      ((Join.body 2).ports.map Port.name))
  · rw [hjoin]
    simp [-Prod.forall, joinInstance, wire, Expr.width?, Expr.widthAll?, hbits]
  · exact (by decide : ((delayInstance "").connections.map Prod.fst).Perm
      (DelayBuffer.ports.map Port.name))
  · simp [-Prod.forall, delayInstance, clockWires, sameName, wire, DelayBuffer.ports, clockPorts,
      Port.input, Port.output, Expr.width?, hbits]
  · exact (by decide : ((outputInstance "").connections.map Prod.fst).Perm
      ((passThroughPorts 1 0).map Port.name))
  · rw [houtput]
    simp [-Prod.forall, outputInstance, clockWires, sameName, wire, Expr.width?, hbits]

end Operator

/-- Core and control of a multiplier fit its signals. -/
theorem Multiplier.balanced {a : Artifact} {core join delay output : String} {width : Nat}
    (hpos : 0 < width) (hcore : a.Offers core (corePorts width))
    (hjoin : a.Offers join (Join.body 2).ports) (hdelay : a.Offers delay DelayBuffer.ports)
    (houtput : a.Offers output (passThroughPorts 1 0)) :
    (operatorBody width core join delay output).Balanced a := by
  have hdistinct := Module.distinct_of_declared (distinct_multiplier core join delay output width)
  have hbits : ∀ name ∈ "clk" :: Operator.controlBits,
      (operatorBody width core join delay output).width? name = some 1 := fun name hname =>
    Module.width?_of_mem hdistinct
      (Operator.bits_body join delay output [.inst (coreInstance core)] hpos name hname)
  have hdata : ∀ name ∈ ["lhs", "rhs", "result"],
      (operatorBody width core join delay output).width? name = some width := fun name hname =>
    Module.width?_of_mem hdistinct
      (Operator.data_body join delay output [.inst (coreInstance core)] hpos name hname)
  obtain ⟨hfitsJoin, hfitsDelay, hfitsOutput⟩ := Operator.fits_control hbits join delay output
  have hfitsCore : (coreInstance core).Fits (operatorBody width core join delay output).width?
      (corePorts width) := by
    refine ⟨(by decide : ((coreInstance "").connections.map Prod.fst).Perm
      ((corePorts 0).map Port.name)), ?_⟩
    simp only [Operator.controlBits, List.forall_mem_cons] at hbits hdata
    simp [-Prod.forall, coreInstance, sameName, wire, corePorts, Port.input, Port.output,
      Expr.width?, hbits, hdata]
  refine ⟨fun x hx => absurd hx List.not_mem_nil, fun body hbody => absurd hbody List.not_mem_nil,
    fun h => absurd rfl h, ?_⟩
  have hinstances : Item.instancesOf (operatorBody width core join delay output).items =
      [Operator.joinInstance join, Operator.delayInstance delay, Operator.outputInstance output,
        coreInstance core] := rfl
  rw [hinstances]
  simp only [List.forall_mem_cons, List.not_mem_nil, false_imp_iff, implies_true, and_true]
  exact ⟨Or.inr ⟨_, hjoin, hfitsJoin⟩, Or.inr ⟨_, hdelay, hfitsDelay⟩,
    Or.inr ⟨_, houtput, hfitsOutput⟩, Or.inr ⟨_, hcore, hfitsCore⟩⟩

theorem FloatOperator.declsOf_datapath (op : FloatOperator) (p : Precision) :
    Item.declsOf (op.datapath p) = op.decls p := by
  cases op <;> simp [datapath, converter, Item.declsOf, Item.decls]

/-- The control fits, and what is connected to the cores at least has a width. -/
theorem FloatOperator.balanced {a : Artifact} {join delay output : String} (op : FloatOperator)
    (p : Precision) (hexternals : ∀ e ∈ op.externals p, e ∈ a.externals)
    (hjoin : a.Offers join (Join.body 2).ports) (hdelay : a.Offers delay DelayBuffer.ports)
    (houtput : a.Offers output (passThroughPorts 1 0)) :
    (operatorBody op p join delay output).Balanced a := by
  have hpos : 1 < p.width := by cases p <;> decide
  have hdistinct := Module.distinct_of_declared (distinct_floatOperator op p join delay output)
  have hbits : ∀ name ∈ "clk" :: Operator.controlBits,
      (operatorBody op p join delay output).width? name = some 1 := fun name hname =>
    Module.width?_of_mem hdistinct
      (Operator.bits_body join delay output (op.datapath p) (by omega) name hname)
  have hdata : ∀ name ∈ ["lhs", "rhs", "result"],
      (operatorBody op p join delay output).width? name = some p.width := fun name hname =>
    Module.width?_of_mem hdistinct
      (Operator.data_body join delay output (op.datapath p) (by omega) name hname)
  have hdecls : ∀ d ∈ op.decls p,
      (operatorBody op p join delay output).width? d.name = some d.width := by
    intro d hd
    refine Module.width?_of_mem hdistinct ?_
    show (d.name, d.width) ∈ (Operator.body p.width join delay output (op.datapath p)).signals
    rw [Operator.signals_body join delay output (op.datapath p) (by omega)]
    rw [declsOf_datapath]
    exact List.mem_append_right _ (List.mem_map.mpr ⟨d, hd, rfl⟩)
  obtain ⟨hfitsJoin, hfitsDelay, hfitsOutput⟩ := Operator.fits_control hbits join delay output
  refine ⟨?_, ?_, ?_, ?_⟩
  · rw [drives_operator]
    cases op with
    | mul => exact fun x hx => absurd hx List.not_mem_nil
    | sub =>
        -- the flipped sign, and the bits below it
        have hrhs := hdata "rhs" (by simp)
        have hsign : (Expr.select "rhs" p.width (p.width - 1) 1).width? _ = some 1 :=
          Expr.width?_select hrhs Nat.one_pos (by omega)
        have hrest : (Expr.select "rhs" p.width 0 (p.width - 1)).width? _ = some (p.width - 1) :=
          Expr.width?_select hrhs (by omega) (by omega)
        have hneg := hdecls ⟨.net, p.width, "rhs_neg"⟩ (by simp [decls, Decl.net])
        refine List.forall_mem_singleton.mpr ⟨p.width, hneg, ?_⟩
        refine Expr.widthAll?_cons.mpr
          ⟨1, p.width - 1, (Expr.width?_complement _).trans hsign, ?_, by omega⟩
        exact Expr.widthAll?_cons.mpr ⟨p.width - 1, 0, hrest, rfl, rfl⟩
  · cases op <;> exact fun body hbody => absurd hbody List.not_mem_nil
  · cases op <;> exact fun h => absurd rfl h
  · have hinstances : Item.instancesOf (operatorBody op p join delay output).items =
        [Operator.joinInstance join, Operator.delayInstance delay, Operator.outputInstance output,
          ⟨inputConverter p, "ieee2nfloat_lhs", [wire "X" "lhs", wire "R" "ip_lhs"]⟩,
          ⟨inputConverter p, "ieee2nfloat_rhs", [wire "X" op.rightOperand, wire "R" "ip_rhs"]⟩,
          ⟨outputConverter p, "nfloat2ieee_result", [wire "X" "ip_result", wire "R" "result"]⟩,
          ⟨op.core p, "ip",
            [sameName "clk", wire "ce" Operator.enable, wire "X" "ip_lhs", wire "Y" "ip_rhs",
            wire "R" "ip_result"]⟩] := by
      cases op <;> rfl
    have hright : ∃ w, (operatorBody op p join delay output).width? op.rightOperand = some w := by
      cases op with
      | mul => exact ⟨p.width, hdata "rhs" (by simp)⟩
      | sub => exact ⟨p.width, hdecls ⟨.net, p.width, "rhs_neg"⟩ (by simp [decls, Decl.net])⟩
    have hinner : ∀ name ∈ ["ip_lhs", "ip_rhs", "ip_result"],
        (operatorBody op p join delay output).width? name = some (p.width + 2) := fun name hname =>
      hdecls ⟨.net, p.width + 2, name⟩ (List.mem_append_left _ (by simpa [Decl.net] using hname))
    simp only [externals, List.forall_mem_cons] at hexternals
    simp only [Operator.controlBits, List.forall_mem_cons] at hbits hdata hinner
    rw [hinstances]
    simp only [List.forall_mem_cons, List.not_mem_nil, false_imp_iff, implies_true, and_true]
    refine ⟨Or.inr ⟨_, hjoin, hfitsJoin⟩, Or.inr ⟨_, hdelay, hfitsDelay⟩,
      Or.inr ⟨_, houtput, hfitsOutput⟩, Or.inl ⟨hexternals.1, ?_⟩, Or.inl ⟨hexternals.1, ?_⟩,
      Or.inl ⟨hexternals.2.1, ?_⟩, Or.inl ⟨hexternals.2.2.1, ?_⟩⟩
    · simp [wire, Expr.width?, hdata, hinner]
    · simp [wire, Expr.width?, hright, hinner]
    · simp [wire, Expr.width?, hdata, hinner]
    · simp [sameName, wire, Expr.width?, hbits, hinner]

namespace Manager

/--
What the ports of the unit for a group are connected to: its bus, and its valid
and ready signals.
-/
def groupWires (layout : Layout) (direction : Direction) (g : PortGroup) : List (Port × String) :=
  [(⟨direction, g.channels * layout.total, g.name⟩, busOf g),
    (⟨direction, g.channels, g.valid⟩, g.valid), (⟨direction.flip, g.channels, g.ready⟩, g.ready)]

/-- What the ports of the unit inside of a wrapper are connected to. -/
def bundledWires (layout : Layout) (ins outs : List PortGroup) : List (Port × String) :=
  clockPorts.map (fun p => (p, p.name)) ++ ins.flatMap (groupWires layout .input) ++
    outs.flatMap (groupWires layout .output)

theorem connections_bundling (layout : Layout) (inner : String) (ins outs : List PortGroup) :
    (bundlingInstance inner ins outs).connections =
      (bundledWires layout ins outs).map fun w => (w.1.name, some (.ident w.2)) := by
  simp [bundlingInstance, bundledWires, groupWires, clockWires, clockPorts, Port.input, sameName,
    wire, List.map_flatMap]

namespace Grouped

variable {width : Nat} {extra : ExtraSignals} {layout : Layout} {ins outs : List PortGroup}
    {inner : String} {a : Artifact} (h : Grouped width extra layout ins outs)
include h

theorem ports_bundledWires :
    (bundledWires layout ins outs).map Prod.fst = bundledPorts ins outs layout.total := by
  simp [bundledWires, bundledPorts, groupWires, clockPorts, handshakePorts_eq h.total_pos,
    List.map_flatMap, PortGroup.valid, PortGroup.ready]

theorem mem_signals_wires :
    ∀ w ∈ bundledWires layout ins outs,
      (w.2, w.1.width) ∈ (bundling inner ins outs layout).signals := by
  have hgroup : ∀ g ∈ ins ++ outs, ∀ direction, ∀ w ∈ groupWires layout direction g,
      (w.2, w.1.width) ∈ (bundling inner ins outs layout).signals := by
    intro g hg direction
    simp only [groupWires, List.forall_mem_cons, List.not_mem_nil, false_imp_iff,
      implies_true, and_true]
    exact ⟨h.mem_signals_bus hg, h.mem_signals_valid hg, h.mem_signals_ready hg⟩
  refine List.forall_mem_append.mpr ⟨List.forall_mem_append.mpr ⟨?_, ?_⟩, ?_⟩
  · simp only [clockPorts, Port.input, List.map_cons, List.map_nil, List.forall_mem_cons,
      List.not_mem_nil, false_imp_iff, implies_true, and_true]
    exact ⟨h.mem_signals_clock (by simp), h.mem_signals_clock (by simp)⟩
  · intro w hw
    obtain ⟨g, hg, hw⟩ := List.mem_flatMap.mp hw
    exact hgroup g (List.mem_append_left _ hg) .input w hw
  · intro w hw
    obtain ⟨g, hg, hw⟩ := List.mem_flatMap.mp hw
    exact hgroup g (List.mem_append_right _ hg) .output w hw

/-- The unit inside of a wrapper fits the buses. -/
theorem balanced (hinner : a.Offers inner (bundledPorts ins outs layout.total)) :
    (bundling inner ins outs layout).Balanced a := by
  have hwidth : ∀ s ∈ (bundling inner ins outs layout).signals,
      (bundling inner ins outs layout).width? s.1 = some s.2 :=
    Module.width?_signals h.distinct_signals
  -- a field is as wide as its part of the bus, for every channel
  have hbus : ∀ g ∈ ins ++ outs, ∀ c < g.channels, ∀ s ∈ layout.slices,
      (busSlice layout g c s).width? (bundling inner ins outs layout).width? =
        some s.width := fun g hg c hc s hs =>
    Expr.width?_select (hwidth _ (h.mem_signals_bus hg)) (Layout.slice_reach h.layout_of hs).1
      (h.reach_bus hc hs)
  have hfield : ∀ g ∈ ins ++ outs, ∀ c < g.channels, ∀ s ∈ layout.slices,
      (fieldSlice g c s).width? (bundling inner ins outs layout).width? =
        some s.width := fun g hg c hc s hs =>
    Expr.width?_select (hwidth _ (h.mem_signals_field hg hs)) (Layout.slice_reach h.layout_of hs).1
      (reach_field hc s)
  have hprocesses : Item.processesOf (bundling inner ins outs layout).items = [] :=
    processesOf_concatBody _ _ _ _
  refine ⟨?_, ?_, ?_, ?_⟩
  · intro x hx
    rcases mem_drives.mp hx with ⟨g, hg, c, hc, s, hs, rfl⟩ | ⟨g, hg, c, hc, s, hs, rfl⟩
    · have hg' : g ∈ ins ++ outs := List.mem_append_left _ hg
      exact ⟨s.width, hbus g hg' c hc s hs, hfield g hg' c hc s hs⟩
    · have hg' : g ∈ ins ++ outs := List.mem_append_right _ hg
      exact ⟨s.width, hfield g hg' c hc s hs, hbus g hg' c hc s hs⟩
  · rw [hprocesses]
    exact fun body hbody => absurd hbody List.not_mem_nil
  · exact fun hne => absurd hprocesses hne
  · rw [h.instancesOf_bundling]
    -- the only instance is the unit, whose ports are those of the buses
    refine List.forall_mem_singleton.mpr (Or.inr ⟨_, hinner, ?_⟩)
    have hports := h.ports_bundledWires
    refine Instance.fits_of_wires (connections_bundling layout inner ins outs) ?_ ?_ ?_
    · rw [← hports, List.map_map]
      exact List.Perm.refl _
    · exact fun w hw => hports ▸ List.mem_map_of_mem hw
    · exact fun w hw => hwidth _ (h.mem_signals_wires w hw)

end Grouped

theorem ports_inner {width : Nat} (h : 0 < width) : Operator.ports width = innerPorts width := by
  simp [innerPorts, Operator.ports, clockPorts, handshakePorts_eq h, Direction.flip, Port.input,
    Port.output]

/-- Operator and delay line fit the signals of the wrapper around them. -/
theorem balanced_wrapper {inner line : String} {width latency : Nat} {extra : ExtraSignals}
    {layout : Layout} {a : Artifact} (hpos : 0 < width) (hne : extra.signals ≠ [])
    (hlayout : Layout.of 0 extra = .ok layout)
    (hcheck : checkPortGroups (operands width extra) (results width extra) extra = .ok ())
    (hinner : a.Offers inner (Operator.ports width))
    (hline : a.Offers line (DelayLine.mk latency layout.total).ports) :
    (wrapper inner line width extra layout).Balanced a := by
  have htotal : layout.total = extra.totalWidth := by rw [Layout.total_of hlayout, Nat.zero_add]
  have hbusPos : 0 < layout.total := htotal ▸ ExtraSignals.totalWidth_pos hne
  have hwidth : ∀ s ∈ (wrapper inner line width extra layout).signals,
      (wrapper inner line width extra layout).width? s.1 = some s.2 :=
    Module.width?_signals
      (Module.distinct_of_declared (distinct_bypassBody inner line layout hcheck))
  have hbits : ∀ name ∈ ["clk", "rst", "lhs_valid", "lhs_ready", "rhs_valid", "rhs_ready",
      "result_valid", "result_ready", "extra_ins_valid"],
      (wrapper inner line width extra layout).width? name = some 1 :=
    fun name hname => hwidth _ (mem_signals_bits hbusPos name hname)
  have hbus : ∀ name ∈ ["extra_ins", "extra_outs"],
      (wrapper inner line width extra layout).width? name = some layout.total := fun name hname =>
    hwidth _ (mem_signals_bus hbusPos name hname)
  -- a slice of a bus is as wide as the extra signal that it holds
  have hslice : ∀ s ∈ layout.slices, ∀ bus ∈ ["extra_ins", "extra_outs"],
      ∀ stem ∈ ["lhs", "rhs", "result"],
      (Expr.select bus layout.total s.lo s.width).width?
        (wrapper inner line width extra layout).width? = some s.width ∧
        (Expr.ident (PortGroup.fieldName ⟨stem, width, extra, none⟩ s.field)).width?
          (wrapper inner line width extra layout).width? = some s.width := by
    intro s hs bus hname stem hstem
    obtain ⟨e, he, hfield, hslice, hslicePos, hreach⟩ := Layout.mem_slices hlayout hs
    refine ⟨Expr.width?_select (hbus bus hname) hslicePos (htotal ▸ hreach), ?_⟩
    rw [hfield, hslice]
    exact hwidth _ (mem_signals_extra hbusPos he stem hstem)
  have hprocesses : Item.processesOf (wrapper inner line width extra layout).items = [] := by
    simp [wrapper, bypassBody, anonymous, Item.processesOf, Item.processes]
  refine ⟨?_, ?_, ?_, ?_⟩
  · rw [drivesOf_wrapper]
    refine List.forall_mem_append.mpr ⟨List.forall_mem_map.mpr fun s hs => ?_,
      List.forall_mem_cons.mpr ⟨?_, List.forall_mem_map.mpr fun s hs => ?_⟩⟩
    · obtain ⟨hsource, htarget⟩ := hslice s hs "extra_ins" (by simp) "lhs" (by simp)
      exact ⟨s.width, hsource, htarget⟩
    · exact ⟨1, hbits _ (by simp), Expr.width?_binary.mpr ⟨hbits _ (by simp), hbits _ (by simp)⟩⟩
    · obtain ⟨hsource, htarget⟩ := hslice s hs "extra_outs" (by simp) "result" (by simp)
      exact ⟨s.width, htarget, hsource⟩
  · rw [hprocesses]
    exact fun body hbody => absurd hbody List.not_mem_nil
  · exact fun hne => absurd hprocesses hne
  · rw [instancesOf_wrapper hpos hbusPos]
    refine List.forall_mem_cons.mpr
      ⟨Or.inr ⟨_, hinner, ?_⟩, List.forall_mem_singleton.mpr (Or.inr ⟨_, hline, ?_⟩)⟩
    · have hwires : (innerInstance inner).connections =
          ((innerPorts width).map fun p => (p, p.name)).map fun w =>
            (w.1.name, some (.ident w.2)) := rfl
      rw [ports_inner hpos]
      refine Instance.fits_of_wires hwires ?_ ?_ ?_
      · rw [List.map_map]
        exact List.Perm.refl _
      · exact List.forall_mem_map.mpr fun p hp => hp
      · exact List.forall_mem_map.mpr fun p hp => hwidth _ (mem_signals_inner hpos hbusPos p hp)
    · have hports : (DelayLine.mk latency layout.total).ports =
          [Port.input 1 "clk", Port.input 1 "rst", Port.input layout.total "ins",
            Port.input 1 "ins_valid", Port.output layout.total "outs", Port.output 1 "outs_valid",
            Port.input 1 "outs_ready"] := by
        simp [DelayLine.ports, clockPorts, ifData, hbusPos]
      rw [hports]
      refine ⟨List.Perm.refl _, ?_⟩
      simp only [List.forall_mem_cons] at hbits hbus
      simp [-Prod.forall, lineInstance, sameName, wire, leaveOpen, Port.input, Port.output,
        Expr.width?, hbits, hbus]

end Manager

/-- Every body of a block is balanced. -/
theorem Body.balanced {a : Artifact} {m : Module} (h : Body a m) : m.Balanced a := by
  cases h with
  | join => exact Join.balanced a _
  | priorityMerge width hpos => exact PriorityMerge.balanced a width hpos
  | readyBreak width => exact ReadyBreak.balanced a width
  | dataBreak width => exact DataBreak.balanced a width
  | delayBuffer slots => exact DelayBuffer.balanced a slots
  | delayLine hlatency hwidth => exact DelayLine.balanced a hlatency hwidth
  | multiplierCore width => exact Multiplier.balanced_core a width
  | merge hinner houtput => exact Merge.balanced hinner houtput
  | multiplier hpos hcore hjoin hdelay houtput =>
      exact Multiplier.balanced hpos hcore hjoin hdelay houtput
  | float op p hexternals hjoin hdelay houtput =>
      exact FloatOperator.balanced op p hexternals hjoin hdelay houtput
  | bundling hgrouped hinner => exact hgrouped.balanced hinner
  | bypassing hpos hne hlayout hcheck hinner hline =>
      exact Manager.balanced_wrapper hpos hne hlayout hcheck hinner hline

/-! ## Artifacts -/

/-- A module of an artifact that a reader of its text can make sense of. -/
structure Module.Elaborates (a : Artifact) (m : Module) : Prop where
  /-- The module and everything that it declares are named by identifiers. -/
  identifiers : ∀ name ∈ m.name :: m.declared, isIdentifier name = true
  /--
  Every name that an expression, a target, a statement or a connection mentions is
  that of a port or a signal.
  -/
  closed : ∀ e ∈ m.exprs, ∀ name ∈ e.names, name ∈ m.signals.map Prod.fst
  /-- So is the clock, if there is a process to wait for it. -/
  clock : Item.processesOf m.items ≠ [] → ("clk", 1) ∈ m.signals
  /--
  Selects stay inside signals of several bits, and conditions are of one bit,
  wherever they occur.
  -/
  sound : ∀ e ∈ m.exprs, ∀ s ∈ e.subterms, s.Sound m.width?
  /-- Both sides of each assign have the same width. -/
  assigns : ∀ x ∈ Item.drivesOf m.items, x.Balanced m.width?
  /-- So do both sides of each nonblocking assignment, and the tests are of one bit. -/
  processes : ∀ body ∈ Item.processesOf m.items, Statement.BalancedAll m.width? body
  /--
  An instance of a block lists each port of the block once, with something of the
  port's width or left open.
  -/
  instances : ∀ i ∈ Item.instancesOf m.items, ∀ b ∈ a.blocks, b.identity = i.moduleName →
    i.Fits m.width? b.content.ports

theorem Module.Balanced.elaborates {a : Artifact} {m : Module} (h : m.Balanced a) (ha : a.Coherent)
    (hidentifiers : ∀ name ∈ m.name :: m.declared, isIdentifier name = true) : m.Elaborates a where
  identifiers := hidentifiers
  closed := by
    intro e he name hname
    obtain ⟨width, hwidth⟩ := h.width_exprs e he
    obtain ⟨total, htotal⟩ := e.declared_of_width hwidth name hname
    exact mem_of_width? htotal
  clock := h.clock
  sound := by
    intro e he
    obtain ⟨width, hwidth⟩ := h.width_exprs e he
    exact e.sound_of_width hwidth
  assigns := h.assigns
  processes := h.processes
  instances := by
    intro i hi b hb hname
    rcases h.instances i hi with ⟨hexternal, -⟩ | ⟨ports, ⟨b', hb', hname', rfl⟩, hfits⟩
    · exact absurd (hname ▸ hexternal) (ha.apart b hb)
    · -- one name has one meaning
      obtain rfl := List.inj_on_of_nodup_map ha.distinct hb' hb (hname'.trans hname.symm)
      exact hfits

/--
**Every generated netlist is closed and agrees in width.** Whatever is asked
for, in every module of the answer: names that are used are declared and are
identifiers, selects stay inside signals of several bits, both sides of
assignments have the same width, conditions are of one bit, and instances of
blocks list each port once with something as wide as the port. All of this is
under the condition that no module declares a name twice.
-/
theorem netlists_elaborate {request : Request} {a : Artifact} (h : generate request = .ok a)
    (hdistinct : a.Distinct) : ∀ b ∈ a.blocks, b.content.Elaborates a := by
  obtain ⟨kind, id, -, hbuilt⟩ := generate_built h
  have hunit := hbuilt.isUnit.wellFormed
  intro b hb
  obtain ⟨m, hbody, hcontent⟩ := hbuilt.known hdistinct b hb
  have hname : isIdentifier b.identity = true := by
    rcases hunit.family b hb with hroot | ⟨roles, hroles, hderived⟩
    · exact hroot ▸ id.isIdentifier_text
    · rw [hderived, ← derived_eq_join id.text hroles]
      exact isIdentifier_derived id.isIdentifier_text roles
  rw [hcontent]
  refine Module.Balanced.elaborates ?_ hunit.toCoherent
    (List.forall_mem_cons.mpr ⟨hname, hbody.identifiers⟩)
  exact ⟨hbody.balanced.assigns, hbody.balanced.processes, hbody.balanced.clock,
    hbody.balanced.instances⟩

/-- A request for a merge of three channels, each wider than a word, with a tag. -/
def Request.wideMerge : Request :=
  ⟨"merge", "u", OrderedMap.empty.insert "size" (.int 3) |>.insert "bitwidth" (.int 200) |>.insert
    "extra_signals"
    (.signals (OrderedMap.empty.insert "tag" 2))⟩

/-- A wrapper around a merge and its two parts, with buses of 606 bits. -/
theorem netlists_elaborate_wide_merge :
    ∃ a, generate .wideMerge = .ok a ∧ a.blocks.length = 4 ∧
      ("ins_inner", 606) ∈ a.blocks.flatMap (·.content.signals) ∧
      ∀ b ∈ a.blocks, b.content.Elaborates a := by
  have hmade : ∃ a ∈ (generate .wideMerge).toOption, (∀ b ∈ a.blocks, b.content.declared.Nodup) ∧
      a.blocks.length = 4 ∧ ("ins_inner", 606) ∈ a.blocks.flatMap (·.content.signals) := by
    decide +kernel
  obtain ⟨a, ha, hdistinct, hlength, hbus⟩ := hmade
  exact ⟨a, eq_ok_of_mem_toOption ha, hlength, hbus,
    netlists_elaborate (eq_ok_of_mem_toOption ha) hdistinct⟩

end Handshake
