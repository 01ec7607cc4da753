import Handshake.Proofs.Gates
import Handshake.Proofs.Leaves

/-!
# Units with a slot

Two modules without submodules keep a token in a register, for a payload of any
width. One stores a token only when the consumer refuses it, and cuts the way of
the ready signal; the other stores every token, and cuts the way of the data.
Both are well formed; what they show in a settled state is said in terms of
their ports, and so is what they hold after a clock edge.

Much of this is about ports that pass a payload on, with any number of channels:
`Lanes` says that channels and payload fit words, and the lemmas that follow it
serve merges as well. The payload may be empty. Then it has no port, no register
and no process, so that statements about it are made for a positive width only,
while those about the handshake are made for all.
-/

namespace Handshake

/-! ## Ports of units that hand tokens on -/

/-- Channels that fit into words, side by side. -/
structure Lanes (size width : Nat) : Prop where
  pos : 0 < size
  size_le : size ≤ wordBits
  data_le : size * width ≤ wordBits

/-- One channel fits a word if all of them do. -/
theorem Lanes.width_le {size width : Nat} (h : Lanes size width) : width ≤ wordBits :=
  Nat.le_trans (Nat.le_mul_of_pos_left width h.pos) h.data_le

/-- One channel is a channel of its own. -/
theorem Lanes.single {size width : Nat} (h : Lanes size width) : Lanes 1 width :=
  ⟨Nat.one_pos, by decide, by rw [Nat.one_mul]; exact h.width_le⟩

theorem Lanes.dataless : Lanes 1 0 := ⟨Nat.one_pos, by decide, Nat.zero_le _⟩

/-- A channel lies inside of its port. -/
theorem Lanes.reach {size c : Nat} (hc : c < size) (width : Nat) :
    c * width + width ≤ size * width := by
  rw [← Nat.succ_mul]
  exact Nat.mul_le_mul_right width hc

section

variable {m : Module} {size width : Nat} (h : m.ports = passThroughPorts size width)
include h

/-- The ports of a unit that passes a payload on, written out. -/
theorem ports_passThrough :
    m.ports = clockPorts ++
      ((if 0 < width then [⟨.input, size * width, "ins"⟩] else []) ++
        [⟨.input, size, "ins_valid"⟩, ⟨.output, size, "ins_ready"⟩]) ++
      ((if 0 < width then [⟨.output, 1 * width, "outs"⟩] else []) ++
        [⟨.output, 1, "outs_valid"⟩, ⟨.input, 1, "outs_ready"⟩]) := by
  rw [h]
  simp [passThroughPorts, handshakePorts, PortGroup.ports, PortGroup.channels, PortGroup.valid,
    PortGroup.ready, ExtraSignals.empty, Direction.flip]

/-- Reset and handshakes are signals, with a bit for each channel. -/
theorem mem_signals_handshake :
    ("rst", 1) ∈ m.signals ∧ ("ins_valid", size) ∈ m.signals ∧ ("ins_ready", size) ∈ m.signals ∧
      ("outs_valid", 1) ∈ m.signals ∧ ("outs_ready", 1) ∈ m.signals := by
  rw [Module.signals, ports_passThrough h]
  simp [clockPorts, Port.input]

/-- A payload has a port on each side. -/
theorem mem_signals_payload (hw : 0 < width) :
    ("ins", size * width) ∈ m.signals ∧ ("outs", width) ∈ m.signals := by
  rw [Module.signals, ports_passThrough h]
  simp [hw]

/-- Ready to the producer and valid to the consumer are for the unit to drive. -/
theorem drivable_handshake : ∀ name ∈ ["ins_ready", "outs_valid"], name ∈ m.drivable := by
  rw [Module.drivable, ports_passThrough h]
  simp [clockPorts, Port.input]

theorem drivable_payload (hw : 0 < width) : "outs" ∈ m.drivable := by
  rw [Module.drivable, ports_passThrough h]
  simp [hw]

theorem ports_le (hl : Lanes size width) : ∀ p ∈ m.ports, p.width ≤ wordBits := by
  have hone : 1 ≤ wordBits := by decide
  rw [ports_passThrough h]
  by_cases hw : 0 < width
  · simp [hw, clockPorts, Port.input, hone, hl.size_le, hl.data_le, hl.width_le]
  · simp [hw, clockPorts, Port.input, hone, hl.size_le]

end

/-! ## Modules of one channel with a slot -/

namespace Module

variable {m : Module}

/--
A module of one channel with a slot: one register says whether the slot is full,
and one holds the payload.
-/
theorem WellFormed.of_slot {width : Nat} {flag : String} {ready valid outs : Expr}
    {flagged stored : List Statement} (h : Lanes 1 width)
    (hports : m.ports = passThroughPorts 1 width) (hdistinct : (m.signals.map Prod.fst).Nodup)
    (hdecls : Item.declsOf m.items = [Decl.reg 1 flag] ++ ifData width [Decl.reg width "data_reg"])
    (hassigns : m.circuit.assigns = [⟨.ident "ins_ready", ready⟩, ⟨.ident "outs_valid", valid⟩] ++
      ifData width [⟨.ident "outs", outs⟩])
    (hprocesses : m.circuit.processes = [flagged] ++ ifData width [stored])
    (hready : ready.Typed m.circuit.widths) (hvalid : valid.Typed m.circuit.widths)
    (houts : 0 < width → outs.Typed m.circuit.widths)
    (hflagged : Statement.TypedAll m.circuit.widths flagged)
    (hstored : 0 < width → Statement.TypedAll m.circuit.widths stored)
    (hflag : ∀ name ∈ Statement.assignedAll flagged, name = flag)
    (hdata : ∀ name ∈ Statement.assignedAll stored, name = "data_reg") : m.WellFormed := by
  obtain ⟨-, -, hinsReady, houtsValid, -⟩ := mem_signals_handshake hports
  have hstorage : m.storage = [flag] ++ ifData width ["data_reg"] := by
    rw [storage, hdecls]
    by_cases hw : 0 < width <;> simp [Decl.reg, ifData, hw]
  -- flag and payload are registers with distinct names
  have hne : 0 < width → flag ≠ "data_reg" := by
    intro hw
    rw [map_fst_signals, hdecls, ifData, if_pos hw] at hdistinct
    have hregs := (List.nodup_append.mp hdistinct).2.1
    simp only [Decl.reg, List.cons_append, List.nil_append, List.map_cons, List.map_nil,
      List.nodup_cons, List.mem_singleton, List.not_mem_nil, not_false_eq_true, List.nodup_nil,
      and_true] at hregs
    exact hregs
  have hdriven : m.circuit.driven = (["ins_ready", "outs_valid"] ++ ifData width ["outs"]).map
      fun name =>
      ⟨name, 0, m.circuit.widths.width name⟩ := by
    rw [Circuit.driven, hassigns]
    by_cases hw : 0 < width <;> simp [ifData, hw, Expr.regions]
  -- without data, only the flag and the handshakes are there
  refine .of_leaf hdistinct ?_ ?_ ?_ ?_ ?_ ?_ ?_ ?_
  · intro s hs
    rcases List.mem_append.mp hs with hs | hs
    · obtain ⟨p, hp, rfl⟩ := List.mem_map.mp hs
      exact ports_le hports h p hp
    · rw [hdecls, List.map_append, List.mem_append] at hs
      rcases hs with hs | hs
      · rw [List.mem_singleton.mp hs]
        exact (by decide : 1 ≤ wordBits)
      · obtain ⟨d, hd, rfl⟩ := List.mem_map.mp hs
        rw [List.mem_singleton.mp (mem_ifData hd)]
        exact h.width_le
  · rw [hassigns]
    refine List.forall_mem_append.mpr
      ⟨?_, forall_mem_ifData.mpr fun hw => List.forall_mem_singleton.mpr (houts hw)⟩
    exact List.forall_mem_cons.mpr ⟨hready, List.forall_mem_singleton.mpr hvalid⟩
  · rw [hassigns]
    refine List.forall_mem_append.mpr
      ⟨?_, forall_mem_ifData.mpr fun hw => List.forall_mem_singleton.mpr ?_⟩
    · exact List.forall_mem_cons.mpr
        ⟨declares_of_mem hinsReady, List.forall_mem_singleton.mpr (declares_of_mem houtsValid)⟩
    · exact declares_of_mem (mem_signals_payload hports hw).2
  · rw [hassigns]
    refine List.forall_mem_append.mpr
      ⟨?_, forall_mem_ifData.mpr fun hw => List.forall_mem_singleton.mpr ?_⟩
    · simpa [Expr.reads] using drivable_handshake hports
    · exact List.forall_mem_singleton.mpr (drivable_payload hports hw)
  · rw [hdriven]
    refine Region.apart_of_nodup ?_ _
    by_cases hw : 0 < width <;> simp [ifData, hw]
  · rw [hprocesses]
    exact List.forall_mem_append.mpr ⟨List.forall_mem_singleton.mpr hflagged,
      forall_mem_ifData.mpr fun hw => List.forall_mem_singleton.mpr (hstored hw)⟩
  · rw [hprocesses, hstorage]
    refine List.forall_mem_append.mpr ⟨List.forall_mem_singleton.mpr fun name hname => ?_,
      forall_mem_ifData.mpr fun hw => List.forall_mem_singleton.mpr fun name hname => ?_⟩
    · rw [hflag name hname]
      exact List.mem_cons_self
    · rw [hdata name hname, ifData, if_pos hw]
      exact List.mem_cons_of_mem _ List.mem_cons_self
  · rw [hprocesses]
    by_cases hw : 0 < width
    · rw [ifData, if_pos hw]
      refine List.pairwise_pair.mpr fun name hname hname' => hne hw ?_
      rw [← hflag name hname, ← hdata name hname']
    · rw [ifData, if_neg hw]
      exact List.pairwise_singleton _ _

/-- The register of the payload takes the input over whenever a condition holds. -/
theorem WellFormed.next_loaded {width : Nat} {test : Expr} {taken : Bool} {x : State}
    (h : m.WellFormed)
    (hp : [Statement.branch test [.nonblocking (.ident "data_reg") (.ident "ins")] []] ∈
      m.circuit.processes)
    (hreg : ("data_reg", width) ∈ m.signals) (hins : ("ins", width) ∈ m.signals)
    (hfits : m.circuit.widths.Fits x)
    (htest : test.value m.circuit.widths.width x = 0 ↔ taken = false) :
    "data_reg" ∈ m.circuit.registers ∧ m.circuit.next x "data_reg" =
      if taken then x "ins" else x "data_reg" := by
  have hmem : "data_reg" ∈
      Statement.assignedAll [.branch test [.nonblocking (.ident "data_reg") (.ident "ins")] []] :=
    List.mem_singleton_self _
  refine ⟨List.mem_flatMap.mpr ⟨_, hp, hmem⟩, ?_⟩
  rw [Circuit.next, Statement.nextAll_flatten h.clocked.exclusive hp hmem]
  simp only [Statement.nextAll, Statement.next, Expr.value, if_pos, htest, width_eq h.distinct hreg]
  cases taken with
  | false => rfl
  | true => exact low_of_fits h.distinct hfits hins

end Module

/-! ## The slot for a token that is refused -/

namespace ReadyBreak

variable {width : Nat}

/-- The ready path is cut: what is ready depends on the slot alone. -/
theorem assigns_body (width : Nat) :
    (body width).circuit.assigns =
      [⟨.ident "ins_ready", .not (.ident "full")⟩,
        ⟨.ident "outs_valid", Expr.or "ins_valid" "full"⟩] ++
        ifData width
          [⟨.ident "outs", .cond (.ident "full") (.ident "data_reg") (.ident "ins")⟩] := by
  by_cases hw : 0 < width <;>
    simp [body, anonymous, Module.circuit, Item.drivesOf, Item.drives, fullProcess, dataProcess,
      Item.clocked, assigns, drive, ifData, hw, Expr.complement, Expr.isPrimary]

/-- The slot becomes full by a refusal, and takes over the payload while it is empty. -/
theorem processes_body (width : Nat) :
    (body width).circuit.processes =
      [[.branch (.ident "rst") [.nonblocking (.ident "full") (.bit false)]
        [.nonblocking (.ident "full") (Expr.and "outs_valid" (Expr.complement "outs_ready"))]]] ++
        ifData width [[.branch (.ident "ins_ready")
          [.nonblocking (.ident "data_reg") (.ident "ins")] []]] := by
  by_cases hw : 0 < width <;>
    simp [body, anonymous, Module.circuit, Item.processesOf, Item.processes, fullProcess,
      dataProcess, Item.clocked, ifData, hw]

theorem declsOf_body (width : Nat) : Item.declsOf (body width).items = decls width := by
  by_cases hw : 0 < width <;>
    simp [body, anonymous, Item.declsOf, Item.decls, fullProcess, dataProcess, Item.clocked,
      ifData, hw]

theorem mem_signals_full (width : Nat) : ("full", 1) ∈ (body width).signals := by
  rw [Module.signals, declsOf_body]
  simp [decls, Decl.reg]

theorem mem_signals_data (hw : 0 < width) : ("data_reg", width) ∈ (body width).signals := by
  rw [Module.signals, declsOf_body]
  simp [decls, Decl.reg, ifData, hw]

theorem assigned_data :
    Statement.assignedAll
      [.branch (.ident "ins_ready") [.nonblocking (.ident "data_reg") (.ident "ins")] []] =
      ["data_reg"] :=
  rfl

theorem assigned_full :
    Statement.assignedAll [.branch (.ident "rst") [.nonblocking (.ident "full") (.bit false)]
      [.nonblocking (.ident "full") (Expr.and "outs_valid" (Expr.complement "outs_ready"))]] =
        ["full", "full"] :=
  rfl

theorem mem_registers_full (width : Nat) : "full" ∈ (body width).circuit.registers := by
  rw [Circuit.registers, processes_body, List.flatMap_append]
  refine List.mem_append_left _ ?_
  rw [List.flatMap_singleton, assigned_full]
  exact List.mem_cons_self

/-- The slot that cuts the ready path is well formed. -/
theorem wellFormed_body (h : Lanes 1 width) : (body width).WellFormed := by
  have hports : (body width).ports = passThroughPorts 1 width := rfl
  obtain ⟨hrst, hinsValid, hinsReady, houtsValid, houtsReady⟩ := mem_signals_handshake hports
  have hfull := Module.declares_of_mem (mem_signals_full width)
  have hreg : 0 < width → (body width).circuit.widths.Declares "data_reg" := fun hw =>
    Module.declares_of_mem (mem_signals_data hw)
  have hins : 0 < width → (body width).circuit.widths.Declares "ins" := fun hw =>
    Module.declares_of_mem (mem_signals_payload hports hw).1
  have hnext : (Expr.and "outs_valid" (Expr.complement "outs_ready")).Typed
      (body width).circuit.widths :=
    Expr.typed_apply (show (Expr.ident "outs_valid").Typed _ from Module.declares_of_mem houtsValid)
      (Expr.typed_complement
        (show (Expr.ident "outs_ready").Typed _ from Module.declares_of_mem houtsReady))
  refine .of_slot h hports (Module.distinct_of_declared (distinct_readyBreak width))
    (declsOf_body width)
    (assigns_body width) (processes_body width) hfull ?_ (fun hw => ⟨hfull, hreg hw, hins hw⟩) ?_
      (fun hw => ?_) ?_ ?_
  · exact Expr.typed_apply
      (show (Expr.ident "ins_valid").Typed _ from Module.declares_of_mem hinsValid) hfull
  · exact ⟨⟨Module.declares_of_mem hrst, ⟨⟨⟨"full", rfl, hfull⟩, Expr.typed_bit _ false⟩, trivial⟩,
      ⟨⟨"full", rfl, hfull⟩, hnext⟩, trivial⟩, trivial⟩
  · exact ⟨⟨Module.declares_of_mem hinsReady, ⟨⟨⟨"data_reg", rfl, hreg hw⟩, hins hw⟩, trivial⟩,
      trivial⟩, trivial⟩
  · rw [assigned_full]
    simp
  · rw [assigned_data]
    simp

section

variable (h : Lanes 1 width) {x : State} (hfits : (body width).circuit.widths.Fits x)
include h hfits

/-- The input is ready while the slot is empty; a stored token is offered before a new one. -/
theorem settled_body (hx : (body width).circuit.Settled x) :
    high x "ins_ready" = !high x "full" ∧
      high x "outs_valid" = (high x "ins_valid" || high x "full") ∧
      (0 < width → x "outs" = if high x "full" then x "data_reg" else x "ins") := by
  have hdistinct := (wellFormed_body h).distinct
  have hports : (body width).ports = passThroughPorts 1 width := rfl
  obtain ⟨-, hinsValid, hinsReady, houtsValid, -⟩ := mem_signals_handshake hports
  have hfull : (Expr.ident "full").size (body width).circuit.widths.width = 1 :=
    Module.width_eq hdistinct (mem_signals_full width)
  have hvalid : (Expr.ident "ins_valid").size (body width).circuit.widths.width = 1 :=
    Module.width_eq hdistinct hinsValid
  unfold Circuit.Settled at hx
  rw [assigns_body] at hx
  obtain ⟨hbits, houts⟩ := List.forall_mem_append.mp hx
  simp only [List.forall_mem_cons, List.not_mem_nil, false_imp_iff, implies_true, and_true] at hbits
  obtain ⟨hready, hor⟩ := hbits
  refine ⟨?_, ?_, fun hw => ?_⟩
  · have hbit := hready.1 0 (by rw [Module.width_eq hdistinct hinsReady]; exact Nat.one_pos)
    exact hbit.trans (Expr.truth_complement (e := .ident "full") hfull)
  · have hbit := hor.1 0 (by rw [Module.width_eq hdistinct houtsValid]; exact Nat.one_pos)
    exact hbit.trans (Expr.truth_or hvalid hfull)
  · have houts := List.forall_mem_singleton.mp (forall_mem_ifData.mp houts hw)
    obtain ⟨hmemIns, hmemOuts⟩ := mem_signals_payload hports hw
    rw [Nat.one_mul] at hmemIns
    have hwhole := Spread.whole houts
    have hempty :=
      eq_zero_iff_not_high hfits (Module.declares_of_mem (mem_signals_full width)) hfull
    rw [Module.width_eq hdistinct hmemOuts, Module.low_of_fits hdistinct hfits hmemOuts] at hwhole
    rw [hwhole]
    simp only [Expr.value, hempty]
    cases high x "full" with
    | false => exact Module.low_of_fits hdistinct hfits hmemIns
    | true => exact Module.low_of_fits hdistinct hfits (mem_signals_data hw)

/-- The slot is full after a token was offered and refused. -/
theorem next_full :
    high ((body width).circuit.next x) "full" =
      if high x "rst" then false else high x "outs_valid" && !high x "outs_ready" := by
  have hwf := wellFormed_body h
  have hports : (body width).ports = passThroughPorts 1 width := rfl
  obtain ⟨hrst, -, -, houtsValid, houtsReady⟩ := mem_signals_handshake hports
  have hvalid : (Expr.ident "outs_valid").size (body width).circuit.widths.width = 1 :=
    Module.width_eq hwf.distinct houtsValid
  have hready : (Expr.ident "outs_ready").size (body width).circuit.widths.width = 1 :=
    Module.width_eq hwf.distinct houtsReady
  have hp : [Statement.branch (.ident "rst") [.nonblocking (.ident "full") (.bit false)]
      [.nonblocking (.ident "full") (Expr.and "outs_valid" (Expr.complement "outs_ready"))]] ∈
        (body width).circuit.processes := by
    rw [processes_body]
    exact List.mem_append_left _ (List.mem_singleton_self _)
  have hmem : "full" ∈
      Statement.assignedAll [.branch (.ident "rst") [.nonblocking (.ident "full") (.bit false)]
      [.nonblocking (.ident "full") (Expr.and "outs_valid" (Expr.complement "outs_ready"))]] := by
    rw [assigned_full]
    exact List.mem_cons_self
  have hreset :=
    eq_zero_iff_not_high hfits (Module.declares_of_mem hrst) (Module.width_eq hwf.distinct hrst)
  have hrefused : ((Expr.and "outs_valid" (Expr.complement "outs_ready")).value
      (body width).circuit.widths.width
      x).getLsbD 0 = (high x "outs_valid" && !high x "outs_ready") := by
    have htruth := Expr.truth_and (x := x) hvalid ((Expr.size_complement _).trans hready)
    rw [Expr.truth_complement hready] at htruth
    exact htruth
  rw [high, Circuit.next, Statement.nextAll_flatten hwf.clocked.exclusive hp hmem]
  simp only [Statement.nextAll, Statement.next, Expr.value, if_pos, hreset,
    Module.width_eq hwf.distinct (mem_signals_full width)]
  cases high x "rst" with
  | false => simp [Word.getLsbD_low, hrefused]
  | true => simp [Word.getLsbD_low]

/--
The slot takes over what was shown at the output: a new token while it was
empty, what it held otherwise.
-/
theorem next_data (hx : (body width).circuit.Settled x) (hw : 0 < width) :
    "data_reg" ∈ (body width).circuit.registers ∧
      (body width).circuit.next x "data_reg" = x "outs" := by
  have hwf := wellFormed_body h
  obtain ⟨hempty, -, houts⟩ := settled_body h hfits hx
  have hports : (body width).ports = passThroughPorts 1 width := rfl
  have hinsReady := (mem_signals_handshake hports).2.2.1
  have hins := (mem_signals_payload hports hw).1
  rw [Nat.one_mul] at hins
  have hp : [Statement.branch (.ident "ins_ready")
      [.nonblocking (.ident "data_reg") (.ident "ins")] []] ∈ (body width).circuit.processes := by
    rw [processes_body, ifData, if_pos hw]
    exact List.mem_append_right _ (List.mem_singleton_self _)
  obtain ⟨hregister, hnext⟩ := hwf.next_loaded hp (mem_signals_data hw) hins hfits
    (eq_zero_iff_not_high hfits (Module.declares_of_mem hinsReady)
      (Module.width_eq hwf.distinct hinsReady))
  refine ⟨hregister, ?_⟩
  rw [hnext, houts hw, hempty]
  cases high x "full" <;> rfl

end

end ReadyBreak

/-! ## The slot for every token -/

namespace DataBreak

variable {width : Nat} {x : State}

/-- The data path is cut: what is offered comes from registers alone. -/
theorem assigns_body (width : Nat) :
    (body width).circuit.assigns =
      [⟨.ident "ins_ready", Expr.or (Expr.complement "valid_reg") "outs_ready"⟩,
        ⟨.ident "outs_valid", "valid_reg"⟩] ++
        ifData width [⟨.ident "outs", .ident "data_reg"⟩] := by
  by_cases hw : 0 < width <;>
    simp [body, anonymous, Module.circuit, Item.drivesOf, Item.drives, validProcess, dataProcess,
      Item.clocked, assigns, drive, ifData, hw]

theorem processes_body (width : Nat) :
    (body width).circuit.processes =
      [[.branch (.ident "rst") [.nonblocking (.ident "valid_reg") (.bit false)]
        [.branch (.ident "ins_ready")
          [.nonblocking (.ident "valid_reg") (.ident "ins_valid")] []]]] ++
        ifData width [[.branch (Expr.and "ins_ready" "ins_valid")
          [.nonblocking (.ident "data_reg") (.ident "ins")] []]] := by
  by_cases hw : 0 < width <;>
    simp [body, anonymous, Module.circuit, Item.processesOf, Item.processes, validProcess,
      dataProcess, Item.clocked, ifData, hw]

theorem declsOf_body (width : Nat) : Item.declsOf (body width).items = decls width := by
  by_cases hw : 0 < width <;>
    simp [body, anonymous, Item.declsOf, Item.decls, validProcess, dataProcess, Item.clocked,
      ifData, hw]

theorem mem_signals_valid (width : Nat) : ("valid_reg", 1) ∈ (body width).signals := by
  rw [Module.signals, declsOf_body]
  simp [decls, Decl.reg]

theorem mem_signals_data (hw : 0 < width) : ("data_reg", width) ∈ (body width).signals := by
  rw [Module.signals, declsOf_body]
  simp [decls, Decl.reg, ifData, hw]

/-- The slot that cuts the data path is well formed. -/
theorem wellFormed_body (h : Lanes 1 width) : (body width).WellFormed := by
  have hports : (body width).ports = passThroughPorts 1 width := rfl
  obtain ⟨hrst, hinsValid, hinsReady, -, houtsReady⟩ := mem_signals_handshake hports
  have hvalid := Module.declares_of_mem (mem_signals_valid width)
  have hready := Module.declares_of_mem hinsReady
  have hdata : 0 < width → (body width).circuit.widths.Declares "data_reg" := fun hw =>
    Module.declares_of_mem (mem_signals_data hw)
  have hins : 0 < width → (body width).circuit.widths.Declares "ins" := fun hw =>
    Module.declares_of_mem (mem_signals_payload hports hw).1
  refine .of_slot h hports (Module.distinct_of_declared (distinct_dataBreak width))
    (declsOf_body width)
    (assigns_body width) (processes_body width) ?_ hvalid hdata ?_ (fun hw => ?_) ?_ ?_
  · exact Expr.typed_apply
      (Expr.typed_complement (show (Expr.ident "valid_reg").Typed _ from hvalid))
      (show (Expr.ident "outs_ready").Typed _ from Module.declares_of_mem houtsReady)
  · exact ⟨⟨Module.declares_of_mem hrst,
      ⟨⟨⟨"valid_reg", rfl, hvalid⟩, Expr.typed_bit _ false⟩, trivial⟩,
      ⟨hready, ⟨⟨⟨"valid_reg", rfl, hvalid⟩, Module.declares_of_mem hinsValid⟩, trivial⟩, trivial⟩,
      trivial⟩, trivial⟩
  · exact ⟨⟨Expr.typed_apply (show (Expr.ident "ins_ready").Typed _ from hready)
      (show (Expr.ident "ins_valid").Typed _ from Module.declares_of_mem hinsValid),
      ⟨⟨⟨"data_reg", rfl, hdata hw⟩, hins hw⟩, trivial⟩, trivial⟩, trivial⟩
  · simp [Statement.assignedAll, Statement.assigned, Expr.reads]
  · simp [Statement.assignedAll, Statement.assigned, Expr.reads]

/-- Its outputs depend on registers and on the consumer, and on no other output. -/
theorem acyclic_body (width : Nat) :
    (body width).circuit.Acyclic fun name =>
      if name ∈ ["ins_ready", "outs_valid", "outs"] then 1 else 0 := by
  refine Circuit.acyclic_of_outputs ?_ ?_
  · rw [assigns_body]
    refine List.forall_mem_append.mpr ⟨by decide, fun a ha => ?_⟩
    rw [List.mem_singleton.mp (mem_ifData ha)]
    decide
  · rw [assigns_body]
    refine List.forall_mem_append.mpr ⟨by decide, fun a ha => ?_⟩
    rw [List.mem_singleton.mp (mem_ifData ha)]
    decide

/--
The input is ready while the slot is empty or is being emptied, and the output
is valid while it is full.
-/
theorem settled_body (h : Lanes 1 width) (hx : (body width).circuit.Settled x) :
    high x "ins_ready" = (!high x "valid_reg" || high x "outs_ready") ∧
      high x "outs_valid" = high x "valid_reg" := by
  have hdistinct := (wellFormed_body h).distinct
  have hports : (body width).ports = passThroughPorts 1 width := rfl
  obtain ⟨-, -, hinsReady, houtsValid, houtsReady⟩ := mem_signals_handshake hports
  have hreg : (Expr.ident "valid_reg").size (body width).circuit.widths.width = 1 :=
    Module.width_eq hdistinct (mem_signals_valid width)
  have hready : (Expr.ident "outs_ready").size (body width).circuit.widths.width = 1 :=
    Module.width_eq hdistinct houtsReady
  unfold Circuit.Settled at hx
  rw [assigns_body] at hx
  have hbits := (List.forall_mem_append.mp hx).1
  simp only [List.forall_mem_cons, List.not_mem_nil, false_imp_iff, implies_true, and_true] at hbits
  obtain ⟨hor, hvalid⟩ := hbits
  refine ⟨?_, ?_⟩
  · have hbit := hor.1 0 (by rw [Module.width_eq hdistinct hinsReady]; exact Nat.one_pos)
    refine hbit.trans ((Expr.truth_or ((Expr.size_complement _).trans hreg) hready).trans ?_)
    rw [Expr.truth_complement hreg]
    rfl
  · exact hvalid.1 0 (by rw [Module.width_eq hdistinct houtsValid]; exact Nat.one_pos)

/-- The payload that is offered is the one that is stored. -/
theorem settled_outs (h : Lanes 1 width) (hx : (body width).circuit.Settled x)
    (hfits : (body width).circuit.widths.Fits x) (hw : 0 < width) : x "outs" = x "data_reg" := by
  have hdistinct := (wellFormed_body h).distinct
  have hports : (body width).ports = passThroughPorts 1 width := rfl
  have hmemOuts := (mem_signals_payload hports hw).2
  unfold Circuit.Settled at hx
  rw [assigns_body] at hx
  have houts :=
    List.forall_mem_singleton.mp (forall_mem_ifData.mp (List.forall_mem_append.mp hx).2 hw)
  have hwhole := Spread.whole houts
  rw [Module.width_eq hdistinct hmemOuts, Module.low_of_fits hdistinct hfits hmemOuts] at hwhole
  exact hwhole.trans (Module.low_of_fits hdistinct hfits (mem_signals_data hw))

/-- **The slot takes over the valid bit of the input when it is ready,** and a reset empties it. -/
theorem next_valid (h : Lanes 1 width) (hfits : (body width).circuit.widths.Fits x) :
    "valid_reg" ∈ (body width).circuit.registers ∧ high ((body width).circuit.next x) "valid_reg" =
      if high x "rst" then false
      else if high x "ins_ready" then high x "ins_valid" else high x "valid_reg" := by
  have hwf := wellFormed_body h
  have hports : (body width).ports = passThroughPorts 1 width := rfl
  obtain ⟨hrst, -, hinsReady, -, -⟩ := mem_signals_handshake hports
  have hp : [Statement.branch (.ident "rst") [.nonblocking (.ident "valid_reg") (.bit false)]
      [.branch (.ident "ins_ready") [.nonblocking (.ident "valid_reg") (.ident "ins_valid")] []]] ∈
        (body width).circuit.processes := by
    rw [processes_body]
    exact List.mem_append_left _ (List.mem_singleton_self _)
  have hmem : "valid_reg" ∈ Statement.assignedAll
      [.branch (.ident "rst") [.nonblocking (.ident "valid_reg") (.bit false)]
        [.branch (.ident "ins_ready")
          [.nonblocking (.ident "valid_reg") (.ident "ins_valid")] []]] := by
    simp [Statement.assignedAll, Statement.assigned, Expr.reads]
  have hreset :=
    eq_zero_iff_not_high hfits (Module.declares_of_mem hrst) (Module.width_eq hwf.distinct hrst)
  have hready := eq_zero_iff_not_high hfits (Module.declares_of_mem hinsReady)
    (Module.width_eq hwf.distinct hinsReady)
  refine ⟨List.mem_flatMap.mpr ⟨_, hp, hmem⟩, ?_⟩
  rw [high, Circuit.next, Statement.nextAll_flatten hwf.clocked.exclusive hp hmem]
  simp only [Statement.nextAll, Statement.next, Expr.value, if_pos, hreset, hready,
    Module.width_eq hwf.distinct (mem_signals_valid width)]
  cases high x "rst" <;> cases high x "ins_ready" <;> simp [Word.getLsbD_low, high]

/-- The payload is taken over with each token. -/
theorem next_data (h : Lanes 1 width) (hfits : (body width).circuit.widths.Fits x)
    (hw : 0 < width) :
    "data_reg" ∈ (body width).circuit.registers ∧ (body width).circuit.next x "data_reg" =
      if high x "ins_ready" && high x "ins_valid" then x "ins" else x "data_reg" := by
  have hwf := wellFormed_body h
  have hports : (body width).ports = passThroughPorts 1 width := rfl
  obtain ⟨-, hinsValid, hinsReady, -, -⟩ := mem_signals_handshake hports
  have hins := (mem_signals_payload hports hw).1
  rw [Nat.one_mul] at hins
  have hp : [Statement.branch (Expr.and "ins_ready" "ins_valid")
      [.nonblocking (.ident "data_reg") (.ident "ins")] []] ∈ (body width).circuit.processes := by
    rw [processes_body, ifData, if_pos hw]
    exact List.mem_append_right _ (List.mem_singleton_self _)
  have hready : (Expr.ident "ins_ready").size (body width).circuit.widths.width = 1 :=
    Module.width_eq hwf.distinct hinsReady
  have hvalid : (Expr.ident "ins_valid").size (body width).circuit.widths.width = 1 :=
    Module.width_eq hwf.distinct hinsValid
  exact hwf.next_loaded hp (mem_signals_data hw) hins hfits (Expr.and_eq_zero_iff hready hvalid)

end DataBreak

end Handshake
