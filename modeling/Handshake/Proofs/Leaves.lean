import Handshake.Proofs.Composition
import Handshake.Proofs.Declarations
import Handshake.Proofs.Registers

/-!
# Modules without submodules

What makes a module without submodules well formed, and those among them that
are chains of registers: the delay of a valid bit, the delay line of extra
signals, and the core of the multiplier. Each of these is well formed, and for
each there is a lemma about its settled states and one about its clock edges, in
terms of its ports and registers.

A leaf is well formed for reasons that have little to do with what it does: its
names are distinct, assigns drive outputs and nets, and processes write
registers. `WellFormed.of_leaf` asks for just that. Then the three chains follow
one pattern: list the signals, the assigns and the processes; read off the
output in a settled state (`settled_body`); and say what each register holds
after an edge (`next_body`, `next_valid`, `next_data`), which is its predecessor
in the chain if the chain moves and itself otherwise.
-/

namespace Handshake

/-! ## Well-formed leaves -/

namespace Module

/-- What a module may drive with assigns: its outputs and its nets. -/
def drivable (m : Module) : List String :=
  (m.ports.filter fun p => p.direction = .output).map Port.name ++
    ((Item.declsOf m.items).filter fun d => d.storage = .net).map Decl.name

/-- What a module may assign in processes: its declared registers. -/
def storage (m : Module) : List String :=
  ((Item.declsOf m.items).filter fun d => d.storage = .reg).map Decl.name

/-- Distinct names of all that is declared include distinct names of signals. -/
theorem distinct_of_declared {m : Module} (h : m.declared.Nodup) :
    (m.signals.map Prod.fst).Nodup := by
  rw [map_fst_signals]
  exact (List.nodup_append.mp h).1

variable {m : Module}

/-- An assign cannot drive an input. -/
theorem input_ne_drivable (h : (m.signals.map Prod.fst).Nodup) {a b : String} (ha : a ∈ m.inputs)
    (hb : b ∈ m.drivable) : b ≠ a := by
  rw [map_fst_signals, List.nodup_append] at h
  obtain ⟨hports, -, hcross⟩ := h
  obtain ⟨p, hp, rfl⟩ := List.mem_map.mp ha
  rcases List.mem_append.mp hb with hb | hb
  · obtain ⟨q, hq, rfl⟩ := List.mem_map.mp hb
    intro heq
    have hsame :=
      List.inj_on_of_nodup_map hports (List.mem_filter.mp hq).1 (List.mem_filter.mp hp).1 heq
    have hin := (List.mem_filter.mp hp).2
    have hout := (List.mem_filter.mp hq).2
    simp_all
  · obtain ⟨d, hd, rfl⟩ := List.mem_map.mp hb
    exact (hcross _ (List.mem_map_of_mem (List.mem_filter.mp hp).1) _
      (List.mem_map_of_mem (List.mem_filter.mp hd).1)).symm

/-- A process cannot write an input. -/
theorem input_ne_storage (h : (m.signals.map Prod.fst).Nodup) {a b : String} (ha : a ∈ m.inputs)
    (hb : b ∈ m.storage) : b ≠ a := by
  rw [map_fst_signals, List.nodup_append] at h
  obtain ⟨p, hp, rfl⟩ := List.mem_map.mp ha
  obtain ⟨d, hd, rfl⟩ := List.mem_map.mp hb
  exact (h.2.2 _ (List.mem_map_of_mem (List.mem_filter.mp hp).1) _
    (List.mem_map_of_mem (List.mem_filter.mp hd).1)).symm

/-- No signal is both driven by an assign and written by a process. -/
theorem drivable_ne_storage (h : (m.signals.map Prod.fst).Nodup) {a b : String}
    (ha : a ∈ m.drivable) (hb : b ∈ m.storage) : a ≠ b := by
  rw [map_fst_signals, List.nodup_append] at h
  obtain ⟨-, hdecls, hcross⟩ := h
  obtain ⟨d, hd, rfl⟩ := List.mem_map.mp hb
  rcases List.mem_append.mp ha with ha | ha
  · obtain ⟨p, hp, rfl⟩ := List.mem_map.mp ha
    exact hcross _ (List.mem_map_of_mem (List.mem_filter.mp hp).1) _
      (List.mem_map_of_mem (List.mem_filter.mp hd).1)
  · obtain ⟨e, he, rfl⟩ := List.mem_map.mp ha
    intro heq
    have hsame :=
      List.inj_on_of_nodup_map hdecls (List.mem_filter.mp he).1 (List.mem_filter.mp hd).1 heq
    have hreg := (List.mem_filter.mp hd).2
    have hnet := (List.mem_filter.mp he).2
    simp_all

/-- Outputs and nets are named once. -/
theorem nodup_drivable (h : (m.signals.map Prod.fst).Nodup) : m.drivable.Nodup := by
  rw [map_fst_signals] at h
  refine h.sublist (List.Sublist.append ?_ ?_)
  · exact List.filter_sublist.map Port.name
  · exact List.filter_sublist.map Decl.name

/--
A module is well formed if its assigns drive outputs and nets, and its processes
assign registers.
-/
theorem WellFormed.of_leaf (hdistinct : (m.signals.map Prod.fst).Nodup)
    (hbounded : ∀ s ∈ m.signals, s.2 ≤ wordBits)
    (hvalues : ∀ a ∈ m.circuit.assigns, a.value.Typed m.circuit.widths)
    (htargets : ∀ a ∈ m.circuit.assigns, a.target.IsTarget m.circuit.widths)
    (hdrives : ∀ a ∈ m.circuit.assigns, ∀ name ∈ a.target.reads, name ∈ m.drivable)
    (hapart : m.circuit.driven.Pairwise Region.Apart)
    (hstatements : ∀ p ∈ m.circuit.processes, Statement.TypedAll m.circuit.widths p)
    (hassigns : ∀ p ∈ m.circuit.processes, ∀ name ∈ Statement.assignedAll p, name ∈ m.storage)
    (hexclusive : m.circuit.processes.Pairwise fun p q =>
      ∀ name ∈ Statement.assignedAll p, name ∉ Statement.assignedAll q) : m.WellFormed := by
  have hdriven : ∀ r ∈ m.circuit.driven, r.name ∈ m.drivable := by
    intro r hr
    obtain ⟨a, ha, hr⟩ := List.mem_flatMap.mp hr
    exact hdrives a ha r.name (Expr.mem_reads_of_region r hr)
  have hregister : ∀ name ∈ m.circuit.registers, name ∈ m.storage := by
    intro name hname
    obtain ⟨p, hp, hname⟩ := List.mem_flatMap.mp hname
    exact hassigns p hp name hname
  refine ⟨hdistinct, ⟨?_, hvalues, htargets, hapart⟩, ⟨hstatements, hexclusive, ?_⟩, ?_, ?_⟩
  · exact fun name => width_le hdistinct hbounded name
  · exact fun name hname r hr => drivable_ne_storage hdistinct (hdriven r hr) (hregister name hname)
  · exact fun name hname r hr => input_ne_drivable hdistinct hname (hdriven r hr)
  · exact fun name hname hreg => input_ne_storage hdistinct hname (hregister name hreg) rfl

/-- A well-formed module remains so under another name. -/
theorem WellFormed.named (h : m.WellFormed) (name : String) :
    ({ m with name } : Module).WellFormed where
  distinct := h.distinct
  wired := ⟨h.wired.bounded, h.wired.values, h.wired.targets, h.wired.apart⟩
  clocked := ⟨h.clocked.statements, h.clocked.exclusive, h.clocked.undriven⟩
  undriven := h.undriven
  unassigned := h.unassigned

end Module

/--
The inputs come first, then what is driven: enough for a unit whose assigns only
read inputs and registers.
-/
theorem Circuit.acyclic_of_outputs {c : Circuit} {outputs : List String}
    (hreads : ∀ a ∈ c.assigns, ∀ name ∈ a.value.reads, name ∉ outputs)
    (htargets : ∀ a ∈ c.assigns, ∀ name ∈ a.target.reads, name ∈ outputs) :
    c.Acyclic fun name => if name ∈ outputs then 1 else 0 := by
  intro a ha name hname target htarget
  dsimp only
  rw [if_neg (hreads a ha name hname), if_pos (htargets a ha target htarget)]
  exact Nat.one_pos

/-! ## The delay of the valid bit -/

namespace DelayBuffer

theorem slotName_injective : Function.Injective slotName := fun _ _ h => numbered_inj.mp h

variable {slots : Nat}

/-- The delay has a bit for each slot beside its ports. -/
theorem signals_body (h : slots ≠ 0) :
    (body slots).signals =
      [("clk", 1), ("rst", 1), ("valid_in", 1), ("ready_in", 1), ("valid_out", 1)] ++
        (List.range slots).map fun i => (slotName i, 1) := by
  simp [body, h, anonymous, Module.signals, ports, clockPorts, Port.input, Port.output, process,
    Item.clocked, Item.declsOf, Item.decls, Decl.reg, Function.comp_def]

theorem assigns_body (h : slots ≠ 0) :
    (body slots).circuit.assigns = [⟨.ident "valid_out", .ident (slotName (slots - 1))⟩] := by
  simp [body, h, anonymous, Module.circuit, process, Item.clocked, Item.drivesOf,
    Item.drives, drive]

theorem processes_body (h : slots ≠ 0) :
    (body slots).circuit.processes =
      [[.branch (.ident "rst") (clear slotName slots)
        [.branch (.ident "ready_in") (shift "valid_in" slotName slots) []]]] := by
  simp [body, h, anonymous, Module.circuit, process, Item.clocked, Item.processesOf, Item.processes]

theorem declares_slot (h : slots ≠ 0) {i : Nat} (hi : i < slots) :
    (body slots).circuit.widths.Declares (slotName i) := by
  rw [Module.declares_iff, signals_body h]
  simp only [List.map_append, List.map_map, List.mem_append, List.mem_map, List.mem_range,
    Function.comp_apply]
  exact Or.inr ⟨i, hi, rfl⟩

theorem declares_port (h : slots ≠ 0) {name : String}
    (hname : name ∈ ["clk", "rst", "valid_in", "ready_in", "valid_out"]) :
    (body slots).circuit.widths.Declares name := by
  rw [Module.declares_iff, signals_body h, List.map_append]
  exact List.mem_append_left _ hname

/-- The delay of a valid bit is well formed for any number of slots but none. -/
theorem wellFormed_body (h : slots ≠ 0) : (body slots).WellFormed := by
  have hlast : slots - 1 < slots := by omega
  refine .of_leaf (Module.distinct_of_declared (distinct_delayBuffer slots)) ?_ ?_ ?_ ?_ ?_ ?_ ?_ ?_
  · rw [signals_body h]
    refine List.forall_mem_append.mpr ⟨by decide, fun s hs => ?_⟩
    obtain ⟨i, -, rfl⟩ := List.mem_map.mp hs
    exact (by decide : 1 ≤ wordBits)
  · rw [assigns_body h]
    simpa [Expr.Typed] using declares_slot h hlast
  · rw [assigns_body h]
    simpa [Expr.IsTarget] using declares_port h (by simp)
  · rw [assigns_body h]
    simp [Expr.reads, Module.drivable, body, h, anonymous, ports, clockPorts, Port.input,
      Port.output]
  · rw [Circuit.driven, assigns_body h]
    simp [Expr.regions]
  · rw [processes_body h]
    simp only [List.mem_singleton, forall_eq, Statement.TypedAll, Statement.Typed,
      Expr.Typed, and_true]
    exact ⟨declares_port h (by simp), Statement.typed_clear fun i hi => declares_slot h hi,
      declares_port h (by simp),
      Statement.typed_shift (declares_port h (by simp)) fun i hi => declares_slot h hi⟩
  · rw [processes_body h]
    intro p hp name hname
    rw [List.mem_singleton.mp hp] at hname
    simp only [Statement.assignedAll, Statement.assigned, List.append_nil, List.mem_append,
      Statement.mem_assigned_clear, Statement.mem_assigned_shift, or_self] at hname
    obtain ⟨i, hi, rfl⟩ := hname
    simpa [Module.storage, body, h, anonymous, process, Item.clocked, Item.declsOf, Item.decls,
      Decl.reg] using
      ⟨i, hi, rfl⟩
  · rw [processes_body h]
    exact List.pairwise_singleton _ _

/-- All signals of the delay are bits. -/
theorem width_signal (h : slots ≠ 0) {name : String}
    (hname : (body slots).circuit.widths.Declares name) :
    (body slots).circuit.widths.width name = 1 := by
  have hmem := Module.declares_width (wellFormed_body h).distinct hname
  -- with the width a variable, the list of signals can be rewritten
  generalize (body slots).circuit.widths.width name = width at hmem
  rw [signals_body h] at hmem
  rcases List.mem_append.mp hmem with hmem | hmem
  · simp only [List.mem_cons, Prod.mk.injEq, List.not_mem_nil, or_false] at hmem
    omega
  · obtain ⟨i, -, heq⟩ := List.mem_map.mp hmem
    exact (Prod.mk.inj heq).2.symm

/-- The last slot is the output. -/
theorem settled_body (h : slots ≠ 0) {x : State} (hx : (body slots).circuit.Settled x) :
    high x "valid_out" = high x (slotName (slots - 1)) := by
  have hholds : Assign.Holds (body slots).circuit.widths.width x
      ⟨.ident "valid_out", .ident (slotName (slots - 1))⟩ :=
        hx _ (by rw [assigns_body h]; exact List.mem_singleton_self _)
  have hbit := hholds.1 0 (by rw [width_signal h (declares_port h (by simp))]; exact Nat.one_pos)
  exact hbit

theorem mem_registers (h : slots ≠ 0) {i : Nat} (hi : i < slots) :
    slotName i ∈ (body slots).circuit.registers := by
  rw [Circuit.registers, processes_body h]
  exact List.mem_flatMap.mpr ⟨_, List.mem_singleton_self _, Circuit.Clocked.mem_assigned_bits hi⟩

/--
**A slot takes over its predecessor while the delay moves,** the first one the
input; it keeps its bit otherwise, and a reset empties it.
-/
theorem next_body (h : slots ≠ 0) {x : State} (hfits : (body slots).circuit.widths.Fits x) {i : Nat}
    (hi : i < slots) :
    high ((body slots).circuit.next x) (slotName i) =
      if high x "rst" then false
      else if high x "ready_in" then
        (if i = 0 then high x "valid_in" else high x (slotName (i - 1)))
      else high x (slotName i) := by
  have hrst :=
    declares_port h (by simp : "rst" ∈ ["clk", "rst", "valid_in", "ready_in", "valid_out"])
  have hready :=
    declares_port h (by simp : "ready_in" ∈ ["clk", "rst", "valid_in", "ready_in", "valid_out"])
  refine (wellFormed_body h).clocked.next_bits slotName_injective ?_ hfits hrst
    (width_signal h hrst) hready
    (width_signal h hready) hi (width_signal h (declares_slot h hi))
  rw [processes_body h]
  exact List.mem_singleton_self _

/-! A buffer without slots is a wire. -/

/-- A delay without slots is a wire, and is well formed too. -/
theorem wellFormed_wire : (body 0).WellFormed := by
  refine .of_leaf (Module.distinct_of_declared (distinct_delayBuffer 0)) (by decide) ?_ ?_
    (by decide) ?_ ?_ (by decide) ?_
  · exact List.forall_mem_singleton.mpr (show (Expr.ident "valid_in").Typed _ from rfl)
  · exact List.forall_mem_singleton.mpr (show (Expr.ident "valid_out").IsTarget _ from rfl)
  · exact List.pairwise_singleton _ _
  · exact fun p hp => absurd hp List.not_mem_nil
  · exact List.Pairwise.nil

theorem wellFormed (slots : Nat) : (body slots).WellFormed := by
  by_cases h : slots = 0
  · rw [h]
    exact wellFormed_wire
  · exact wellFormed_body h

/-- Only the output of a delay is computed, and not from itself. -/
theorem acyclic_body (slots : Nat) :
    (body slots).circuit.Acyclic fun name => if name ∈ ["valid_out"] then 1 else 0 := by
  by_cases h : slots = 0
  · rw [h]
    exact Circuit.acyclic_of_outputs (by decide) (by decide)
  · have hslot : slotName (slots - 1) ≠ "valid_out" :=
      (ne_append_of_start (by decide : ¬ "regs_".toList <+: "valid_out".toList) _).symm
    refine Circuit.acyclic_of_outputs ?_ ?_
    · rw [assigns_body h]
      simpa [Expr.reads] using hslot
    · rw [assigns_body h]
      simp [Expr.reads]

end DelayBuffer

/-! ## The delay line -/

namespace DelayLine

theorem validName_injective : Function.Injective validName := fun _ _ h => numbered_inj.mp h

theorem dataName_injective : Function.Injective dataName := fun _ _ h => numbered_inj.mp h

variable {line : DelayLine}

/-- The signals of a delay line, whether or not it carries data. -/
theorem signals_line (h : line.latency ≠ 0) :
    line.body.signals =
      [("clk", 1), ("rst", 1)] ++ ifData line.width [("ins", line.width)] ++ [("ins_valid", 1)] ++
        ifData line.width [("outs", line.width)] ++ [("outs_valid", 1), ("outs_ready", 1)] ++
        ((List.range line.latency).map (fun i => (validName i, 1)) ++
          (ifData line.width ((List.range line.latency).map fun i => (dataName i, line.width)) ++
            [("en", 1)])) := by
  by_cases hw : 0 < line.width <;>
    simp [body, h, anonymous, Module.signals, ports, clockPorts, ifData, hw, Port.input,
      Port.output, validProcess, dataProcess, outputs, decls, Item.clocked, Item.declsOf,
      Item.decls, Decl.reg, Decl.net, Function.comp_def]

theorem assigns_line (h : line.latency ≠ 0) :
    line.body.circuit.assigns =
      ⟨.ident "en",
        .binary .or (.not (.ident (validName (line.latency - 1)))) (.ident "outs_ready")⟩ ::
        (ifData line.width [⟨.ident "outs", .ident (dataName (line.latency - 1))⟩] ++
          [⟨.ident "outs_valid", .ident (validName (line.latency - 1))⟩]) := by
  by_cases hw : 0 < line.width <;>
    simp [body, h, anonymous, Module.circuit, ifData, hw, validProcess, dataProcess, outputs,
      Item.clocked, Item.drivesOf, Item.drives, drive, Expr.or, Expr.apply, Expr.complement,
      Expr.isPrimary, Expr.isOperand]

theorem processes_line (h : line.latency ≠ 0) :
    line.body.circuit.processes =
      [.branch (.ident "rst") (clear validName line.latency)
          [.branch (.ident "en") (shift "ins_valid" validName line.latency) []]] ::
        ifData line.width [[.branch (.ident "en") (shift "ins" dataName line.latency) []]] := by
  by_cases hw : 0 < line.width <;>
    simp [body, h, anonymous, Module.circuit, ifData, hw, validProcess, dataProcess, outputs,
      Item.clocked, Item.processesOf, Item.processes]

/-- What a delay line stores: a valid bit for each stage, and data if there is any. -/
theorem storage_line (h : line.latency ≠ 0) :
    line.body.storage =
      (List.range line.latency).map validName ++
        ifData line.width ((List.range line.latency).map dataName) := by
  by_cases hw : 0 < line.width <;>
    simp [Module.storage, body, h, anonymous, ifData, hw, validProcess, dataProcess, outputs, decls,
      Item.clocked, Item.declsOf, Item.decls, Decl.reg, Decl.net, List.filter_map,
      Function.comp_def]

/-! A line that carries data has all of its parts. -/

theorem signals_body (h : line.latency ≠ 0) (hw : 0 < line.width) :
    line.body.signals =
      [("clk", 1), ("rst", 1), ("ins", line.width), ("ins_valid", 1), ("outs", line.width),
          ("outs_valid", 1), ("outs_ready", 1)] ++
        ((List.range line.latency).map (fun i => (validName i, 1)) ++
          ((List.range line.latency).map (fun i => (dataName i, line.width)) ++ [("en", 1)])) := by
  simp [signals_line h, ifData, hw]

theorem assigns_body (h : line.latency ≠ 0) (hw : 0 < line.width) :
    line.body.circuit.assigns =
      [⟨.ident "en",
        .binary .or (.not (.ident (validName (line.latency - 1)))) (.ident "outs_ready")⟩,
        ⟨.ident "outs", .ident (dataName (line.latency - 1))⟩,
        ⟨.ident "outs_valid", .ident (validName (line.latency - 1))⟩] := by
  simp [assigns_line h, ifData, hw]

theorem processes_body (h : line.latency ≠ 0) (hw : 0 < line.width) :
    line.body.circuit.processes =
      [[.branch (.ident "rst") (clear validName line.latency)
          [.branch (.ident "en") (shift "ins_valid" validName line.latency) []]],
        [.branch (.ident "en") (shift "ins" dataName line.latency) []]] := by
  simp [processes_line h, ifData, hw]

theorem instancesOf_body (h : line.latency ≠ 0) (hw : 0 < line.width) :
    Item.instancesOf line.body.items = [] := by
  simp [body, h, anonymous, ifData, hw, validProcess, dataProcess, outputs, Item.clocked,
    Item.instancesOf, Item.instances]

theorem storage_body (h : line.latency ≠ 0) (hw : 0 < line.width) :
    line.body.storage = (List.range line.latency).map validName ++
      (List.range line.latency).map dataName := by
  simp [storage_line h, ifData, hw]

/-! ## Lines with and without data -/

/-- A signal of a delay line is a bit or as wide as the data. -/
theorem signal_cases (h : line.latency ≠ 0) {s : String × Nat} (hs : s ∈ line.body.signals) :
    s.2 = 1 ∨ s.2 = line.width := by
  revert s
  rw [signals_line h]
  simp only [List.forall_mem_append, List.forall_mem_cons, List.forall_mem_map, forall_mem_ifData,
    List.not_mem_nil, false_imp_iff, implies_true, true_or, or_true, and_self]

theorem mem_signals_control (h : line.latency ≠ 0) :
    ∀ name ∈ ["rst", "ins_valid", "outs_valid", "outs_ready", "en"],
      (name, 1) ∈ line.body.signals := by
  rw [signals_line h]
  simp

theorem mem_signals_payload (h : line.latency ≠ 0) (hw : 0 < line.width) :
    ∀ name ∈ ["ins", "outs"], (name, line.width) ∈ line.body.signals := by
  rw [signals_body h hw]
  simp

theorem mem_signals_valid (h : line.latency ≠ 0) {i : Nat} (hi : i < line.latency) :
    (validName i, 1) ∈ line.body.signals := by
  rw [signals_line h]
  refine List.mem_append_right _
    (List.mem_append_left _ (List.mem_map.mpr ⟨i, List.mem_range.mpr hi, rfl⟩))

theorem mem_signals_data (h : line.latency ≠ 0) (hw : 0 < line.width) {i : Nat}
    (hi : i < line.latency) : (dataName i, line.width) ∈ line.body.signals := by
  rw [signals_body h hw]
  refine List.mem_append_right _ (List.mem_append_right _ (List.mem_append_left _
    (List.mem_map.mpr ⟨i, List.mem_range.mpr hi, rfl⟩)))

/-- A delay line is well formed if its data fits a word. -/
theorem wellFormed_body (h : line.latency ≠ 0) (hbound : line.width ≤ wordBits) :
    line.body.WellFormed := by
  have hlast : line.latency - 1 < line.latency := by omega
  have hdistinct := Module.distinct_of_declared (distinct_delayLine line)
  -- what is declared: the handshakes in any case, data only if there is some
  have hcontrol : ∀ name ∈ ["rst", "ins_valid", "outs_valid", "outs_ready", "en"],
      line.body.circuit.widths.Declares name := fun name hname =>
    Module.declares_of_mem (mem_signals_control h name hname)
  have hpayload : 0 < line.width →
      ∀ name ∈ ["ins", "outs"], line.body.circuit.widths.Declares name :=
    fun hw name hname => Module.declares_of_mem (mem_signals_payload h hw name hname)
  have hvalid : ∀ i < line.latency, line.body.circuit.widths.Declares (validName i) := fun i hi =>
    Module.declares_of_mem (mem_signals_valid h hi)
  have hdata : 0 < line.width →
      ∀ i < line.latency, line.body.circuit.widths.Declares (dataName i) := fun hw i hi =>
    Module.declares_of_mem (mem_signals_data h hw hi)
  simp only [List.forall_mem_cons, List.not_mem_nil, false_imp_iff, implies_true,
    and_true] at hcontrol hpayload
  obtain ⟨hrst, hinsValid, houtsValid, hready, hen⟩ := hcontrol
  refine .of_leaf hdistinct ?_ ?_ ?_ ?_ ?_ ?_ ?_ ?_
  · intro s hs
    rcases signal_cases h hs with heq | heq
    · rw [heq]
      decide
    · rwa [heq]
  · rw [assigns_line h]
    simp only [List.forall_mem_cons, List.forall_mem_append, forall_mem_ifData, List.not_mem_nil,
      false_imp_iff, implies_true, and_true, Expr.Typed]
    exact ⟨⟨hvalid _ hlast, hready⟩, fun hw => hdata hw _ hlast, hvalid _ hlast⟩
  · rw [assigns_line h]
    simp only [List.forall_mem_cons, List.forall_mem_append, forall_mem_ifData, List.not_mem_nil,
      false_imp_iff, implies_true, and_true, Expr.IsTarget]
    exact ⟨hen, fun hw => (hpayload hw).2, houtsValid⟩
  · rw [assigns_line h]
    by_cases hw : 0 < line.width <;>
      simp [Expr.reads, Module.drivable, body, h, anonymous, ports, clockPorts, ifData, hw,
        Port.input, Port.output, decls, Item.declsOf, Item.decls, Decl.net, Decl.reg]
  · rw [Circuit.driven, assigns_line h]
    by_cases hw : 0 < line.width <;> simp [ifData, hw, Expr.regions, Region.Apart]
  · rw [processes_line h]
    simp only [List.forall_mem_cons, forall_mem_ifData, List.not_mem_nil, false_imp_iff,
      implies_true, and_true, Statement.TypedAll, Statement.Typed, Expr.Typed]
    exact ⟨⟨hrst, Statement.typed_clear hvalid, hen, Statement.typed_shift hinsValid hvalid⟩,
      fun hw => ⟨hen, Statement.typed_shift (hpayload hw).1 (hdata hw)⟩⟩
  · rw [processes_line h, storage_line h]
    simp only [List.forall_mem_cons, forall_mem_ifData, List.not_mem_nil, false_imp_iff,
      implies_true, and_true, Statement.assignedAll, Statement.assigned, List.append_nil,
      List.mem_append, Statement.mem_assigned_clear, Statement.mem_assigned_shift, or_self]
    constructor
    · rintro name ⟨i, hi, rfl⟩
      exact Or.inl (List.mem_map_of_mem (List.mem_range.mpr hi))
    · rintro hw name ⟨i, hi, rfl⟩
      rw [ifData, if_pos hw]
      exact Or.inr (List.mem_map_of_mem (List.mem_range.mpr hi))
  · rw [processes_line h]
    refine List.pairwise_cons.mpr
      ⟨forall_mem_ifData.mpr fun _ => List.forall_mem_singleton.mpr ?_, ?_⟩
    · simp only [Statement.assignedAll, Statement.assigned, List.append_nil, List.mem_append,
        Statement.mem_assigned_clear, Statement.mem_assigned_shift, or_self]
      rintro name ⟨i, -, rfl⟩ ⟨j, -, heq⟩
      -- valid bits and data have different stems
      exact append_ne_append (by decide) (by decide) j.repr i.repr heq
    · unfold ifData
      split
      · exact List.pairwise_singleton _ _
      · exact List.Pairwise.nil

/--
The line advances when its last stage is empty or is being emptied; it shows
whether its last stage is occupied, and what it holds.
-/
theorem settled_body (h : line.latency ≠ 0) (hbound : line.width ≤ wordBits) {x : State}
    (hx : line.body.circuit.Settled x) (hfits : line.body.circuit.widths.Fits x) :
    high x "en" = (!high x (validName (line.latency - 1)) || high x "outs_ready") ∧
      high x "outs_valid" = high x (validName (line.latency - 1)) ∧
      (0 < line.width → x "outs" = x (dataName (line.latency - 1))) := by
  have hlast : line.latency - 1 < line.latency := by omega
  have hwf := wellFormed_body h hbound
  have hbit : ∀ name ∈ ["rst", "ins_valid", "outs_valid", "outs_ready", "en"],
      line.body.circuit.widths.width name = 1 := fun name hname =>
    Module.width_eq hwf.distinct (mem_signals_control h name hname)
  have hvalid := Module.width_eq hwf.distinct (mem_signals_valid h hlast)
  have hpos : 0 < wordBits := by decide
  simp only [List.forall_mem_cons, List.not_mem_nil, false_imp_iff, implies_true, and_true] at hbit
  obtain ⟨-, -, houtsValid, hready, hen⟩ := hbit
  unfold Circuit.Settled at hx
  rw [assigns_line h] at hx
  simp only [List.forall_mem_cons, List.forall_mem_append, forall_mem_ifData, List.not_mem_nil,
    false_imp_iff, implies_true, and_true] at hx
  obtain ⟨henable, houts, hshown⟩ := hx
  refine ⟨?_, ?_, fun hw => ?_⟩
  · simpa [Assign.Holds, Expr.regions, Spread, Expr.value, Expr.size, BinaryOp.eval,
      Word.getLsbD_low, hen, hready, hvalid, high, hpos] using henable
  · exact hshown.1 0 (houtsValid ▸ Nat.one_pos)
  · have hmem := mem_signals_payload h hw "outs" (by simp)
    have hwhole := Spread.whole (houts hw)
    rwa [Module.width_eq hwf.distinct hmem, Module.low_of_fits hwf.distinct hfits hmem, Expr.value,
      Module.low_of_fits hwf.distinct hfits (mem_signals_data h hw hlast)] at hwhole

theorem mem_registers (h : line.latency ≠ 0) {i : Nat} (hi : i < line.latency) :
    validName i ∈ line.body.circuit.registers := by
  rw [Circuit.registers, processes_line h]
  exact List.mem_flatMap.mpr ⟨_, List.mem_cons_self, Circuit.Clocked.mem_assigned_bits hi⟩

/--
**A stage takes over the valid bit of its predecessor while the line is
enabled;** it keeps its own otherwise, and a reset empties it.
-/
theorem next_valid (h : line.latency ≠ 0) (hbound : line.width ≤ wordBits) {x : State}
    (hfits : line.body.circuit.widths.Fits x) {i : Nat} (hi : i < line.latency) :
    high (line.body.circuit.next x) (validName i) =
      if high x "rst" then false
      else if high x "en" then (if i = 0 then high x "ins_valid" else high x (validName (i - 1)))
      else high x (validName i) := by
  have hwf := wellFormed_body h hbound
  have hrst := mem_signals_control h "rst" (by simp)
  have hen := mem_signals_control h "en" (by simp)
  refine hwf.clocked.next_bits validName_injective ?_ hfits
    (Module.declares_of_mem hrst) (Module.width_eq hwf.distinct hrst)
    (Module.declares_of_mem hen) (Module.width_eq hwf.distinct hen) hi
    (Module.width_eq hwf.distinct (mem_signals_valid h hi))
  rw [processes_line h]
  exact List.mem_cons_self

/-- Data moves on whenever the line is enabled, during a reset as well. -/
theorem next_data (h : line.latency ≠ 0) (hw : 0 < line.width) (hbound : line.width ≤ wordBits)
    {x : State} (hfits : line.body.circuit.widths.Fits x) {i : Nat} (hi : i < line.latency) :
    dataName i ∈ line.body.circuit.registers ∧ line.body.circuit.next x (dataName i) =
      if high x "en" then (if i = 0 then x "ins" else x (dataName (i - 1)))
      else x (dataName i) := by
  have hwf := wellFormed_body h hbound
  have henable := mem_signals_control h "en" (by simp)
  have hins := mem_signals_payload h hw "ins" (by simp)
  have hen := eq_zero_iff_not_high hfits (Module.declares_of_mem henable)
    (Module.width_eq hwf.distinct henable)
  have hmem : [Statement.branch (.ident "en") (shift "ins" dataName line.latency) []] ∈
      line.body.circuit.processes := by
    rw [processes_body h hw]
    simp
  obtain ⟨hregister, hnext⟩ := hwf.clocked.next_data (x := x) dataName_injective hmem hi
  refine ⟨hregister, ?_⟩
  rw [hnext, Module.width_eq hwf.distinct (mem_signals_data h hw hi)]
  simp only [hen]
  cases high x "en" with
  | false => simp
  | true =>
      by_cases hzero : i = 0
      · simpa [hzero] using Module.low_of_fits hwf.distinct hfits hins
      · have hbefore := mem_signals_data h hw (by omega : i - 1 < line.latency)
        simpa [hzero] using Module.low_of_fits hwf.distinct hfits hbefore

end DelayLine

/-! ## The core of the multiplier -/

namespace Multiplier

/-- The core of the multiplier, written out. -/
theorem circuit_core (width : Nat) :
    (coreBody width).circuit =
      ⟨"", ⟨[("mul", width), ("q2", width), ("q1", width), ("q0", width), ("b_reg", width),
          ("a_reg", width), ("p", width), ("b", width), ("a", width), ("ce", 1), ("clk", 1)]⟩,
        [⟨.ident "mul", .binary .mul (.ident "a_reg") (.ident "b_reg")⟩, ⟨.ident "p", .ident "q2"⟩],
        [[.branch (.ident "ce")
          [.nonblocking (.ident "a_reg") (.ident "a"), .nonblocking (.ident "b_reg") (.ident "b"),
            .nonblocking (.ident "q0") (.ident "mul"), .nonblocking (.ident "q1") (.ident "q0"),
            .nonblocking (.ident "q2") (.ident "q1")] []]]⟩ :=
  rfl

theorem signals_core (width : Nat) :
    (coreBody width).signals = [("clk", 1), ("ce", 1)] ++
      ["a", "b", "p", "a_reg", "b_reg", "q0", "q1", "q2", "mul"].map fun name => (name, width) :=
  rfl

theorem mem_signals_core (width : Nat) {name : String}
    (h : name ∈ ["a", "b", "p", "a_reg", "b_reg", "q0", "q1", "q2", "mul"]) :
    (name, width) ∈ (coreBody width).signals := by
  rw [signals_core]
  exact List.mem_append_right _ (List.mem_map_of_mem h)

/-- The core of the multiplier is well formed if its operands fit a word. -/
theorem wellFormed_core {width : Nat} (h : width ≤ wordBits) : (coreBody width).WellFormed := by
  have hdrivable : (coreBody width).drivable = ["p", "mul"] := rfl
  have hstorage : (coreBody width).storage = ["a_reg", "b_reg", "q0", "q1", "q2"] := rfl
  have hbit : 1 ≤ wordBits := by decide
  refine .of_leaf (Module.distinct_of_declared (distinct_multiplierCore width)) ?_ ?_ ?_ ?_
    ?_ ?_ ?_ ?_
  · simp [signals_core, h, hbit]
  · simp [circuit_core, Expr.Typed, Widths.Declares, lookup_cons]
  · simp [circuit_core, Expr.IsTarget, Widths.Declares, lookup_cons]
  · simp [circuit_core, Expr.reads, hdrivable]
  · simp [Circuit.driven, circuit_core, Expr.regions, Region.Apart]
  · simp [circuit_core, Statement.TypedAll, Statement.Typed, Expr.Typed, Widths.Declares,
      lookup_cons]
  · simp [circuit_core, Statement.assignedAll, Statement.assigned, Expr.reads, hstorage]
  · simp [circuit_core]

variable {width : Nat} {x : State}

/-- The product of the registered operands is cut to their width, and the last register is shown. -/
theorem settled_core (h : width ≤ wordBits) (hx : (coreBody width).circuit.Settled x)
    (hfits : (coreBody width).circuit.widths.Fits x) :
    x "mul" = (x "a_reg" * x "b_reg").low width ∧ x "p" = x "q2" := by
  have hd := (wellFormed_core h).distinct
  have hmul := Spread.whole
    (hx ⟨.ident "mul", .binary .mul (.ident "a_reg") (.ident "b_reg")⟩ (by simp [circuit_core]))
  have hp := Spread.whole (hx ⟨.ident "p", .ident "q2"⟩ (by simp [circuit_core]))
  have hproduct : (Expr.binary .mul (.ident "a_reg") (.ident "b_reg")).value
      (coreBody width).circuit.widths.width x =
      (x "a_reg" * x "b_reg").low (max width width) := rfl
  have hlow (name : String)
      (hname : name ∈ ["a", "b", "p", "a_reg", "b_reg", "q0", "q1", "q2", "mul"]) :=
    Module.low_of_fits hd hfits (mem_signals_core width hname)
  rw [Module.width_eq hd (mem_signals_core width (by simp)), hlow _ (by simp)] at hmul hp
  constructor
  · rw [hmul, hproduct, Nat.max_self, Word.low_low]
  · rw [hp]
    exact hlow "q2" (by simp)

/-- The registers of the core, each with what it takes over. -/
def coreMoves : List (String × String) :=
  [("a_reg", "a"), ("b_reg", "b"), ("q0", "mul"), ("q1", "q0"), ("q2", "q1")]

/-- While it is enabled, the core registers its operands and moves the products on. -/
theorem next_core (h : width ≤ wordBits) (hfits : (coreBody width).circuit.widths.Fits x)
    {move : String × String} (hmove : move ∈ coreMoves) :
    move.1 ∈ (coreBody width).circuit.registers ∧
      (coreBody width).circuit.next x move.1 = if high x "ce" then x move.2 else x move.1 := by
  have hregisters : ∀ move ∈ coreMoves, move.1 ∈ (coreBody width).circuit.registers := by
    show ∀ move ∈ coreMoves, move.1 ∈ ["a_reg", "b_reg", "q0", "q1", "q2"]
    decide
  have hnext : ∀ move ∈ coreMoves, (coreBody width).circuit.next x move.1 =
      if x "ce" = 0 then x move.1 else (x move.2).low width := by
    simp only [coreMoves, List.forall_mem_cons, List.not_mem_nil, false_imp_iff,
      implies_true, and_true]
    exact ⟨rfl, rfl, rfl, rfl, rfl⟩
  have hsources : ∀ move ∈ coreMoves,
      move.2 ∈ ["a", "b", "p", "a_reg", "b_reg", "q0", "q1", "q2", "mul"] := by
    decide
  have hce : x "ce" = 0 ↔ high x "ce" = false := eq_zero_iff_not_high hfits rfl rfl
  have hlow := Module.low_of_fits (wellFormed_core h).distinct hfits
    (mem_signals_core width (hsources move hmove))
  refine ⟨hregisters move hmove, ?_⟩
  rw [hnext move hmove, hlow]
  simp only [hce]
  cases high x "ce" <;> rfl

end Multiplier

end Handshake
