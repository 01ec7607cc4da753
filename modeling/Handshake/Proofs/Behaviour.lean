import Mathlib.Data.List.Chain
import Mathlib.Data.List.Nodup
import Handshake.Proofs.Clocking

/-!
# Runs and behaviours

A run of a simulator is a sequence of cycles. In each cycle some inputs are
driven, the circuit settles, its state is observed, and the clock rises. A
behaviour is what a run shows, without the simulator: a list of settled states,
each of which has in its registers what the one before it scheduled.

A well-formed module whose assigns do not depend on themselves can be run for
any number of cycles with any inputs, and shows a behaviour
(`WellFormed.run_ok`). So a property of behaviours is one of runs, and later
modules prove properties of behaviours only. That a run exists at all is part of
the statement, since driving, settling and clocking may each fail.
-/

namespace Handshake

/-- No declared signal has a value wider than itself. -/
def Widths.Fits (widths : Widths) (state : State) : Prop :=
  ∀ name, widths.Declares name → (state name).low (widths.width name) = state name

/-- What a run shows that starts with given values in the registers. -/
structure Circuit.Behaves (c : Circuit) (held : State) (states : List State) : Prop where
  settled : ∀ x ∈ states, c.Settled x
  fits : ∀ x ∈ states, c.widths.Fits x
  start : ∀ x ∈ states.head?, ∀ name ∈ c.registers, x name = held name
  steps : states.IsChain fun x y => ∀ name ∈ c.registers, y name = c.next x name

/-- A clock edge: from a settled state to one that has in its registers what was scheduled. -/
structure Circuit.Step (c : Circuit) (x y : State) : Prop where
  settled : c.Settled x
  fits : c.widths.Fits x
  registers : ∀ name ∈ c.registers, y name = c.next x name

/-- A behaviour goes from state to state by steps of the circuit. -/
theorem Circuit.Behaves.isChain_step {c : Circuit} {held : State} {states : List State}
    (h : c.Behaves held states) : states.IsChain c.Step :=
  h.steps.imp_of_mem_imp fun {x _} hx _ hxy => ⟨h.settled x hx, h.fits x hx, hxy⟩

namespace Simulator

/-- Drives several signals. -/
def drive (s : Simulator) (inputs : List (String × Word)) : Except Fault Simulator :=
  inputs.foldlM (fun s (name, value) => s.set name value) s

/--
One cycle: what is observed once the circuit has settled, and the simulator
after the clock edge.
-/
def cycle (s : Simulator) (inputs : List (String × Word)) :
    Except Fault (Simulator × Simulator) := do
  let driven ← s.drive inputs
  let settled ← driven.settle
  let next ← settled.tick
  return (settled, next)

/-- Several cycles: what is observed in each of them. -/
def run (s : Simulator) : List (List (String × Word)) → Except Fault (List Simulator)
  | [] => .ok []
  | inputs :: rest => do
    let (settled, next) ← s.cycle inputs
    let later ← next.run rest
    return settled :: later

/-- A run whose first cycle is known. -/
theorem run_cons {c : Circuit} {v driven settled next : Valuation}
    {inputs : List (String × Word)} {rest : List (List (String × Word))} {later : List Simulator}
    (hdrive : Simulator.drive ⟨c, v⟩ inputs = .ok ⟨c, driven⟩)
    (hsettle : settled ∈ (c.settle driven).toOption) (htick : next ∈ (c.tick settled).toOption)
    (hlater : Simulator.run ⟨c, next⟩ rest = .ok later) :
    Simulator.run ⟨c, v⟩ (inputs :: rest) = .ok (⟨c, settled⟩ :: later) := by
  have hsettled : (Simulator.mk c driven).settle = .ok ⟨c, settled⟩ := by
    rw [settle, eq_ok_of_mem_toOption hsettle]
    rfl
  have hnext : (Simulator.mk c settled).tick = .ok ⟨c, next⟩ := by
    rw [tick, eq_ok_of_mem_toOption htick]
    rfl
  rw [run, cycle, hdrive, ok_bind, hsettled, ok_bind, hnext]
  show (Simulator.run ⟨c, next⟩ rest >>= fun later => pure (Simulator.mk c settled :: later)) = _
  rw [hlater]
  rfl

end Simulator

namespace Module

/-- The names of the input ports. -/
def inputs (m : Module) : List String :=
  (m.ports.filter fun p => p.direction = .input).map Port.name

/--
A module whose circuit can be simulated: names are distinct, assigns and
processes are in order, and nothing inside the module drives its inputs.
-/
structure WellFormed (m : Module) : Prop where
  distinct : (m.signals.map Prod.fst).Nodup
  wired : m.circuit.Wired
  clocked : m.circuit.Clocked
  undriven : ∀ name ∈ m.inputs, m.circuit.Undriven name
  unassigned : ∀ name ∈ m.inputs, name ∉ m.circuit.registers

variable {m : Module}

/-- The names of signals are those of ports, then those of declarations. -/
theorem map_fst_signals (m : Module) :
    m.signals.map Prod.fst = m.ports.map Port.name ++ (Item.declsOf m.items).map Decl.name := by
  simp [signals, Function.comp_def]

/-- A name is declared if a port or a declaration has it. -/
theorem declares_iff {name : String} :
    m.circuit.widths.Declares name ↔ name ∈ m.signals.map Prod.fst := by
  unfold Widths.Declares circuit
  constructor
  · intro h
    by_contra hnot
    have hnone : m.signals.reverse.lookup name = none := by
      refine List.lookup_eq_none_iff.mpr fun p hp => ?_
      have hmem : p ∈ m.signals := List.mem_reverse.mp hp
      simpa using fun heq : name = p.1 => hnot (heq ▸ List.mem_map_of_mem hmem)
    rw [hnone] at h
    exact absurd h (by simp)
  · intro h
    obtain ⟨p, hp, rfl⟩ := List.mem_map.mp h
    by_contra hnot
    have hnone : m.signals.reverse.lookup p.1 = none := Option.not_isSome_iff_eq_none.mp hnot
    have := List.lookup_eq_none_iff.mp hnone p (List.mem_reverse.mpr hp)
    simp at this

theorem declares_of_mem {name : String} {width : Nat} (h : (name, width) ∈ m.signals) :
    m.circuit.widths.Declares name :=
  declares_iff.mpr (List.mem_map_of_mem h)

/-- A port with a name of its own is the one that the name stands for. -/
theorem port?_of_ports (hports : (m.ports.map Port.name).Nodup) {q : Port} (hq : q ∈ m.ports) :
    m.port? q.name = some q := by
  have hsome : (m.port? q.name).isSome = true := List.find?_isSome.mpr ⟨q, hq, beq_self_eq_true _⟩
  obtain ⟨r, hr⟩ := Option.isSome_iff_exists.mp hsome
  have hname : r.name = q.name := by simpa using List.find?_some hr
  rw [hr, List.inj_on_of_nodup_map hports (List.mem_of_find?_eq_some hr) hq hname]

/-- A port is found under its name if names are distinct. -/
theorem port?_of_mem (hd : (m.signals.map Prod.fst).Nodup) {q : Port} (hq : q ∈ m.ports) :
    m.port? q.name = some q := by
  rw [map_fst_signals] at hd
  exact port?_of_ports (List.nodup_append.mp hd).1 hq

theorem lookup_of_mem {entries : List (String × Nat)} (h : (entries.map Prod.fst).Nodup)
    {name : String} {width : Nat} (hmem : (name, width) ∈ entries) :
    entries.lookup name = some width := by
  induction entries with
  | nil => simp at hmem
  | cons entry rest ih =>
      obtain ⟨hnew, hrest⟩ := List.nodup_cons.mp h
      obtain ⟨key, value⟩ := entry
      rw [lookup_cons]
      rcases List.mem_cons.mp hmem with heq | hmem
      · obtain ⟨rfl, rfl⟩ := Prod.mk.inj heq
        rw [if_pos rfl]
      · have hne : name ≠ key := fun heq => hnew (List.mem_map.mpr ⟨_, hmem, heq⟩)
        rw [if_neg hne, ih hrest hmem]

theorem lookup_eq_none_of_forall_ne {entries : List (String × Nat)} {name : String}
    (h : ∀ s ∈ entries, s.1 ≠ name) : entries.lookup name = none :=
  List.lookup_eq_none_iff.mpr fun s hs => by simpa using (h s hs).symm

/-- A signal has the width it was declared with. -/
theorem width_eq (h : (m.signals.map Prod.fst).Nodup) {name : String} {width : Nat}
    (hmem : (name, width) ∈ m.signals) : m.circuit.widths.width name = width := by
  have hreverse : (m.signals.reverse.map Prod.fst).Nodup := by
    rw [List.map_reverse]
    exact List.nodup_reverse.mpr h
  unfold Widths.width circuit
  rw [lookup_of_mem hreverse (List.mem_reverse.mpr hmem)]
  rfl

theorem low_of_fits (hd : (m.signals.map Prod.fst).Nodup) {x : State}
    (hfits : m.circuit.widths.Fits x) {name : String} {width : Nat}
    (hmem : (name, width) ∈ m.signals) : (x name).low width = x name := by
  rw [← width_eq hd hmem]
  exact hfits name (declares_of_mem hmem)

theorem declares_width (hd : (m.signals.map Prod.fst).Nodup) {name : String}
    (h : m.circuit.widths.Declares name) : (name, m.circuit.widths.width name) ∈ m.signals := by
  obtain ⟨s, hs, rfl⟩ := List.mem_map.mp (declares_iff.mp h)
  rwa [width_eq hd hs]

/-- If all signals fit a word, then so does every name. -/
theorem width_le (hd : (m.signals.map Prod.fst).Nodup) (h : ∀ s ∈ m.signals, s.2 ≤ wordBits)
    (name : String) : m.circuit.widths.width name ≤ wordBits := by
  by_cases hname : m.circuit.widths.Declares name
  · exact h _ (declares_width hd hname)
  · have hnone : m.circuit.widths.entries.lookup name = none :=
      Option.not_isSome_iff_eq_none.mp hname
    rw [Widths.width, hnone]
    exact Nat.zero_le _

theorem declares_input {name : String} (h : name ∈ m.inputs) : m.circuit.widths.Declares name := by
  obtain ⟨p, hp, rfl⟩ := List.mem_map.mp h
  refine declares_iff.mpr (List.mem_map.mpr ⟨(p.name, p.width), ?_, rfl⟩)
  exact List.mem_append_left _ (List.mem_map.mpr ⟨p, (List.mem_filter.mp hp).1, rfl⟩)

/-! ## Running a well-formed module -/

/-- Setting an input cuts the value to its width. -/
theorem set_input {s : Simulator} (hs : s.circuit = m.circuit) {name : String}
    (hname : name ∈ m.inputs) (value : Word) :
    s.set name value =
      .ok (s.withValues (s.values.put name (value.low (m.circuit.widths.width name)))) := by
  rw [Simulator.set, Circuit.set, hs, Widths.get_of_declares (declares_input hname)]
  rfl

/--
Driving inputs succeeds. It leaves the other signals as they are, and an input
driven once has its value.
-/
theorem drive_values {inputs : List (String × Word)} (hin : ∀ p ∈ inputs, p.1 ∈ m.inputs)
    {s : Simulator} (hs : s.circuit = m.circuit) (ht : s.values.Tidy m.circuit.widths) :
    ∃ t, s.drive inputs = .ok t ∧ t.circuit = m.circuit ∧ t.values.Tidy m.circuit.widths ∧
      (∀ name, name ∉ inputs.map Prod.fst → t.get name = s.get name) ∧
      ((inputs.map Prod.fst).Nodup →
        ∀ p ∈ inputs, t.get p.1 = p.2.low (m.circuit.widths.width p.1)) := by
  induction inputs generalizing s with
  | nil => exact ⟨s, rfl, hs, ht, fun _ _ => rfl, fun _ p hp => absurd hp List.not_mem_nil⟩
  | cons input rest ih =>
      obtain ⟨name, value⟩ := input
      obtain ⟨hname, hrest⟩ := List.forall_mem_cons.mp hin
      obtain ⟨t, hrun, hcircuit, htidy, hframe, hvalues⟩ :=
        ih hrest (s := s.withValues (s.values.put name (value.low (m.circuit.widths.width name))))
          hs (ht.put _ _)
      refine ⟨t, ?_, hcircuit, htidy, fun other hother => ?_,
        fun hnodup => List.forall_mem_cons.mpr ⟨?_, ?_⟩⟩
      · rw [Simulator.drive, List.foldlM_cons]
        dsimp only
        rw [set_input hs hname, ok_bind]
        exact hrun
      · obtain ⟨hne, hother⟩ := not_or.mp (List.mem_cons.not.mp hother)
        rw [hframe other hother]
        exact (Valuation.get_put _ name other _).trans (if_neg hne)
      · -- what is driven later is another signal
        rw [hframe name (List.nodup_cons.mp hnodup).1]
        exact (Valuation.get_put _ name name _).trans (if_pos rfl)
      · exact hvalues (List.nodup_cons.mp hnodup).2

/-- Driving inputs succeeds and changes no other signal. -/
theorem drive_ok {inputs : List (String × Word)} (hin : ∀ p ∈ inputs, p.1 ∈ m.inputs)
    {s : Simulator} (hs : s.circuit = m.circuit) (ht : s.values.Tidy m.circuit.widths) :
    ∃ t, s.drive inputs = .ok t ∧ t.circuit = m.circuit ∧ t.values.Tidy m.circuit.widths ∧
      ∀ name, name ∉ m.inputs → t.get name = s.get name := by
  obtain ⟨t, hdrive, hcircuit, htidy, hframe, -⟩ := drive_values hin hs ht
  refine ⟨t, hdrive, hcircuit, htidy, fun name hname => hframe name fun hmem => hname ?_⟩
  obtain ⟨p, hp, rfl⟩ := List.mem_map.mp hmem
  exact hin p hp

/--
A cycle succeeds. Its settled state keeps what was in the registers, and what is
in them afterwards is what the settled state scheduled.
-/
theorem WellFormed.cycle_ok (h : m.WellFormed) {rank : String → Nat}
    (hrank : m.circuit.Acyclic rank) {inputs : List (String × Word)}
    (hin : ∀ p ∈ inputs, p.1 ∈ m.inputs) {s : Simulator} (hs : s.circuit = m.circuit)
    (ht : s.values.Tidy m.circuit.widths) :
    ∃ settled next, s.cycle inputs = .ok (settled, next) ∧ next.circuit = m.circuit ∧
      next.values.Tidy m.circuit.widths ∧ m.circuit.Settled settled.get ∧
      m.circuit.widths.Fits settled.get ∧
      (∀ name ∈ m.circuit.registers, settled.get name = s.get name) ∧
      ∀ name ∈ m.circuit.registers, next.get name = m.circuit.next settled.get name := by
  obtain ⟨d, hdrive, hcircuit, htidy, hframe⟩ := drive_ok hin hs ht
  obtain ⟨v, hsettle, hvtidy, hpass, hsettled, hundriven⟩ := h.wired.settle_ok hrank htidy
  obtain ⟨w, htick, hwtidy, hnext⟩ := h.clocked.tick_ok h.wired hrank hvtidy hpass
  refine ⟨d.withValues v, d.withValues w, ?_, hcircuit, hwtidy, hsettled,
    fun name _ => hvtidy.fits name, ?_, hnext⟩
  · have hsettle' : d.settle = .ok (d.withValues v) := by
      rw [Simulator.settle, hcircuit, hsettle]
      rfl
    have htick' : (d.withValues v).tick = .ok (d.withValues w) := by
      show (d.circuit.tick v).map _ = _
      rw [hcircuit, htick]
      rfl
    rw [Simulator.cycle, hdrive, ok_bind, hsettle', ok_bind, htick', ok_bind]
    rfl
  · -- neither driving inputs nor settling touches a register
    intro name hname
    rw [← hframe name fun hinput => h.unassigned name hinput hname]
    exact hundriven name (h.clocked.undriven name hname)

/-- **Every run of a well-formed module succeeds and shows a behaviour.** -/
theorem WellFormed.run_ok (h : m.WellFormed) {rank : String → Nat} (hrank : m.circuit.Acyclic rank)
    {cycles : List (List (String × Word))} (hin : ∀ inputs ∈ cycles, ∀ p ∈ inputs, p.1 ∈ m.inputs)
    {s : Simulator} (hs : s.circuit = m.circuit) (ht : s.values.Tidy m.circuit.widths) :
    ∃ trace, s.run cycles = .ok trace ∧ trace.length = cycles.length ∧
      m.circuit.Behaves s.get (trace.map Simulator.get) := by
  induction cycles generalizing s with
  | nil => exact ⟨[], rfl, rfl, by simp, by simp, by simp, List.IsChain.nil⟩
  | cons inputs rest ih =>
      obtain ⟨hinputs, hrest⟩ := List.forall_mem_cons.mp hin
      obtain ⟨settled, next, hcycle, hcircuit, htidy, hsettled, hfits, hheld, hnext⟩ :=
        h.cycle_ok hrank hinputs hs ht
      obtain ⟨trace, hrun, hlength, hbehaves⟩ := ih hrest hcircuit htidy
      refine ⟨settled :: trace, ?_, by simp [hlength], ?_, ?_, ?_, ?_⟩
      · rw [Simulator.run, hcycle, ok_bind]
        dsimp only
        rw [hrun, ok_bind]
        rfl
      · exact List.forall_mem_cons.mpr ⟨hsettled, hbehaves.settled⟩
      · exact List.forall_mem_cons.mpr ⟨hfits, hbehaves.fits⟩
      · intro x hx name hname
        rw [List.map_cons, List.head?_cons, Option.mem_some_iff] at hx
        rw [← hx, hheld name hname]
      · -- the next cycle starts from what this one has left in the registers
        rw [List.map_cons, List.isChain_cons]
        refine ⟨fun y hy name hname => ?_, hbehaves.steps⟩
        rw [hbehaves.start y hy name hname, hnext name hname]

/-- A run from the start shows a behaviour in which all registers hold zero at first. -/
theorem WellFormed.run_start (h : m.WellFormed) {rank : String → Nat}
    (hrank : m.circuit.Acyclic rank) {cycles : List (List (String × Word))}
    (hin : ∀ inputs ∈ cycles, ∀ p ∈ inputs, p.1 ∈ m.inputs) :
    ∃ trace, (Simulator.start m).run cycles = .ok trace ∧ trace.length = cycles.length ∧
      m.circuit.Behaves (fun _ => 0) (trace.map Simulator.get) :=
  h.run_ok hrank hin rfl (Valuation.tidy_zero m.circuit.widths)

end Module

end Handshake
