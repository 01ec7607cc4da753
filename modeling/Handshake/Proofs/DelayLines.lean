import Handshake.Proofs.Simulability

/-!
# A delay line is a queue of stages

The registers of a delay line stand for a queue of optional tokens, as many as
the line has stages. On a clock edge a reset empties the queue; otherwise it
shifts by one, taking in what is offered, unless its last stage is occupied and
the consumer is not ready. A line without stages is a wire.

`DelayLine.contents` reads the queue off a state. One clock edge does to it what
`DelayLine.Queue.tick` does (`contents_step`), and nothing else that can be done
from outside changes it, so it is the queue of the model in every run
(`Tracks.perform`). This holds for data of any width that fits a word, and for
lines without data.
-/

namespace Handshake

/-- A signal of one bit is one if it is high. -/
theorem eq_one_iff_high {widths : Widths} {state : State} (hfits : widths.Fits state)
    {name : String} (hname : widths.Declares name) (hwidth : widths.width name = 1) :
    state name = 1 ↔ high state name = true := by
  constructor
  · intro h
    rw [high, h]
    decide
  · intro h
    refine BitVec.eq_of_getLsbD_eq fun i _ => ?_
    rw [← hfits name hname, hwidth, Word.getLsbD_low]
    cases i with
    | zero =>
        have hpos : 0 < wordBits := by decide
        simpa [high, hpos] using h
    | succ i => simp

/-! ## Actions on the inputs -/

namespace Simulator.Action

/-- The action drives no signal but an input. -/
def Feeds (m : Module) : Action → Prop
  | .set name _ => name ∈ m.inputs
  | .settle | .tick => True

instance (m : Module) : DecidablePred (Feeds m)
  | .set name _ => inferInstanceAs (Decidable (name ∈ m.inputs))
  | .settle | .tick => isTrue trivial

/-- The action leaves all assigns settled. -/
def Settles : Action → Prop
  | .set _ _ => False
  | .settle | .tick => True

end Simulator.Action

namespace Module

variable {m : Module} {rank : String → Nat}

/--
A clock edge, from any values: they settle first, and what no assign drives is
then as it was.
-/
theorem WellFormed.edge_ok (h : m.WellFormed) (hrank : m.circuit.Acyclic rank) {v : Valuation}
    (hv : v.Tidy m.circuit.widths) :
    ∃ x w, m.circuit.tick v = .ok w ∧ w.Tidy m.circuit.widths ∧ m.circuit.Settled w.get ∧
      m.circuit.Step x w.get ∧
      (∀ name, m.circuit.Undriven name → x name = v.get name) ∧
        ∀ name ∈ m.inputs, w.get name = v.get name := by
  obtain ⟨u, hsettle, hu, hpass, hsettled, hframe⟩ := h.wired.settle_ok hrank hv
  obtain ⟨w, htick, hw, hsettled', hnext⟩ := h.clocked.tick_settles h.wired hrank hu hpass
  refine ⟨u.get, w, (Circuit.tick_of_settle hsettle).trans htick, hw, hsettled', ⟨hsettled, ?_, ?_⟩,
    hframe, ?_⟩
  · exact fun name _ => hu.fits name
  · exact fun name hname => hnext name (h.clocked.undriven name hname)
  · intro name hname
    rw [hnext name (h.undriven name hname),
      Circuit.next_of_not_mem_registers (h.unassigned name hname),
      hframe name (h.undriven name hname)]

end Module

namespace DelayLine

variable {line : DelayLine}

/-! ## The model -/

/--
A delay line seen from outside: what its inputs were last driven to, and what
its stages hold, first to last.
-/
structure Queue where
  driven : State
  stages : List (Option Word)

namespace Queue

/-- The queue of a line at the start: nothing driven, nothing held. -/
def start (line : DelayLine) : Queue := ⟨fun _ => 0, List.replicate line.latency none⟩

/-- The token in the last stage. -/
def last (q : Queue) : Option Word := q.stages.getLast?.join

/-- The token at the input. -/
def offered (line : DelayLine) (driven : State) : Option Word :=
  if high driven "ins_valid" then some ((driven "ins").low line.width) else none

/-- What a clock edge makes of the stages. -/
def tick (line : DelayLine) (q : Queue) : Queue :=
  { q with
    stages :=
      if high q.driven "rst" then List.replicate line.latency none
      else if q.last.isNone || high q.driven "outs_ready" then
        (offered line q.driven :: q.stages).dropLast
      else q.stages }

/-- What an action makes of the queue. -/
def act (line : DelayLine) (q : Queue) : Simulator.Action → Queue
  | .set name value =>
      { q with driven := fun other => if other = name then value else q.driven other }
  | .settle => q
  | .tick => q.tick line

/-- The queue of a line after some actions. -/
def after (line : DelayLine) (actions : List Simulator.Action) : Queue :=
  actions.foldl (act line) (start line)

end Queue

/-! ## The queue in the registers -/

/-- What a state holds in a stage. -/
def stage (line : DelayLine) (x : State) (i : Nat) : Option Word :=
  if high x (validName i) then some (if 0 < line.width then x (dataName i) else 0) else none

/-- What a state holds in all stages. -/
def contents (line : DelayLine) (x : State) : List (Option Word) :=
  (List.range line.latency).map (line.stage x)

theorem mem_registers_data (h : line.latency ≠ 0) (hw : 0 < line.width) {i : Nat}
    (hi : i < line.latency) : dataName i ∈ line.body.circuit.registers := by
  rw [Circuit.registers, processes_body h hw]
  refine List.mem_flatMap.mpr ⟨_, List.mem_cons_of_mem _ List.mem_cons_self, ?_⟩
  simp only [Statement.assignedAll, Statement.assigned, List.append_nil,
    Statement.mem_assigned_shift]
  exact ⟨i, hi, rfl⟩

/-- Whatever leaves the registers alone leaves the queue alone. -/
theorem contents_congr {x y : State}
    (h : ∀ name ∈ line.body.circuit.registers, y name = x name) :
    line.contents y = line.contents x := by
  refine List.map_congr_left fun i hi => ?_
  have hi := List.mem_range.mp hi
  have hlatency : line.latency ≠ 0 := by omega
  unfold stage high
  rw [h _ (mem_registers hlatency hi)]
  by_cases hw : 0 < line.width
  · rw [if_pos hw, if_pos hw, h _ (mem_registers_data hlatency hw hi)]
  · rw [if_neg hw, if_neg hw]

/-- What a clock edge does to one stage. -/
theorem stage_step (hbound : line.width ≤ wordBits) {x y : State}
    (hxy : line.body.circuit.Step x y) {i : Nat} (hi : i < line.latency) :
    line.stage y i =
      if high x "rst" then none
      else if high x "en" then (if i = 0 then Queue.offered line x else line.stage x (i - 1))
      else line.stage x i := by
  have h : line.latency ≠ 0 := by omega
  have hvalid : high y (validName i) = _ :=
    (congrArg (BitVec.getLsbD · 0) (hxy.registers _ (mem_registers h hi))).trans
      (next_valid h hbound hxy.fits hi)
  unfold stage Queue.offered
  rw [hvalid]
  by_cases hw : 0 < line.width
  · obtain ⟨hregister, hnext⟩ := next_data h hw hbound hxy.fits hi
    have hins := Module.low_of_fits (wellFormed_body h hbound).distinct hxy.fits
      (mem_signals_payload h hw "ins" (by simp))
    rw [hxy.registers _ hregister, hnext, hins]
    cases high x "rst" <;> cases high x "en" <;> by_cases hzero : i = 0 <;> simp [hw, hzero]
  · have hzero : ∀ w : Word, w.low line.width = 0 := by
      obtain hwidth : line.width = 0 := by omega
      intro w
      rw [hwidth, Word.low_zero]
    cases high x "rst" <;> cases high x "en" <;> by_cases hfirst : i = 0
      <;> simp [hw, hfirst, hzero]

/-- The last stage of a line is the last of its queue. -/
theorem last_contents (h : line.latency ≠ 0) (driven x : State) :
    Queue.last ⟨driven, line.contents x⟩ = line.stage x (line.latency - 1) := by
  have hlast : (List.range line.latency).getLast? = some (line.latency - 1) := by
    rw [List.getLast?_range, if_neg h]
  rw [Queue.last, contents, List.getLast?_map, hlast]
  rfl

/-- **A clock edge does to the registers of a line what it does to a queue.** -/
theorem contents_step (hbound : line.width ≤ wordBits) {x y : State}
    (hxy : line.body.circuit.Step x y) :
    line.contents y = (Queue.tick line ⟨x, line.contents x⟩).stages := by
  by_cases h : line.latency = 0
  · simp [contents, Queue.tick, h]
  · have henable : high x "en" =
        ((line.stage x (line.latency - 1)).isNone || high x "outs_ready") := by
      rw [(settled_body h hbound hxy.settled hxy.fits).1]
      cases hvalid : high x (validName (line.latency - 1)) <;> simp [stage, hvalid]
    have hstages : line.contents y = (List.range line.latency).map fun i =>
        if high x "rst" then none
        else if high x "en" then (if i = 0 then Queue.offered line x else line.stage x (i - 1))
        else line.stage x i :=
      List.map_congr_left fun i hi => stage_step hbound hxy (List.mem_range.mp hi)
    rw [hstages, Queue.tick]
    simp only [last_contents h, ← henable]
    cases high x "rst" with
    | true => simp
    | false =>
        cases high x "en" with
        | true =>
            -- behind the new token stands what was one stage earlier
            refine List.ext_getElem (by simp [contents]) fun i hi hi' => ?_
            cases i with
            | zero => simp
            | succ i => simp [contents]
        | false => simp [contents]

/--
What is shown at the output in a settled state: whether the last stage is
occupied, and by what.
-/
theorem shown_eq (h : line.latency ≠ 0) (hbound : line.width ≤ wordBits) {x : State}
    (hx : line.body.circuit.Settled x) (hfits : line.body.circuit.widths.Fits x) :
    (x "outs_valid" = 1 ↔ (line.stage x (line.latency - 1)).isSome = true) ∧
      ∀ token ∈ line.stage x (line.latency - 1), 0 < line.width → x "outs" = token := by
  obtain ⟨-, hvalid, houts⟩ := settled_body h hbound hx hfits
  have hmem := mem_signals_control h "outs_valid" (by simp)
  have hone := eq_one_iff_high hfits (Module.declares_of_mem hmem)
    (Module.width_eq (wellFormed_body h hbound).distinct hmem)
  rw [hone, hvalid]
  unfold stage
  cases high x (validName (line.latency - 1)) with
  | false => simp
  | true =>
      refine ⟨by simp, fun token htoken hw => ?_⟩
      rw [houts hw]
      simpa [hw] using htoken

/-! ## A line without stages -/

theorem signals_wire (h : line.latency = 0) :
    line.body.signals =
      [("clk", 1), ("rst", 1)] ++ ifData line.width [("ins", line.width)] ++ [("ins_valid", 1)] ++
        ifData line.width [("outs", line.width)] ++ [("outs_valid", 1), ("outs_ready", 1)] := by
  by_cases hw : 0 < line.width <;>
    simp [body, h, anonymous, Module.signals, ports, clockPorts, ifData, hw, Port.input,
      Port.output, outputs, Item.declsOf, Item.decls]

theorem assigns_wire (h : line.latency = 0) :
    line.body.circuit.assigns =
      ifData line.width [⟨.ident "outs", .ident "ins"⟩] ++
        [⟨.ident "outs_valid", .ident "ins_valid"⟩] := by
  by_cases hw : 0 < line.width <;>
    simp [body, h, anonymous, Module.circuit, ifData, hw, outputs, Item.drivesOf,
      Item.drives, drive]

theorem processes_wire (h : line.latency = 0) : line.body.circuit.processes = [] := by
  simp [body, h, anonymous, Module.circuit, outputs, Item.processesOf, Item.processes]

theorem mem_signals_wire (h : line.latency = 0) :
    (∀ name ∈ ["ins_valid", "outs_valid"], (name, 1) ∈ line.body.signals) ∧
      (0 < line.width → ∀ name ∈ ["ins", "outs"], (name, line.width) ∈ line.body.signals) := by
  rw [signals_wire h]
  refine ⟨by simp, fun hw => ?_⟩
  simp [ifData, hw]

theorem wellFormed_wire (h : line.latency = 0) (hbound : line.width ≤ wordBits) :
    line.body.WellFormed := by
  obtain ⟨hbits, hpayload⟩ := mem_signals_wire h
  have hvalid : ∀ name ∈ ["ins_valid", "outs_valid"],
      line.body.circuit.widths.Declares name := fun name hname =>
    Module.declares_of_mem (hbits name hname)
  have hdata : 0 < line.width →
      ∀ name ∈ ["ins", "outs"], line.body.circuit.widths.Declares name := fun hw name hname =>
    Module.declares_of_mem (hpayload hw name hname)
  have hone : 1 ≤ wordBits := by decide
  simp only [List.forall_mem_cons, List.not_mem_nil, false_imp_iff, implies_true,
    and_true] at hvalid hdata
  refine .of_leaf (Module.distinct_of_declared (distinct_delayLine line)) ?_ ?_ ?_ ?_ ?_ ?_ ?_ ?_
  · rw [signals_wire h]
    simp only [List.forall_mem_append, List.forall_mem_cons, forall_mem_ifData, List.not_mem_nil,
      false_imp_iff, implies_true, hone, hbound, and_self]
  · rw [assigns_wire h]
    simp only [List.forall_mem_append, List.forall_mem_cons, forall_mem_ifData, List.not_mem_nil,
      false_imp_iff, implies_true, and_true, Expr.Typed]
    exact ⟨fun hw => (hdata hw).1, hvalid.1⟩
  · rw [assigns_wire h]
    simp only [List.forall_mem_append, List.forall_mem_cons, forall_mem_ifData, List.not_mem_nil,
      false_imp_iff, implies_true, and_true, Expr.IsTarget]
    exact ⟨fun hw => (hdata hw).2, hvalid.2⟩
  · rw [assigns_wire h]
    by_cases hw : 0 < line.width <;>
      simp [Expr.reads, Module.drivable, body, h, anonymous, ports, clockPorts, ifData, hw,
        Port.input, Port.output]
  · rw [Circuit.driven, assigns_wire h]
    by_cases hw : 0 < line.width <;> simp [ifData, hw, Expr.regions, Region.Apart]
  · rw [processes_wire h]
    exact fun p hp => absurd hp List.not_mem_nil
  · rw [processes_wire h]
    exact fun p hp => absurd hp List.not_mem_nil
  · rw [processes_wire h]
    exact List.Pairwise.nil

/-- A line without stages shows what is offered. -/
theorem settled_wire (h : line.latency = 0) (hbound : line.width ≤ wordBits) {x : State}
    (hx : line.body.circuit.Settled x) (hfits : line.body.circuit.widths.Fits x) :
    x "outs_valid" = x "ins_valid" ∧ (0 < line.width → x "outs" = x "ins") := by
  have hdistinct := (wellFormed_wire h hbound).distinct
  obtain ⟨hbits, hpayload⟩ := mem_signals_wire h
  have hshown : ∀ {width : Nat} {target source : String}, (target, width) ∈ line.body.signals →
      (source, width) ∈ line.body.signals →
      (⟨.ident target, .ident source⟩ : Assign).Holds line.body.circuit.widths.width x →
        x target = x source := by
    intro width target source htarget hsource hholds
    have hwhole := Spread.whole hholds
    rwa [Module.width_eq hdistinct htarget, Module.low_of_fits hdistinct hfits htarget, Expr.value,
      Module.low_of_fits hdistinct hfits hsource] at hwhole
  unfold Circuit.Settled at hx
  rw [assigns_wire h] at hx
  simp only [List.forall_mem_append, List.forall_mem_cons, forall_mem_ifData, List.not_mem_nil,
    false_imp_iff, implies_true, and_true] at hx
  refine ⟨hshown (hbits _ (by simp)) (hbits _ (by simp)) hx.2, fun hw => ?_⟩
  exact hshown (hpayload hw _ (by simp)) (hpayload hw _ (by simp)) (hx.1 hw)

/-! ## Every line can be simulated -/

theorem wellFormed (hbound : line.width ≤ wordBits) : line.body.WellFormed := by
  by_cases h : line.latency = 0
  · exact wellFormed_wire h hbound
  · exact wellFormed_body h hbound

theorem acyclic_body (line : DelayLine) :
    line.body.circuit.Acyclic fun name => if name ∈ ["en", "outs", "outs_valid"] then 1 else 0 := by
  by_cases h : line.latency = 0
  · refine Circuit.acyclic_of_outputs ?_ ?_
    · rw [assigns_wire h]
      by_cases hw : 0 < line.width <;> simp [ifData, hw, Expr.reads]
    · rw [assigns_wire h]
      by_cases hw : 0 < line.width <;> simp [ifData, hw, Expr.reads]
  · have hvalid : ∀ name ∈ ["en", "outs", "outs_valid"], validName (line.latency - 1) ≠ name := by
      have hstart : ∀ name ∈ ["en", "outs", "outs_valid"],
          ¬ "valid_".toList <+: name.toList := by decide
      exact fun name hname => (ne_append_of_start (hstart name hname) _).symm
    have hdata : ∀ name ∈ ["en", "outs", "outs_valid"], dataName (line.latency - 1) ≠ name := by
      have hstart : ∀ name ∈ ["en", "outs", "outs_valid"],
          ¬ "data_".toList <+: name.toList := by decide
      exact fun name hname => (ne_append_of_start (hstart name hname) _).symm
    simp only [List.forall_mem_cons] at hvalid hdata
    refine Circuit.acyclic_of_outputs ?_ ?_
    · rw [assigns_line h]
      by_cases hw : 0 < line.width <;> simp [ifData, hw, Expr.reads, hvalid, hdata]
    · rw [assigns_line h]
      by_cases hw : 0 < line.width <;> simp [ifData, hw, Expr.reads]

/-- The inputs that matter to the queue, with their widths. -/
theorem mem_inputs (line : DelayLine) :
    (∀ name ∈ ["rst", "ins_valid", "outs_ready"], name ∈ line.body.inputs ∧
      (name, 1) ∈ line.body.signals) ∧
      (0 < line.width → "ins" ∈ line.body.inputs ∧ ("ins", line.width) ∈ line.body.signals) := by
  by_cases hw : 0 < line.width <;>
    simp [body, anonymous, Module.inputs, Module.signals, ports, clockPorts, ifData, hw, Port.input,
      Port.output]

/-! ## Runs -/

/-- A simulator of a line and a queue in the same situation. -/
structure Tracks (line : DelayLine) (s : Simulator) (q : Queue) : Prop where
  circuit : s.circuit = line.body.circuit
  tidy : s.values.Tidy line.body.circuit.widths
  inputs : ∀ name ∈ line.body.inputs,
    s.get name = (q.driven name).low (line.body.circuit.widths.width name)
  stages : line.contents s.get = q.stages

theorem tracks_start (line : DelayLine) :
    Tracks line (Simulator.start line.body) (Queue.start line) := by
  have hzero : (Simulator.start line.body).get = fun _ => 0 := funext Valuation.get_zero
  refine ⟨rfl, Valuation.tidy_zero _, fun name _ => ?_, ?_⟩
  · rw [hzero]
    simp [Queue.start, Word.low]
  · have hempty : line.stage (fun _ => 0) = fun _ => none := by
      funext i
      simp [stage, high]
    rw [hzero, contents, hempty]
    simp [Queue.start]

/-- A clock edge reads the inputs only as far as their widths go. -/
theorem tick_congr (hbound : line.width ≤ wordBits) {x driven : State}
    (h : ∀ name ∈ line.body.inputs,
      x name = (driven name).low (line.body.circuit.widths.width name))
    (stages : List (Option Word)) :
    (Queue.tick line ⟨x, stages⟩).stages = (Queue.tick line ⟨driven, stages⟩).stages := by
  have hdistinct := (wellFormed hbound).distinct
  obtain ⟨hbits, hins⟩ := mem_inputs line
  have hhigh : ∀ name ∈ ["rst", "ins_valid", "outs_ready"], high x name = high driven name := by
    intro name hname
    obtain ⟨hinput, hmem⟩ := hbits name hname
    rw [high, h name hinput, Module.width_eq hdistinct hmem, Word.getLsbD_low]
    simp [high]
  have htoken : (x "ins").low line.width = (driven "ins").low line.width := by
    by_cases hw : 0 < line.width
    · obtain ⟨hinput, hmem⟩ := hins hw
      rw [h "ins" hinput, Module.width_eq hdistinct hmem, Word.low_low]
    · obtain hzero : line.width = 0 := by omega
      rw [hzero, Word.low_zero, Word.low_zero]
  simp only [List.forall_mem_cons] at hhigh
  simp only [Queue.tick, Queue.last, Queue.offered, hhigh, htoken]

/-- **A simulator of a line and a queue stay together.** -/
theorem Tracks.act (hbound : line.width ≤ wordBits) {s : Simulator} {q : Queue}
    (h : Tracks line s q) {action : Simulator.Action} (haction : action.Feeds line.body) :
    ∃ t, s.act action = .ok t ∧ Tracks line t (q.act line action) ∧
      (action.Settles → line.body.circuit.Settled t.get) := by
  have hwf : line.body.WellFormed := wellFormed hbound
  -- inputs and registers are driven by no assign, and no input is a register
  have hheld : ∀ {x : State}, (∀ name, line.body.circuit.Undriven name → x name = s.get name) →
      line.contents x = q.stages := fun hx =>
    (contents_congr fun name hname => hx name (hwf.clocked.undriven name hname)).trans h.stages
  cases action with
  | set name value =>
      refine ⟨_, Module.set_input h.circuit haction value, ⟨h.circuit, h.tidy.put _ _, ?_, ?_⟩,
        False.elim⟩
      · intro other hother
        show (s.values.put name _).get other =
          (if other = name then value else q.driven other).low _
        rw [Valuation.get_put]
        split
        · rename_i heq
          rw [heq]
        · exact h.inputs other hother
      · refine (contents_congr fun other hother => ?_).trans h.stages
        have hne : other ≠ name := fun heq => hwf.unassigned name haction (heq ▸ hother)
        show (s.values.put name _).get other = s.values.get other
        rw [Valuation.get_put, if_neg hne]
  | settle =>
      obtain ⟨v, hsettle, hv, -, hsettled, hframe⟩ := hwf.wired.settle_ok (acyclic_body line) h.tidy
      refine ⟨s.withValues v, ?_, ⟨h.circuit, hv, fun name hname => ?_, hheld hframe⟩,
        fun _ => hsettled⟩
      · rw [Simulator.act, Simulator.settle, h.circuit, hsettle]
        rfl
      · exact (hframe name (hwf.undriven name hname)).trans (h.inputs name hname)
  | tick =>
      obtain ⟨x, v, htick, hv, hsettled, hstep, hframe, hinputs⟩ :=
        hwf.edge_ok (acyclic_body line) h.tidy
      refine ⟨s.withValues v, ?_, ⟨h.circuit, hv, fun name hname => ?_, ?_⟩, fun _ => hsettled⟩
      · rw [Simulator.act, Simulator.tick, h.circuit, htick]
        rfl
      · exact (hinputs name hname).trans (h.inputs name hname)
      · have hdriven : ∀ name ∈ line.body.inputs,
            x name = (q.driven name).low (line.body.circuit.widths.width name) := fun name hname =>
          (hframe name (hwf.undriven name hname)).trans (h.inputs name hname)
        show line.contents v.get = (q.tick line).stages
        rw [contents_step hbound hstep, hheld hframe, tick_congr hbound hdriven]

theorem Tracks.perform (hbound : line.width ≤ wordBits) {actions : List Simulator.Action}
    (hactions : ∀ action ∈ actions, action.Feeds line.body) {s : Simulator} {q : Queue}
    (h : Tracks line s q) :
    ∃ t, s.perform actions = .ok t ∧ Tracks line t (actions.foldl (Queue.act line) q) ∧
      ∀ action ∈ actions.getLast?, action.Settles → line.body.circuit.Settled t.get := by
  induction actions using List.reverseRecOn with
  | nil => exact ⟨s, rfl, h, by simp⟩
  | append_singleton actions action ih =>
      obtain ⟨hearlier, haction⟩ := List.forall_mem_append.mp hactions
      obtain ⟨t, hperform, htracks, -⟩ := ih hearlier
      obtain ⟨u, hact, htracks', hsettled⟩ :=
        htracks.act hbound (haction action (List.mem_singleton_self _))
      refine ⟨u, ?_, ?_, ?_⟩
      · rw [Simulator.perform] at hperform ⊢
        rw [List.foldlM_append, hperform, ok_bind, List.foldlM_cons, hact]
        rfl
      · rw [List.foldl_append]
        exact htracks'
      · simpa using hsettled

end DelayLine

/--
**A delay line refines a queue of stages.** Whatever is done to its inputs, the
clock and the assigns, no action fails. Whenever the assigns have settled, a
line with stages shows at its output whether the last stage of the queue is
occupied, and by which token; a line without stages shows its input.
-/
theorem delay_line_refines_queue (line : DelayLine) (hwidth : line.width ≤ wordBits)
    (actions : List Simulator.Action) (hinputs : ∀ action ∈ actions, action.Feeds line.body) :
    ∃ s, (Simulator.start line.body).perform actions = .ok s ∧
      ((∃ action ∈ actions.getLast?, action.Settles) →
        (line.latency ≠ 0 →
          (s.get "outs_valid" = 1 ↔ (DelayLine.Queue.after line actions).last.isSome = true) ∧
            ∀ token ∈ (DelayLine.Queue.after line actions).last, 0 < line.width →
              s.get "outs" = token) ∧
        (line.latency = 0 →
          s.get "outs_valid" = s.get "ins_valid" ∧
            (0 < line.width → s.get "outs" = s.get "ins"))) := by
  obtain ⟨s, hperform, htracks, hsettled⟩ := (DelayLine.tracks_start line).perform hwidth hinputs
  refine ⟨s, hperform, ?_⟩
  rintro ⟨action, hlast, hsettles⟩
  have hx := hsettled action hlast hsettles
  have hfits : line.body.circuit.widths.Fits s.get := fun name _ => htracks.tidy.fits name
  refine ⟨fun h => ?_, fun h => DelayLine.settled_wire h hwidth hx hfits⟩
  have hqueue : (DelayLine.Queue.after line actions).last =
      line.stage s.get (line.latency - 1) := by
    rw [← DelayLine.last_contents h (DelayLine.Queue.after line actions).driven, htracks.stages]
    rfl
  rw [hqueue]
  exact DelayLine.shown_eq h hwidth hx hfits

/--
A line of two stages that is stalled: the first token stays at its output while
a second one waits behind it.
-/
theorem delay_line_refines_queue_stalled :
    ∃ s, (Simulator.start (DelayLine.mk 2 8).body).perform
        [.set "ins_valid" 1, .set "ins" 5, .tick, .set "ins" 6, .tick, .set "ins" 7, .tick,
          .settle] = .ok s ∧
      s.get "outs_valid" = 1 ∧ s.get "outs" = 5 := by
  obtain ⟨s, hperform, hshown⟩ := delay_line_refines_queue ⟨2, 8⟩ (by decide)
    [.set "ins_valid" 1, .set "ins" 5, .tick, .set "ins" 6, .tick, .set "ins" 7, .tick, .settle]
    (by decide)
  obtain ⟨⟨hvalid, houts⟩, -⟩ := (hshown ⟨.settle, rfl, trivial⟩).imp_left fun h => h (by decide)
  exact ⟨s, hperform, hvalid.mpr (by decide), houts 5 (by decide) (by decide)⟩

end Handshake
