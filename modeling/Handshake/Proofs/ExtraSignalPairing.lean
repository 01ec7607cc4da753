import Handshake.Proofs.WrappedOperators

/-!
# Extra signals stay with their results

Inside the wrapper of an operator there are two pipelines: the control of the
operator, and the delay line with the extra signals. Nothing connects the two.
But they have the same number of stages, and are reset, fed and drained alike,
so they hold tokens in the same stages whatever the consumer does. A result that
leaves the operator then meets the extra signals that came with its operands.

Being in step (`aligned`) is an invariant: if the same stages are occupied, both
pipelines are enabled in the same cycles, and so the same stages are occupied in
the next cycle. From then on the line is known to hold, stage by stage, what was
on its bus when the operands of that stage were handed over.
-/

namespace Handshake

namespace Manager

open Operator

/-- The control of the operator inside a wrapper. -/
def innerPipeline (latency : Nat) : Pipeline State :=
  (Operator.pipeline latency).comap fun x name => x ("inner__" ++ name)

/-- The delay line inside a wrapper. -/
def linePipeline (latency : Nat) (extra : ExtraSignals) : Pipeline State :=
  (DelayLine.mk latency extra.totalWidth).pipeline.comap fun x name => x ("buff__" ++ name)

namespace Wrappable

variable {inner line : String} {width latency : Nat} {extra : ExtraSignals} {layout : Layout}
    {m flat whole : Module} {parts : List Part} {x y : State}
    (h : Wrappable width latency extra layout flat)
    (hf : Flattens (wrapper inner line width extra layout)
      (wrapperParts inner line latency extra flat) whole)
include h hf

theorem line_steps (hxy : whole.circuit.Step x y) : (linePipeline latency extra).Steps x y := by
  have hstep := hf.step_part h.assembled mem_line hxy
  exact (DelayLine.steps (Nat.ne_of_gt h.latency_pos) (ExtraSignals.totalWidth_pos h.extra_ne)
    h.extra_le
    ⟨hstep.settled, hstep.fits, hstep.registers⟩).comap

theorem inner_high (hx : whole.circuit.Settled x) (hfits : whole.circuit.widths.Fits x)
    {name : String} (hname : name ∈ (innerPorts 0).map Port.name) :
    high x ("inner__" ++ name) = high x name :=
  congrArg (BitVec.getLsbD · 0) (h.inner_eq hf hx hfits hname)

theorem together (hx : whole.circuit.Settled x) (hfits : whole.circuit.widths.Fits x) :
    (linePipeline latency extra).Together (innerPipeline latency) x := by
  obtain ⟨hrst, -, hvalid, hready, -⟩ := h.line_wires hf hx hfits
  refine ⟨rfl, ?_, ?_, ?_⟩
  · show high x "buff__rst" = high x ("inner__" ++ "rst")
    rw [h.inner_high hf hx hfits (by decide), high, hrst, high]
  · show high x "buff__ins_valid" =
      (high x ("inner__" ++ "lhs_valid") && high x ("inner__" ++ "rhs_valid"))
    rw [h.inner_high hf hx hfits (by decide), h.inner_high hf hx hfits (by decide),
      ← h.offered_eq hf hx, high, hvalid, high]
  · show high x "buff__outs_ready" = high x ("inner__" ++ "result_ready")
    rw [h.inner_high hf hx hfits (by decide), high, hready, high]

/-- What is handed over outside is what is handed over inside. -/
theorem inner_transfers (hx : whole.circuit.Settled x) (hfits : whole.circuit.widths.Fits x)
    (port : String) (hport : port ∈ ["lhs", "rhs", "result"]) :
    transfers port (fun name => x ("inner__" ++ name)) = transfers port x := by
  have hnames : ∀ port ∈ ["lhs", "rhs", "result"], port ++ "_valid" ∈ (innerPorts 0).map Port.name ∧
      port ++ "_ready" ∈ (innerPorts 0).map Port.name := by
    decide
  obtain ⟨hvalid, hready⟩ := hnames port hport
  exact congrArg₂ (· && ·) (h.inner_high hf hx hfits hvalid) (h.inner_high hf hx hfits hready)

theorem line_start {states : List State} (hb : whole.circuit.Behaves (fun _ => 0) states) :
    ∀ x ∈ states.head?, ∀ i < (linePipeline latency extra).depth,
      (linePipeline latency extra).occupied i x = false := by
  intro x hx i hi
  have hregister : DelayLine.validName i ∈
      (DelayLine.mk latency extra.totalWidth).body.circuit.registers :=
    DelayLine.mem_registers (Nat.ne_of_gt h.latency_pos) hi
  exact hb.low_start hx ((hf.includes h.assembled mem_line).mem_registers hregister)

/-- The bus out of the line shows what the last stage holds. -/
theorem bus_eq (hx : whole.circuit.Settled x) (hfits : whole.circuit.widths.Fits x) :
    x "extra_outs" = x ("buff__" ++ DelayLine.dataName (latency - 1)) := by
  obtain ⟨-, -, -, -, houts⟩ := h.line_wires hf hx hfits
  obtain ⟨-, -, hlast⟩ := DelayLine.settled_body (Nat.ne_of_gt h.latency_pos) h.extra_le
    (hf.settled_part h.assembled mem_line hx) (hf.fits_part h.assembled mem_line hfits)
  exact houts.trans (hlast (ExtraSignals.totalWidth_pos h.extra_ne))

theorem bus_of_carries (hx : whole.circuit.Settled x) (hfits : whole.circuit.widths.Fits x)
    (hy : whole.circuit.Settled y) (hyfits : whole.circuit.widths.Fits y)
    (hcarries : (linePipeline latency extra).carries (latency - 1) x y) :
    x "extra_outs" = y "extra_ins" := by
  obtain ⟨-, hins, -⟩ := h.line_wires hf hy hyfits
  rw [h.bus_eq hf hx hfits, ← hins]
  exact hcarries

variable (hflat : Flattens m parts flat) (hm : Controlled m parts latency)
include hflat hm

theorem inner_steps (hlatency : 1 < latency) (hxy : whole.circuit.Step x y) :
    (innerPipeline latency).Steps x y := by
  have hstep := hf.step_part h.assembled mem_inner hxy
  exact (hm.steps hflat hlatency hstep).comap

theorem transfers_eq (hx : whole.circuit.Settled x) (hfits : whole.circuit.widths.Fits x) :
    transfers "lhs" x = (innerPipeline latency).accepts x ∧
      transfers "rhs" x = (innerPipeline latency).accepts x ∧
      transfers "result" x = (innerPipeline latency).delivers x := by
  obtain ⟨hleft, hright, hresult⟩ := hm.transfers_eq hflat h.latency_pos
    (hf.settled_part h.assembled mem_inner hx) (hf.fits_part h.assembled mem_inner hfits)
  rw [← h.inner_transfers hf hx hfits "lhs" (by simp),
    ← h.inner_transfers hf hx hfits "rhs" (by simp),
    ← h.inner_transfers hf hx hfits "result" (by simp)]
  exact ⟨hleft, hright, hresult⟩

/-- A wrapper takes both operands or neither of them, as the operator inside does. -/
theorem operands_paired (hx : whole.circuit.Settled x) (hfits : whole.circuit.widths.Fits x) :
    transfers "lhs" x = transfers "rhs" x := by
  obtain ⟨hleft, hright, -⟩ := h.transfers_eq hf hflat hm hx hfits
  rw [hleft, hright]

theorem inner_start {states : List State} (hb : whole.circuit.Behaves (fun _ => 0) states) :
    ∀ x ∈ states.head?, ∀ i < (innerPipeline latency).depth,
      (innerPipeline latency).occupied i x = false := by
  intro x hx i _
  obtain ⟨name, hname, hoccupied⟩ := hm.mem_registers hflat i
  have hregister := (hf.includes h.assembled mem_inner).mem_registers hname
  exact (hoccupied _).trans (hb.low_start hx hregister)

/-- Operator and line start empty and see the same handshakes, so that they stay in step. -/
theorem aligned {states : List State} (hb : whole.circuit.Behaves (fun _ => 0) states)
    (hlatency : 1 < latency) :
    ∀ x ∈ states, (linePipeline latency extra).Aligned (innerPipeline latency) x :=
  Pipeline.aligned_of_together (fun x hx => h.together hf (hb.settled x hx) (hb.fits x hx))
    (hb.isChain_step.imp fun _ _ hxy => h.line_steps hf hxy)
    (hb.isChain_step.imp fun _ _ hxy => h.inner_steps hf hflat hm hlatency hxy)
    fun x hx i hi => (h.line_start hf hb x hx i hi).trans
      (h.inner_start hf hflat hm hb x hx i hi).symm

/-- **The extra signals of a result are those of its operands.** -/
theorem extra_in_order {states : List State} (hb : whole.circuit.Behaves (fun _ => 0) states)
    (hlatency : 1 < latency) :
    Pipeline.InOrder (Pipeline.sinceReset (high · "rst") states) latency (transfers "lhs")
      (transfers "result")
      fun x origin => ∀ e ∈ extra.signals, x ("result_" ++ e.name) = origin ("lhs_" ++ e.name) := by
  have hline := hb.isChain_step.imp fun x y hxy => h.line_steps hf hxy
  have htogether : ∀ x ∈ states, (linePipeline latency extra).Together (innerPipeline latency) x :=
    fun x hx => h.together hf (hb.settled x hx) (hb.fits x hx)
  have haligned := h.aligned hf hflat hm hb hlatency
  have hreset : Pipeline.sinceReset (high · "rst") states =
      Pipeline.sinceReset (linePipeline latency extra).reset states :=
    Pipeline.sinceReset_congr fun x hx =>
      congrArg (BitVec.getLsbD · 0) (h.line_wires hf (hb.settled x hx) (hb.fits x hx)).1.symm
  rw [hreset]
  -- the order is that of the line; the handshakes outside are those of the operator
  refine (Pipeline.delivered_in_order hline (h.line_start hf hb) h.latency_pos).congr ?_ ?_ ?_
  · intro x hx
    have hx := Pipeline.mem_of_mem_sinceReset hx
    rw [(h.transfers_eq hf hflat hm (hb.settled x hx) (hb.fits x hx)).1]
    exact ((haligned x hx).accepts (htogether x hx) h.latency_pos).symm
  · intro x hx
    have hx := Pipeline.mem_of_mem_sinceReset hx
    rw [(h.transfers_eq hf hflat hm (hb.settled x hx) (hb.fits x hx)).2.2]
    exact ((haligned x hx).delivers (htogether x hx) h.latency_pos).symm
  · intro x hx o ho hcarries e he
    have hx := Pipeline.mem_of_mem_sinceReset hx
    have ho := Pipeline.mem_of_mem_sinceReset ho
    have hbus :=
      h.bus_of_carries hf (hb.settled x hx) (hb.fits x hx) (hb.settled o ho) (hb.fits o ho) hcarries
    exact h.carried hf (hb.settled x hx) (hb.fits x hx) (hb.settled o ho) (hb.fits o ho) hbus he

end Wrappable

end Manager

/--
**Extra signals stay with their results, under every pattern of stalls.**
Operands are handed over together. Since the last reset, the `k`-th result comes
after the `k`-th pair of operands and has on its extra signals what the left
operand had; and no more operands than the latency are without a result.
-/
theorem extra_signals_paired {request : Request} {a : Artifact} {extra : ExtraSignals}
    (hkind : request.kind ∈ ["muli", "mulf", "subf"]) (ha : generate request = .ok a)
    (hextra : request.params.extraSignals = .ok extra) (hne : extra.signals ≠ [])
    (hwidths : ∀ b ∈ a.blocks, ∀ s ∈ b.content.signals, s.2 ≤ wordBits) :
    ∃ m, a.flatten = .ok m ∧
      ∀ cycles : List (List (String × Word)), (∀ inputs ∈ cycles, ∀ i ∈ inputs, i.1 ∈ m.inputs) →
        ∃ trace, (Simulator.start m).run cycles = .ok trace ∧ trace.length = cycles.length ∧
          (∀ s ∈ trace, transfers "lhs" s.get = transfers "rhs" s.get) ∧
          Pipeline.InOrder (Pipeline.sinceReset (high · "rst") (trace.map Simulator.get)) a.latency
            (transfers "lhs")
            (transfers "result")
            fun x origin => ∀ e ∈ extra.signals,
              x ("result_" ++ e.name) = origin ("lhs_" ++ e.name) := by
  obtain ⟨hlatency, width, m, parts, flat, whole, h⟩ :=
    isWrapped_of_request hkind ha hextra hne hwidths
  obtain ⟨inner, line, layout, hwrap, hf⟩ := h.wraps
  obtain ⟨rank, hrank⟩ := h.acyclic
  refine ⟨whole, h.flatten, fun cycles hcycles => ?_⟩
  obtain ⟨trace, hrun, hlength, hb⟩ := h.wellFormed.run_start hrank hcycles
  refine ⟨trace, hrun, hlength, fun s hs => ?_, ?_⟩
  · have hmem : s.get ∈ trace.map Simulator.get := List.mem_map_of_mem hs
    exact hwrap.operands_paired hf h.flattens h.controlled (hb.settled _ hmem) (hb.fits _ hmem)
  · exact hwrap.extra_in_order hf h.flattens h.controlled hb hlatency

/-- A pair of operands with a tag, and a consumer that comes late. -/
def lateConsumer : List (List (String × Word)) :=
  [[("lhs_valid", 1), ("rhs_valid", 1), ("lhs", 3), ("rhs", 5), ("lhs_tag", 1)], [("lhs_valid", 0)],
    [], [], [], [("result_ready", 1)]]

/-- A multiplier with a tag of one bit. -/
theorem extra_signals_paired_tag :
    ∃ a m trace, generate (.withSignal "muli" "tag") = .ok a ∧ a.flatten = .ok m ∧
      (Simulator.start m).run lateConsumer = .ok trace ∧ trace.length = 6 ∧
      (∀ s ∈ trace, transfers "lhs" s.get = transfers "rhs" s.get) ∧
      Pipeline.InOrder (Pipeline.sinceReset (high · "rst") (trace.map Simulator.get)) a.latency
        (transfers "lhs")
        (transfers "result") fun x origin => x "result_tag" = origin "lhs_tag" := by
  have hmade : ∃ a ∈ (generate (.withSignal "muli" "tag")).toOption,
      (∀ b ∈ a.blocks, ∀ s ∈ b.content.signals, s.2 ≤ wordBits) ∧
      ∃ m ∈ a.flatten.toOption, ∀ inputs ∈ lateConsumer, ∀ i ∈ inputs, i.1 ∈ m.inputs := by
        decide +kernel
  have hsignals : ∃ extra ∈ (Request.withSignal "muli" "tag").params.extraSignals.toOption,
      extra.signals ≠ [] ∧ ∃ e ∈ extra.signals, e.name = "tag" := by decide +kernel
  obtain ⟨a, ha, hwidths, m, hm, hinputs⟩ := hmade
  obtain ⟨extra, hextra, hne, e, he, htag⟩ := hsignals
  obtain ⟨m', hm', hruns⟩ := extra_signals_paired (by decide) (eq_ok_of_mem_toOption ha)
    (eq_ok_of_mem_toOption hextra) hne hwidths
  obtain rfl : m' = m := Except.ok.inj (hm'.symm.trans (eq_ok_of_mem_toOption hm))
  obtain ⟨trace, hrun, hlength, htogether, horder⟩ := hruns lateConsumer hinputs
  refine ⟨a, m', trace, eq_ok_of_mem_toOption ha, hm', hrun, hlength, htogether, ?_⟩
  refine horder.congr (fun _ _ => rfl) (fun _ _ => rfl) fun x _ o _ hpaired => ?_
  have htagged := hpaired e he
  rw [htag] at htagged
  exact htagged

end Handshake
