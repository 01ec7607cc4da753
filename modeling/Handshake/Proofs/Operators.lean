import Handshake.Proofs.Arbitration
import Handshake.Proofs.Pipelines

/-!
# Operators as pipelines

The control of an operator of fixed latency is a pipeline of valid bits: its
stages are the slots of the delay buffer and, last, the slot that drives the
result. The delay line that carries extra signals is a pipeline as well, with
data in its stages.

`Controlled` says that a module contains the control, whatever else is in it.
What is known of the three parts on their own is carried over to the operator
through its connections, signal by signal: the join offers a token when both
operands are valid, the slots pass it on, and the last stage decides whether all
of them move. Put together, this makes `Controlled.steps`: the control is an
elastic pipeline, to which everything that holds of such pipelines applies.
-/

namespace Handshake

/-! ## Delay lines -/

namespace DelayLine

variable {line : DelayLine}

/-- A delay line as a pipeline: each stage has a valid bit and what entered with it. -/
def pipeline (line : DelayLine) : Pipeline State where
  depth := line.latency
  reset x := high x "rst"
  offered x := high x "ins_valid"
  ready x := high x "outs_ready"
  occupied i x := high x (validName i)
  carries i x origin := x (dataName i) = origin "ins"

theorem enabled_eq (h : line.latency ≠ 0) (hbound : line.width ≤ wordBits) {x : State}
    (hx : line.body.circuit.Settled x) (hfits : line.body.circuit.widths.Fits x) :
    high x "en" = line.pipeline.enabled x :=
  (settled_body h hbound hx hfits).1

theorem steps (h : line.latency ≠ 0) (hw : 0 < line.width) (hbound : line.width ≤ wordBits)
    {x y : State} (hxy : line.body.circuit.Step x y) : line.pipeline.Steps x y := by
  have hen := enabled_eq h hbound hxy.settled hxy.fits
  have hdata : ∀ i < line.latency, y (dataName i) =
      if line.pipeline.enabled x then (if i = 0 then x "ins" else x (dataName (i - 1)))
      else x (dataName i) := by
    intro i hi
    obtain ⟨hregister, hnext⟩ := next_data h hw hbound hxy.fits hi
    rw [hxy.registers _ hregister, hnext, hen]
  refine .of_stages (Nat.pos_of_ne_zero h) (fun i hi => ?_) (fun henabled _ => ?_)
    (fun henabled i hi o ho => ?_) (fun hstall i hi o ho => ?_)
  · have hnext := next_valid h hbound hxy.fits hi
    rw [hen] at hnext
    show (y (validName i)).getLsbD 0 = _
    rw [hxy.registers _ (mem_registers h hi)]
    exact hnext
  · exact (hdata 0 (Nat.pos_of_ne_zero h)).trans (by rw [if_pos henabled, if_pos rfl])
  · refine ((hdata (i + 1) hi).trans ?_).trans ho
    rw [if_pos henabled, if_neg (Nat.succ_ne_zero i), Nat.add_sub_cancel]
  · refine ((hdata i hi).trans ?_).trans ho
    rw [hstall, if_neg Bool.false_ne_true]

end DelayLine

/-! ## The control of an operator -/

namespace Operator

/-- The join of the operands, inside the operator. -/
def joinPart (name : String) : Part := (joinInstance name, { Join.body 2 with name })

/-- The delay of the valid bit, inside an operator of some latency. -/
def delayPart (latency : Nat) (name : String) : Part :=
  (delayInstance name, { DelayBuffer.body (latency - 1) with name })

/-- The last stage, inside the operator. -/
def outputPart (name : String) : Part := (outputInstance name, { DataBreak.body 0 with name })

/-- The signals of one bit that the control connects. -/
def controlBits : List String :=
  ["rst", "lhs_valid", "lhs_ready", "rhs_valid", "rhs_ready", "result_valid", "result_ready",
    "join_valid", "buff_valid", enable]

/-- A module that contains the control of an operator. -/
structure Controlled (m : Module) (parts : List Part) (latency : Nat) : Prop where
  assembled : m.Assembled parts
  bits : ∀ name ∈ controlBits, (name, 1) ∈ m.signals
  join : ∃ name, joinPart name ∈ parts
  delay : ∃ name, delayPart latency name ∈ parts
  output : ∃ name, outputPart name ∈ parts

/-- The control as a pipeline of valid bits. -/
def pipeline (latency : Nat) : Pipeline State where
  depth := latency
  reset x := high x "rst"
  offered x := high x "lhs_valid" && high x "rhs_valid"
  ready x := high x "result_ready"
  occupied i x :=
    if i + 1 < latency then high x ("buff__" ++ DelayBuffer.slotName i)
    else high x "one_slot_break_dv__valid_reg"
  carries _ _ _ := True

namespace Controlled

variable {m flat : Module} {parts : List Part} {latency : Nat} {x y : State}

theorem width_bit (h : Controlled m parts latency) {name : String} (hname : name ∈ controlBits) :
    m.circuit.widths.width name = 1 :=
  Module.width_eq h.assembled.distinct (h.bits name hname)

theorem getLsbD_bit (h : Controlled m parts latency) (hf : Flattens m parts flat)
    (hfits : flat.circuit.widths.Fits x) {name : String} (hname : name ∈ controlBits) {i : Nat}
    (hi : i ≠ 0) : (x name).getLsbD i = false := by
  rw [← hf.low_own h.assembled hfits (h.bits name hname), Word.getLsbD_low]
  simp [hi]

/-- The valid bits of both operands, as they enter the join. -/
theorem join_valid (h : Controlled m parts latency) (hf : Flattens m parts flat)
    (hx : flat.circuit.Settled x) (hfits : flat.circuit.widths.Fits x) {name : String}
    (hp : joinPart name ∈ parts) :
    ((x ∘ (joinPart name).rename) "ins_valid").getLsbD 0 = high x "lhs_valid" ∧
      ((x ∘ (joinPart name).rename) "ins_valid").getLsbD 1 = high x "rhs_valid" := by
  have hvalue := hf.input_eq h.assembled hx hfits hp
    (show ("ins_valid", some (.concat ["rhs_valid", "lhs_valid"])) ∈
      (joinPart name).1.connections from
      List.mem_cons_self)
    (q := ⟨.input, 2, "ins_valid"⟩) rfl rfl
  -- the left bit stands lowest, and its signal has no second bit to meet the right one
  have hhigh :=
    h.getLsbD_bit hf hfits (by simp [controlBits] : "lhs_valid" ∈ controlBits) Nat.one_ne_zero
  have hleft : m.circuit.widths.width "lhs_valid" = 1 := h.width_bit (by simp [controlBits])
  have hword : decide (1 < wordBits) = true := by decide
  rw [Function.comp_apply, hvalue]
  simp only [Expr.value, Expr.valueAll, Expr.size, Word.getLsbD_low, BitVec.getLsbD_or,
    Word.getLsbD_up, hleft, hhigh, hword, high]
  simp

theorem full_eq (hlatency : 0 < latency) :
    (pipeline latency).full x = high x "one_slot_break_dv__valid_reg" :=
  if_neg (show ¬ latency - 1 + 1 < latency by omega)

/-- A bit that enters a part. -/
theorem bit_in (h : Controlled m parts latency) (hf : Flattens m parts flat)
    (hx : flat.circuit.Settled x) (hfits : flat.circuit.widths.Fits x) {p : Part} (hp : p ∈ parts)
    {port name : String} (hc : (port, some (.ident name)) ∈ p.1.connections)
    (hq : p.2.port? port = some ⟨.input, 1, port⟩) (hname : name ∈ controlBits) :
    high (x ∘ p.rename) port = high x name :=
  congrArg (BitVec.getLsbD · 0)
    (hf.input_ident h.assembled hx hfits hp port name hc hq rfl (h.width_bit hname))

/-- A bit that leaves a part. -/
theorem bit_out (h : Controlled m parts latency) (hf : Flattens m parts flat)
    (hx : flat.circuit.Settled x) (hfits : flat.circuit.widths.Fits x) {p : Part} (hp : p ∈ parts)
    {port name : String} (hc : (port, some (.ident name)) ∈ p.1.connections)
    (hq : p.2.port? port = some ⟨.output, 1, port⟩) (hname : name ∈ controlBits) :
    high x name = high (x ∘ p.rename) port :=
  congrArg (BitVec.getLsbD · 0)
    (hf.output_ident h.assembled hx hfits hp port name hc hq rfl (h.width_bit hname))

/-- The last stage enables the pipeline, and shows whether it holds a result. -/
theorem settled_output (h : Controlled m parts latency) (hf : Flattens m parts flat)
    (hlatency : 0 < latency) (hx : flat.circuit.Settled x) (hfits : flat.circuit.widths.Fits x) :
    high x enable = (pipeline latency).enabled x ∧
      high x "result_valid" = (pipeline latency).full x := by
  obtain ⟨name, hp⟩ := h.output
  obtain ⟨hready, hvalid⟩ := DataBreak.settled_body .dataless (hf.settled_part h.assembled hp hx)
  have henable : high x enable = high (x ∘ (outputPart name).rename) "ins_ready" :=
    h.bit_out hf hx hfits hp (by simp [outputPart, outputInstance, wire]) rfl
      (by simp [controlBits])
  have hresult : high x "result_valid" = high (x ∘ (outputPart name).rename) "outs_valid" :=
    h.bit_out hf hx hfits hp (by simp [outputPart, outputInstance, wire]) rfl
      (by simp [controlBits])
  have hconsumer : high (x ∘ (outputPart name).rename) "outs_ready" = high x "result_ready" :=
    h.bit_in hf hx hfits hp (by simp [outputPart, outputInstance, wire]) rfl (by simp [controlBits])
  rw [Pipeline.enabled, full_eq hlatency, henable, hready, hconsumer, hresult, hvalid]
  exact ⟨rfl, rfl⟩

/-- The join offers a token when both operands are valid, and takes them together. -/
theorem settled_join (h : Controlled m parts latency) (hf : Flattens m parts flat)
    (hx : flat.circuit.Settled x) (hfits : flat.circuit.widths.Fits x) :
    high x "join_valid" = (pipeline latency).offered x ∧
      high x "lhs_ready" = (high x enable && high x "rhs_valid") ∧
      high x "rhs_ready" = (high x enable && high x "lhs_valid") := by
  obtain ⟨name, hp⟩ := h.join
  obtain ⟨hvalid, hleft, hright⟩ :=
    Join.settled_pair (hf.fits_part h.assembled hp hfits) (hf.settled_part h.assembled hp hx)
  obtain ⟨hfirst, hsecond⟩ := h.join_valid hf hx hfits hp
  have hjoined : high x "join_valid" = high (x ∘ (joinPart name).rename) "outs_valid" :=
    h.bit_out hf hx hfits hp (by simp [joinPart, joinInstance, wire]) rfl (by simp [controlBits])
  have henable : high (x ∘ (joinPart name).rename) "outs_ready" = high x enable :=
    h.bit_in hf hx hfits hp (by simp [joinPart, joinInstance, wire]) rfl (by simp [controlBits])
  -- one connection of two bits drives both ready signals
  have hspread : Spread x (x ((joinPart name).rename "ins_ready")) 0
      [⟨"lhs_ready", 0, m.circuit.widths.width "lhs_ready"⟩,
        ⟨"rhs_ready", 0, m.circuit.widths.width "rhs_ready"⟩] :=
    hf.output_spread h.assembled hx hp (e := .concat ["rhs_ready", "lhs_ready"])
      (by simp [joinPart, joinInstance, wire]) (q := ⟨.output, 2, "ins_ready"⟩) rfl rfl
  rw [h.width_bit (by simp [controlBits]), h.width_bit (by simp [controlBits])] at hspread
  rw [hfirst, hsecond] at hvalid
  rw [hsecond, henable] at hleft
  rw [hfirst, henable] at hright
  refine ⟨hjoined.trans hvalid, ?_, ?_⟩
  · exact (hspread.1 0 Nat.one_pos).trans hleft
  · exact (hspread.2.1 0 Nat.one_pos).trans hright

theorem occupied_slot {i : Nat} (hi : i + 1 < latency) (name : String) :
    (pipeline latency).occupied i x =
      high (x ∘ (delayPart latency name).rename) (DelayBuffer.slotName i) :=
  if_pos hi

theorem occupied_last {i : Nat} (hi : ¬ i + 1 < latency) (name : String) :
    (pipeline latency).occupied i x = high (x ∘ (outputPart name).rename) "valid_reg" :=
  if_neg hi

/-- A slot of the delay buffer takes over the one before it, the first one what the join offers. -/
theorem step_slot (h : Controlled m parts latency) (hf : Flattens m parts flat)
    (hxy : flat.circuit.Step x y) {i : Nat} (hi : i + 1 < latency) :
    (pipeline latency).occupied i y =
      if (pipeline latency).reset x then false
      else if (pipeline latency).enabled x then
        (if i = 0 then (pipeline latency).offered x else (pipeline latency).occupied (i - 1) x)
      else (pipeline latency).occupied i x := by
  obtain ⟨name, hp⟩ := h.delay
  obtain ⟨henable, -⟩ := h.settled_output hf (by omega) hxy.settled hxy.fits
  obtain ⟨hjoined, -⟩ := h.settled_join hf hxy.settled hxy.fits
  have hstep := hf.step_part h.assembled hp hxy
  have hregister := DelayBuffer.mem_registers (by omega) (by omega : i < latency - 1)
  have hnext := DelayBuffer.next_body (by omega) hstep.fits (by omega : i < latency - 1)
  have hrst : high (x ∘ (delayPart latency name).rename) "rst" = high x "rst" :=
    h.bit_in hf hxy.settled hxy.fits hp
      (by simp [delayPart, delayInstance, clockWires, sameName, wire]) rfl
      (by simp [controlBits])
  have hready : high (x ∘ (delayPart latency name).rename) "ready_in" = high x enable :=
    h.bit_in hf hxy.settled hxy.fits hp (by simp [delayPart, delayInstance, wire]) rfl
      (by simp [controlBits])
  have hvalid : high (x ∘ (delayPart latency name).rename) "valid_in" = high x "join_valid" :=
    h.bit_in hf hxy.settled hxy.fits hp (by simp [delayPart, delayInstance, wire]) rfl
      (by simp [controlBits])
  rw [hrst, hready, hvalid, henable, hjoined] at hnext
  rw [occupied_slot hi name, occupied_slot hi name, occupied_slot (by omega) name, high,
    hstep.registers _ hregister]
  exact hnext

/-- The last stage takes over the last slot of the delay buffer. -/
theorem step_last (h : Controlled m parts latency) (hf : Flattens m parts flat)
    (hlatency : 1 < latency) (hxy : flat.circuit.Step x y) :
    (pipeline latency).occupied (latency - 1) y =
      if (pipeline latency).reset x then false
      else if (pipeline latency).enabled x then (pipeline latency).occupied (latency - 1 - 1) x
      else (pipeline latency).occupied (latency - 1) x := by
  obtain ⟨delay, hd⟩ := h.delay
  obtain ⟨output, ho⟩ := h.output
  obtain ⟨henable, -⟩ := h.settled_output hf (by omega) hxy.settled hxy.fits
  have hshown := DelayBuffer.settled_body (by omega) (hf.settled_part h.assembled hd hxy.settled)
  have hstep := hf.step_part h.assembled ho hxy
  obtain ⟨hregister, hnext⟩ := DataBreak.next_valid .dataless hstep.fits
  have hrst : high (x ∘ (outputPart output).rename) "rst" = high x "rst" :=
    h.bit_in hf hxy.settled hxy.fits ho
      (by simp [outputPart, outputInstance, clockWires, sameName, wire]) rfl
      (by simp [controlBits])
  have hready : high x enable = high (x ∘ (outputPart output).rename) "ins_ready" :=
    h.bit_out hf hxy.settled hxy.fits ho (by simp [outputPart, outputInstance, wire]) rfl
      (by simp [controlBits])
  have hvalid : high (x ∘ (outputPart output).rename) "ins_valid" = high x "buff_valid" :=
    h.bit_in hf hxy.settled hxy.fits ho (by simp [outputPart, outputInstance, wire]) rfl
      (by simp [controlBits])
  have hdelayed : high x "buff_valid" = high (x ∘ (delayPart latency delay).rename) "valid_out" :=
    h.bit_out hf hxy.settled hxy.fits hd (by simp [delayPart, delayInstance, wire]) rfl
      (by simp [controlBits])
  rw [hrst, ← hready, hvalid, hdelayed, hshown, henable] at hnext
  rw [occupied_last (x := y) (by omega) output,
    occupied_last (i := latency - 1) (x := x) (by omega) output, occupied_slot (by omega) delay,
    high, hstep.registers _ hregister]
  exact hnext

/-- What a clock edge does to the valid bits of all stages. -/
theorem occupied_step (h : Controlled m parts latency) (hf : Flattens m parts flat)
    (hlatency : 1 < latency) (hxy : flat.circuit.Step x y) {i : Nat} (hi : i < latency) :
    (pipeline latency).occupied i y =
      if (pipeline latency).reset x then false
      else if (pipeline latency).enabled x then
        (if i = 0 then (pipeline latency).offered x else (pipeline latency).occupied (i - 1) x)
      else (pipeline latency).occupied i x := by
  -- all stages but the last are slots of the delay buffer
  by_cases hlast : i + 1 < latency
  · exact h.step_slot hf hxy hlast
  · obtain rfl : i = latency - 1 := by omega
    rw [h.step_last hf hlatency hxy, if_neg (by omega : latency - 1 ≠ 0)]

/-- **The control of an operator is an elastic pipeline.** -/
theorem steps (h : Controlled m parts latency) (hf : Flattens m parts flat) (hlatency : 1 < latency)
    (hxy : flat.circuit.Step x y) : (pipeline latency).Steps x y :=
  .of_stages (Nat.lt_of_succ_lt hlatency) (fun _ hi => h.occupied_step hf hlatency hxy hi)
    (fun _ _ => trivial)
    (fun _ _ _ _ _ => trivial) fun _ _ _ _ _ => trivial

/--
Operands are handed over together, when the pipeline accepts them, and results
when it delivers them.
-/
theorem transfers_eq (h : Controlled m parts latency) (hf : Flattens m parts flat)
    (hlatency : 0 < latency) (hx : flat.circuit.Settled x) (hfits : flat.circuit.widths.Fits x) :
    transfers "lhs" x = (pipeline latency).accepts x ∧
      transfers "rhs" x = (pipeline latency).accepts x ∧
      transfers "result" x = (pipeline latency).delivers x := by
  obtain ⟨henable, hresult⟩ := h.settled_output hf hlatency hx hfits
  obtain ⟨-, hleft, hright⟩ := h.settled_join hf hx hfits
  rw [henable] at hleft hright
  have haccepts : (pipeline latency).accepts x =
      (high x "lhs_valid" && high x "rhs_valid" && (pipeline latency).enabled x) := rfl
  refine ⟨?_, ?_, ?_⟩
  · show (high x "lhs_valid" && high x "lhs_ready") = _
    rw [haccepts, hleft, Bool.and_assoc, Bool.and_comm (high x "rhs_valid")]
  · show (high x "rhs_valid" && high x "rhs_ready") = _
    rw [haccepts, hright, Bool.and_comm (high x "lhs_valid"), Bool.and_assoc,
      Bool.and_comm (high x "lhs_valid")]
  · show (high x "result_valid" && high x "result_ready") = _
    rw [hresult]
    rfl

/-- An operator takes both operands or neither of them. -/
theorem operands_paired (h : Controlled m parts latency) (hf : Flattens m parts flat)
    (hlatency : 0 < latency) (hx : flat.circuit.Settled x) (hfits : flat.circuit.widths.Fits x) :
    transfers "lhs" x = transfers "rhs" x := by
  obtain ⟨hleft, hright, -⟩ := h.transfers_eq hf hlatency hx hfits
  rw [hleft, hright]

/-- The valid bits of the stages are registers. -/
theorem mem_registers (h : Controlled m parts latency) (hf : Flattens m parts flat) (i : Nat) :
    ∃ name ∈ flat.circuit.registers, ∀ x, (pipeline latency).occupied i x = high x name := by
  by_cases hlast : i + 1 < latency
  · obtain ⟨name, hp⟩ := h.delay
    have hregister := DelayBuffer.mem_registers (by omega) (by omega : i < latency - 1)
    exact ⟨_, (hf.includes h.assembled hp).mem_registers hregister,
      fun x => occupied_slot hlast name⟩
  · obtain ⟨name, hp⟩ := h.output
    have hregister : "valid_reg" ∈ (DataBreak.body 0).circuit.registers := by decide
    exact ⟨_, (hf.includes h.assembled hp).mem_registers hregister,
      fun x => occupied_last hlast name⟩

end Controlled

end Operator

end Handshake
