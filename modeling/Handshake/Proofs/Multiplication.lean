import Handshake.Proofs.ExtraSignalPairing

/-!
# Products, in order and once

The core of a multiplier has as many stages as its control: one for the
operands, and one for each register of the product. All of them advance under
the signal that enables the control, so that the control, which is a pipeline of
valid bits, says which operands the product in a stage belongs to.

The first stage of the pipeline carries the operands and all later ones their
product, so a token changes its form on the way; that the last stage carries the
product of what entered is then a fact about pipelines. With extra signals the
multiplier stands inside of a wrapper, which hands operands and results through
to it. In both forms the operands are taken in pairs, since they meet in a join.
-/

namespace Handshake

/-- Cutting a product to some bits is multiplying modulo a power of two. -/
theorem Word.toNat_low_mul {width : Nat} (h : width ≤ wordBits) (a b : Word) :
    ((a * b).low width).toNat = a.toNat * b.toNat % 2 ^ width := by
  rw [toNat_low, BitVec.toNat_mul]
  exact Nat.mod_mod_of_dvd _ (Nat.pow_dvd_pow 2 h)

namespace Multiplier

open Operator

/-- A multiplier as a pipeline: the first stage has the operands, the others their product. -/
def pipeline (width : Nat) : Pipeline State :=
  { Operator.pipeline latency with
    carries := fun i x origin =>
      match i with
      | 0 => x "multiply_unit__a_reg" = origin "lhs" ∧ x "multiply_unit__b_reg" = origin "rhs"
      | i + 1 => x ("multiply_unit__" ++ productName i) = (origin "lhs" * origin "rhs").low width }

section

variable {width : Nat} {core join delay output : String} {flat : Module} {x y : State}
  (h : 0 < width) (hbound : width ≤ wordBits)
  (hf : Flattens (operatorBody width core join delay output)
    (operatorParts width core join delay output) flat)
include h hbound hf

/-- What the core is connected to. -/
theorem core_wires (hx : flat.circuit.Settled x) (hfits : flat.circuit.widths.Fits x) :
    high x "multiply_unit__ce" = (pipeline width).enabled x ∧ x "multiply_unit__a" = x "lhs" ∧
      x "multiply_unit__b" = x "rhs" ∧ x "result" = x "multiply_unit__p" := by
  have hm := controlled_operator core join delay output h hbound
  have hcore : corePart width core ∈ operatorParts width core join delay output := by
    simp [operatorParts]
  have hdata : ∀ name ∈ ["lhs", "rhs", "result"],
      (operatorBody width core join delay output).circuit.widths.width name =
        width := fun name hname =>
    Module.width_eq hm.assembled.distinct
      (data_body join delay output [.inst (coreInstance core)] h name hname)
  obtain ⟨henable, -⟩ := hm.settled_output hf (by decide) hx hfits
  refine ⟨?_, ?_, ?_, ?_⟩
  · have hce : high (x ∘ (corePart width core).rename) "ce" = high x enable :=
      hm.bit_in hf hx hfits hcore (by simp [corePart, coreInstance, wire]) rfl
        (by simp [controlBits])
    exact hce.trans henable
  · exact hf.input_ident hm.assembled hx hfits hcore "a" "lhs"
      (by simp [corePart, coreInstance, wire]) (q := .input width "a") rfl rfl (hdata _ (by simp))
  · exact hf.input_ident hm.assembled hx hfits hcore "b" "rhs"
      (by simp [corePart, coreInstance, wire]) (q := .input width "b") rfl rfl (hdata _ (by simp))
  · exact hf.output_ident hm.assembled hx hfits hcore "p" "result"
      (by simp [corePart, coreInstance, wire]) (q := .output width "p") rfl rfl (hdata _ (by simp))

/--
The registers of the core move on when the pipeline is enabled, and stay as they
are otherwise.
-/
theorem core_step (hxy : flat.circuit.Step x y) {move : String × String}
    (hmove : move ∈ coreMoves) :
    y ("multiply_unit__" ++ move.1) =
      if (pipeline width).enabled x then x ("multiply_unit__" ++ move.2)
      else x ("multiply_unit__" ++ move.1) := by
  have hm := controlled_operator core join delay output h hbound
  have hcore : corePart width core ∈ operatorParts width core join delay output := by
    simp [operatorParts]
  obtain ⟨henable, -⟩ := core_wires h hbound hf hxy.settled hxy.fits
  have hstep := hf.step_part hm.assembled hcore hxy
  obtain ⟨hregister, hnext⟩ := next_core hbound hstep.fits hmove
  rw [← henable]
  exact (hstep.registers _ hregister).trans hnext

theorem core_product (hx : flat.circuit.Settled x) (hfits : flat.circuit.widths.Fits x) :
    x "multiply_unit__mul" = (x "multiply_unit__a_reg" * x "multiply_unit__b_reg").low width ∧
      x "result" = x ("multiply_unit__" ++ productName 2) := by
  have hm := controlled_operator core join delay output h hbound
  have hcore : corePart width core ∈ operatorParts width core join delay output := by
    simp [operatorParts]
  obtain ⟨-, -, -, hresult⟩ := core_wires h hbound hf hx hfits
  obtain ⟨hmul, hlast⟩ := settled_core hbound (hf.settled_part hm.assembled hcore hx)
    (hf.fits_part hm.assembled hcore hfits)
  exact ⟨hmul, hresult.trans hlast⟩

/-- **A multiplier is an elastic pipeline.** -/
theorem steps (hxy : flat.circuit.Step x y) : (pipeline width).Steps x y := by
  have hm := controlled_operator core join delay output h hbound
  obtain ⟨-, hleft, hright, -⟩ := core_wires h hbound hf hxy.settled hxy.fits
  obtain ⟨hmul, -⟩ := core_product h hbound hf hxy.settled hxy.fits
  have hmoved : (pipeline width).enabled x = true → ∀ move ∈ coreMoves,
      y ("multiply_unit__" ++ move.1) = x ("multiply_unit__" ++ move.2) := by
    intro henabled move hmove
    rw [core_step h hbound hf hxy hmove, if_pos henabled]
  have hkept : (pipeline width).enabled x = false → ∀ move ∈ coreMoves,
      y ("multiply_unit__" ++ move.1) = x ("multiply_unit__" ++ move.1) := by
    intro hstalled move hmove
    rw [core_step h hbound hf hxy hmove, hstalled, if_neg Bool.false_ne_true]
  refine .of_stages (show 0 < latency by decide)
    (fun i hi => hm.occupied_step hf (by decide) hxy hi) ?_ ?_ ?_
  · intro henabled _
    exact ⟨(hmoved henabled ("a_reg", "a") (by decide)).trans hleft,
      (hmoved henabled ("b_reg", "b") (by decide)).trans hright⟩
  · intro henabled i hi o ho
    cases i with
    | zero =>
        obtain ⟨ha, hb⟩ := ho
        -- behind the first stage the operands turn into their product
        rw [ha, hb] at hmul
        exact (hmoved henabled (productName 0, "mul") (by decide)).trans hmul
    | succ i =>
        have hnext : ∀ i < latency - 2,
            (productName (i + 1), productName i) ∈ coreMoves := by decide
        exact (hmoved henabled _ (hnext i (Nat.lt_sub_of_add_lt hi))).trans ho
  · intro hstalled i hi o ho
    cases i with
    | zero =>
        obtain ⟨ha, hb⟩ := ho
        exact ⟨(hkept hstalled ("a_reg", "a") (by decide)).trans ha,
          (hkept hstalled ("b_reg", "b") (by decide)).trans hb⟩
    | succ i =>
        have hregister : ∀ i < latency - 1, ∃ move ∈ coreMoves, move.1 = productName i := by decide
        obtain ⟨move, hmove, hname⟩ := hregister i (Nat.lt_sub_of_add_lt hi)
        exact (hname ▸ hkept hstalled move hmove).trans ho

theorem start_empty {states : List State} (hb : flat.circuit.Behaves (fun _ => 0) states) :
    ∀ x ∈ states.head?, ∀ i < (pipeline width).depth, (pipeline width).occupied i x = false := by
  intro x hx i _
  obtain ⟨name, hname, hoccupied⟩ :=
    (controlled_operator core join delay output h hbound).mem_registers hf i
  exact (hoccupied x).trans (hb.low_start hx hname)

/-- The result that is delivered is the product of the operands that were accepted. -/
theorem result_of_carries (hx : flat.circuit.Settled x) (hfits : flat.circuit.widths.Fits x)
    (hcarries : (pipeline width).carries ((pipeline width).depth - 1) x y) :
    (x "result").toNat = (y "lhs").toNat * (y "rhs").toNat % 2 ^ width := by
  obtain ⟨-, hresult⟩ := core_product h hbound hf hx hfits
  have hproduct : x ("multiply_unit__" ++ productName 2) = (y "lhs" * y "rhs").low width := hcarries
  rw [hresult, hproduct, Word.toNat_low_mul hbound]

/-- **Results are the products of the operands, in their order.** -/
theorem products_in_order {states : List State} (hb : flat.circuit.Behaves (fun _ => 0) states) :
    Pipeline.InOrder (Pipeline.sinceReset (high · "rst") states) latency (transfers "lhs")
      (transfers "result")
      fun x origin => (x "result").toNat =
        (origin "lhs").toNat * (origin "rhs").toNat % 2 ^ width := by
  have hm := controlled_operator core join delay output h hbound
  have hsteps := hb.isChain_step.imp fun x y hxy => steps h hbound hf hxy
  have horder :=
    Pipeline.delivered_in_order hsteps (start_empty h hbound hf hb) (show 0 < latency by decide)
  have htransfers : ∀ x ∈ Pipeline.sinceReset (pipeline width).reset states,
      transfers "lhs" x = (pipeline width).accepts x ∧
        transfers "rhs" x = (pipeline width).accepts x ∧
        transfers "result" x = (pipeline width).delivers x := by
    intro x hx
    have hx := Pipeline.mem_of_mem_sinceReset hx
    exact hm.transfers_eq hf (by decide) (hb.settled x hx) (hb.fits x hx)
  refine horder.congr (fun x hx => (htransfers x hx).1) (fun x hx => (htransfers x hx).2.2) ?_
  intro x hx o _ hcarries
  have hx := Pipeline.mem_of_mem_sinceReset hx
  exact result_of_carries h hbound hf (hb.settled x hx) (hb.fits x hx) hcarries

/--
A wrapper passes operands and results on to the multiplier inside, and so it
multiplies as well.
-/
theorem products_in_order_wrapped {inner line : String} {extra : ExtraSignals} {layout : Layout}
    {whole : Module} (hwrap : Manager.Wrappable width latency extra layout flat)
    (hw : Flattens (Manager.wrapper inner line width extra layout)
      (Manager.wrapperParts inner line latency extra flat) whole)
    {states : List State} (hb : whole.circuit.Behaves (fun _ => 0) states) :
    Pipeline.InOrder (Pipeline.sinceReset (high · "rst") states) latency (transfers "lhs")
      (transfers "result")
      fun x origin => (x "result").toNat =
        (origin "lhs").toNat * (origin "rhs").toNat % 2 ^ width := by
  -- a run of the wrapper is, seen from inside, a run of the multiplier
  have horder := products_in_order h hbound hf (hw.restrict hwrap.assembled Manager.mem_inner hb)
  rw [Pipeline.sinceReset_map] at horder
  have hreset : Pipeline.sinceReset (high · "rst") states =
      Pipeline.sinceReset (fun x => high x ("inner__" ++ "rst")) states :=
    Pipeline.sinceReset_congr fun x hx =>
      (hwrap.inner_high hw (hb.settled x hx) (hb.fits x hx) (by decide)).symm
  rw [hreset]
  refine horder.of_map.congr ?_ ?_ ?_
  · intro x hx
    have hx := Pipeline.mem_of_mem_sinceReset hx
    exact (hwrap.inner_transfers hw (hb.settled x hx) (hb.fits x hx) "lhs" (by simp)).symm
  · intro x hx
    have hx := Pipeline.mem_of_mem_sinceReset hx
    exact (hwrap.inner_transfers hw (hb.settled x hx) (hb.fits x hx) "result" (by simp)).symm
  · intro x hx o ho hproduct
    have hx := Pipeline.mem_of_mem_sinceReset hx
    have ho := Pipeline.mem_of_mem_sinceReset ho
    rw [← hwrap.inner_eq hw (hb.settled x hx) (hb.fits x hx)
      (by decide : "result" ∈ (Manager.innerPorts 0).map Port.name),
      ← hwrap.inner_eq hw (hb.settled o ho) (hb.fits o ho)
      (by decide : "lhs" ∈ (Manager.innerPorts 0).map Port.name),
      ← hwrap.inner_eq hw (hb.settled o ho) (hb.fits o ho)
      (by decide : "rhs" ∈ (Manager.innerPorts 0).map Port.name)]
    exact hproduct

end

/--
An artifact whose flattening can be simulated, takes its operands in pairs, and
delivers products of operands of some width.
-/
structure Multiplies (a : Artifact) (width : Nat) (m : Module) : Prop where
  flatten : a.flatten = .ok m
  wellFormed : m.WellFormed
  acyclic : ∃ rank, m.circuit.Acyclic rank
  paired : ∀ states, m.circuit.Behaves (fun _ => 0) states →
    ∀ x ∈ states, transfers "lhs" x = transfers "rhs" x
  products : ∀ states, m.circuit.Behaves (fun _ => 0) states →
    Pipeline.InOrder (Pipeline.sinceReset (high · "rst") states) a.latency (transfers "lhs")
      (transfers "result")
      fun x origin => (x "result").toNat = (origin "lhs").toNat * (origin "rhs").toNat % 2 ^ width

variable {id : Identity} {a : Artifact} {width : Nat} {extra : ExtraSignals}

theorem multiplies_plain (ha : generate id width = .ok a) (h : 0 < width)
    (hbound : width ≤ wordBits) : ∃ m, Multiplies a width m := by
  obtain ⟨core, join, delay, output, flat, hflat⟩ := generate_flat ha h hbound
  obtain ⟨rank, hrank, -⟩ := hflat.flattens.exists_rank hflat.controlled.assembled hflat.ranked
  have hlatency : a.latency = latency := by
    rw [Artifact.latency, Artifact.top?, (generate_ok ha).1]
    rfl
  refine ⟨flat, hflat.flatten, hflat.flattens.wellFormed hflat.controlled.assembled,
    ⟨rank, hrank⟩, ?_, ?_⟩
  · intro states hb x hx
    exact hflat.controlled.operands_paired hflat.flattens (by decide) (hb.settled x hx)
      (hb.fits x hx)
  · intro states hb
    rw [hlatency]
    exact products_in_order h hbound hflat.flattens hb

theorem multiplies_wrapped (hne : extra.signals ≠ [])
    (ha : Operator.generate id (.signalManaged width extra) latency
      (fun coreId => generate coreId width) = .ok a) (h : 0 < width) (hbound : width ≤ wordBits)
    (htotal : extra.totalWidth ≤ wordBits) :
    ∃ m, Multiplies a width m := by
  obtain ⟨hlatency, m, parts, flat, whole, ⟨core, join, delay, output, rfl, rfl⟩, hwrapped⟩ :=
    Operator.generate_wrapped
      (P := fun m parts => ∃ core join delay output, m = operatorBody width core join delay output ∧
        parts = operatorParts width core join delay output)
      (fun sub hsub => (generate_ok hsub).2.2)
      (fun sub hsub => by
        obtain ⟨core, join, delay, output, flat, hflat⟩ := generate_flat hsub h hbound
        exact ⟨_, _, flat, ⟨core, join, delay, output, rfl, rfl⟩, hflat⟩) ha h hbound (by decide)
          hne htotal
  obtain ⟨inner, line, layout, hwrap, hw⟩ := hwrapped.wraps
  refine ⟨whole, hwrapped.flatten, hwrapped.wellFormed, hwrapped.acyclic, ?_, ?_⟩
  · intro states hb x hx
    exact hwrap.operands_paired hw hwrapped.flattens hwrapped.controlled (hb.settled x hx)
      (hb.fits x hx)
  · intro states hb
    rw [hlatency]
    exact products_in_order_wrapped h hbound hwrapped.flattens hwrap hw hb

end Multiplier

/--
**A multiplier delivers products, in order and once.** In every cycle it takes
both operands or neither of them. Since the last reset, the `k`-th result is the
product of the `k`-th pair of operands, modulo the power of two of their width,
with or without extra signals.
-/
theorem products_delivered {request : Request} {a : Artifact} {width : Nat} {extra : ExtraSignals}
    (hkind : request.kind = "muli") (ha : generate request = .ok a)
    (hwidth : request.params.count .bitwidth = .ok width) (hbound : width ≤ wordBits)
    (hextra : request.params.extraSignals = .ok extra) (htotal : extra.totalWidth ≤ wordBits) :
    ∃ m, a.flatten = .ok m ∧
      ∀ cycles : List (List (String × Word)), (∀ inputs ∈ cycles, ∀ i ∈ inputs, i.1 ∈ m.inputs) →
        ∃ trace, (Simulator.start m).run cycles = .ok trace ∧ trace.length = cycles.length ∧
          (∀ s ∈ trace, transfers "lhs" s.get = transfers "rhs" s.get) ∧
          Pipeline.InOrder (Pipeline.sinceReset (high · "rst") (trace.map Simulator.get))
            a.latency (transfers "lhs") (transfers "result")
            fun x origin => (x "result").toNat =
              (origin "lhs").toNat * (origin "rhs").toNat % 2 ^ width := by
  obtain ⟨id, -, hunit⟩ := bind_ok ha
  rw [hkind] at hunit
  obtain ⟨width', extra', hwidth', hextra', hpos, hgenerate⟩ := Multiplier.ofParams_ok hunit
  obtain rfl : width' = width := Except.ok.inj (hwidth'.symm.trans hwidth)
  obtain rfl : extra' = extra := Except.ok.inj (hextra'.symm.trans hextra)
  have hmultiplies : ∃ m, Multiplier.Multiplies a width' m := by
    by_cases hempty : extra'.signals = []
    · rw [Variant.of, if_pos (by simp [ExtraSignals.isEmpty, hempty]),
        if_neg (Nat.ne_of_gt hpos)] at hgenerate
      exact Multiplier.multiplies_plain hgenerate hpos hbound
    · rw [Variant.of_extra hempty] at hgenerate
      exact Multiplier.multiplies_wrapped hempty hgenerate hpos hbound htotal
  obtain ⟨m, h⟩ := hmultiplies
  obtain ⟨rank, hrank⟩ := h.acyclic
  refine ⟨m, h.flatten, fun cycles hcycles => ?_⟩
  obtain ⟨trace, hrun, hlength, hb⟩ := h.wellFormed.run_start hrank hcycles
  refine ⟨trace, hrun, hlength, fun s hs => ?_, h.products _ hb⟩
  exact h.paired _ hb s.get (List.mem_map_of_mem hs)

/-- A multiplier for eight bits with a tag. -/
theorem products_delivered_tag :
    ∃ a m trace, generate (.withSignal "muli" "tag") = .ok a ∧ a.flatten = .ok m ∧
      (Simulator.start m).run lateConsumer = .ok trace ∧ trace.length = 6 ∧
      (∀ s ∈ trace, transfers "lhs" s.get = transfers "rhs" s.get) ∧
      Pipeline.InOrder (Pipeline.sinceReset (high · "rst") (trace.map Simulator.get)) a.latency
        (transfers "lhs") (transfers "result")
        fun x origin => (x "result").toNat =
          (origin "lhs").toNat * (origin "rhs").toNat % 2 ^ 8 := by
  have hmade : ∃ a ∈ (generate (.withSignal "muli" "tag")).toOption,
      ∃ m ∈ a.flatten.toOption, ∀ inputs ∈ lateConsumer, ∀ i ∈ inputs, i.1 ∈ m.inputs := by
        decide +kernel
  have hwidth : 8 ∈ ((Request.withSignal "muli" "tag").params.count .bitwidth).toOption := by
    decide +kernel
  have hsignals : ∃ extra ∈ (Request.withSignal "muli" "tag").params.extraSignals.toOption,
      extra.totalWidth ≤ wordBits := by decide +kernel
  obtain ⟨a, ha, m, hm, hinputs⟩ := hmade
  obtain ⟨extra, hextra, htotal⟩ := hsignals
  obtain ⟨m', hm', hruns⟩ := products_delivered rfl (eq_ok_of_mem_toOption ha)
    (eq_ok_of_mem_toOption hwidth) (by decide) (eq_ok_of_mem_toOption hextra) htotal
  obtain rfl : m' = m := Except.ok.inj (hm'.symm.trans (eq_ok_of_mem_toOption hm))
  obtain ⟨trace, hrun, hlength, hpaired, horder⟩ := hruns lateConsumer hinputs
  exact ⟨a, m', trace, eq_ok_of_mem_toOption ha, hm', hrun, hlength, hpaired, horder⟩

end Handshake
