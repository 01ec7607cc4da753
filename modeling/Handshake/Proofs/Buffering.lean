import Handshake.Proofs.Persistence

/-!
# One-slot buffers are queues of one token

Both buffers have room for one token and differ in when they take one. The
buffer that cuts the ready path takes a token while it is empty, and shows it at
once. The buffer that cuts the data path shows only what it holds, and takes a
token also while the one it holds is being taken. Either way what was held and
what came in is what went out and what is held next, so that tokens leave in the
order in which they came.

Both are places for one token (`Cell`), one through which tokens pass and one
that stores them, and conservation in one cycle makes a run of either of them a
queue. A wrapper with extra signals shows the unit inside, so its tokens are the
payloads of that unit cut into fields; order and number are the same.
-/

namespace Handshake

namespace Slot

/--
A slot that shows only what it holds takes a token while it is empty, and while
its token is being taken.
-/
def isOpen {σ τ : Type} (p : Slot σ τ) (s : σ) : Bool := (p.held s).isNone || p.ready s

/-- The place for a token behind a slot that shows only what it holds. -/
def storing {σ τ : Type} (p : Slot σ τ) : Cell σ τ where
  reset := p.reset
  held := p.held
  accepted s := if p.isOpen s then p.offered s else none
  delivered s := if p.ready s then p.held s else none
  kept s := if p.isOpen s then p.offered s else p.held s
  balanced s := by
    unfold isOpen
    cases p.held s <;> cases p.ready s <;> simp

/-- A slot between the ports of a buffer, whose registers are a flag and the payload. -/
def between (flag : String) (width : Nat) : Slot State Word where
  reset x := high x "rst"
  offered x := if high x "ins_valid" then some ((x "ins").low width) else none
  ready x := high x "outs_ready"
  held x := if high x flag then some ((x "data_reg").low width) else none

section

variable (flag : String) (width : Nat) (x : State)

theorem reset_between : (between flag width).reset x = high x "rst" := rfl

theorem offered_between :
    (between flag width).offered x =
      if high x "ins_valid" then some ((x "ins").low width) else none :=
  rfl

theorem ready_between : (between flag width).ready x = high x "outs_ready" := rfl

theorem held_between :
    (between flag width).held x = if high x flag then some ((x "data_reg").low width) else none :=
  rfl

theorem isOpen_between : (between flag width).isOpen x = (!high x flag || high x "outs_ready") := by
  rw [isOpen, held_between, ready_between]
  cases high x flag <;> rfl

end

end Slot

/-- The payload that is handed over at a port. -/
def handedPayload (port : String) (width : Nat) (x : State) : Option Word :=
  if transfers port x then some ((x port).low width) else none

/--
The token that is handed over at a port: the payload, unless that is empty, and
the extra signals.
-/
def handedToken (port : String) (width : Nat) (extra : ExtraSignals) (x : State) :
    Option (List Word) :=
  if transfers port x then some ((tokenNames port width extra).map x) else none

/-! ## The two buffers -/

namespace ReadyBreak

variable {width : Nat} (h : Lanes 1 width) {x y : State}
include h

/-- The output shows what the slot is to show. -/
theorem shown_eq (hx : (body width).circuit.Settled x)
    (hfits : (body width).circuit.widths.Fits x) :
    (Slot.between "full" width).shown x =
      if high x "outs_valid" then some ((x "outs").low width) else none := by
  obtain ⟨-, hvalid, houts⟩ := settled_body h hfits hx
  have hpayload : (x "outs").low width =
      (if high x "full" then x "data_reg" else x "ins").low width :=
    Word.low_congr fun hw => by rw [houts hw]
  rw [Slot.shown, Slot.held_between, Slot.offered_between, hvalid, hpayload]
  cases high x "full" <;> cases high x "ins_valid" <;> rfl

/-- A token that is shown and refused is kept. -/
theorem steps (hxy : (body width).circuit.Step x y) : (Slot.between "full" width).Steps x y := by
  have hfull : high y "full" =
      if high x "rst" then false else high x "outs_valid" && !high x "outs_ready" :=
    (congrArg (BitVec.getLsbD · 0) (hxy.registers _ (mem_registers_full width))).trans
      (next_full h hxy.fits)
  have hdata : (y "data_reg").low width = (x "outs").low width := by
    refine Word.low_congr fun hw => ?_
    obtain ⟨hregister, hnext⟩ := next_data h hxy.fits hxy.settled hw
    rw [hxy.registers _ hregister, hnext]
  rw [Slot.Steps, Slot.kept, shown_eq h hxy.settled hxy.fits, Slot.held_between, Slot.reset_between,
    Slot.ready_between, hfull, hdata]
  cases high x "rst" <;> cases high x "outs_valid" <;> cases high x "outs_ready" <;> rfl

theorem accepted_eq (hx : (body width).circuit.Settled x)
    (hfits : (body width).circuit.widths.Fits x) :
    handedPayload "ins" width x = (Slot.between "full" width).accepted x := by
  have hins : transfers "ins" x = (high x "ins_valid" && high x "ins_ready") := rfl
  rw [handedPayload, hins, (settled_body h hfits hx).1, Slot.accepted, Slot.held_between,
    Slot.offered_between]
  cases high x "full" <;> cases high x "ins_valid" <;> rfl

theorem delivered_eq (hx : (body width).circuit.Settled x)
    (hfits : (body width).circuit.widths.Fits x) :
    handedPayload "outs" width x = (Slot.between "full" width).delivered x := by
  have houts : transfers "outs" x = (high x "outs_valid" && high x "outs_ready") := rfl
  rw [handedPayload, houts, Slot.delivered, shown_eq h hx hfits, Slot.ready_between]
  cases high x "outs_valid" <;> cases high x "outs_ready" <;> rfl

theorem conveys {states : List State} (hb : (body width).circuit.Behaves (fun _ => 0) states) :
    Conveys (Pipeline.sinceReset (high · "rst") states) 1 (handedPayload "ins" width)
      (handedPayload "outs" width) := by
  have hsteps := hb.isChain_step.imp fun x y hxy => steps h hxy
  have hstart : ∀ x ∈ states.head?, (Slot.between "full" width).held x = none := fun x hx =>
    if_neg (Bool.eq_false_iff.mp (hb.low_start hx (mem_registers_full width)))
  refine (Slot.conveys hsteps hstart).congr (fun x hx => ?_) fun x hx => ?_
  · have hx := Pipeline.mem_of_mem_sinceReset hx
    exact accepted_eq h (hb.settled x hx) (hb.fits x hx)
  · have hx := Pipeline.mem_of_mem_sinceReset hx
    exact delivered_eq h (hb.settled x hx) (hb.fits x hx)

end ReadyBreak

namespace DataBreak

variable {width : Nat} (h : Lanes 1 width) {x y : State}
include h

theorem isOpen_eq (hx : (body width).circuit.Settled x) :
    (Slot.between "valid_reg" width).isOpen x = high x "ins_ready" := by
  rw [(settled_body h hx).1, Slot.isOpen_between]

/-- While the slot is open it holds next what is offered; otherwise it holds what it held. -/
theorem stores (hxy : (body width).circuit.Step x y) :
    (Slot.between "valid_reg" width).storing.Steps x y := by
  obtain ⟨hregister, hnext⟩ := next_valid h hxy.fits
  have hvalid : high y "valid_reg" =
      if high x "rst" then false
      else if high x "ins_ready" then high x "ins_valid"
      else high x "valid_reg" :=
    (congrArg (BitVec.getLsbD · 0) (hxy.registers _ hregister)).trans hnext
  have hdata : (y "data_reg").low width =
      (if high x "ins_ready" && high x "ins_valid" then x "ins" else x "data_reg").low width := by
    refine Word.low_congr fun hw => ?_
    obtain ⟨hregister, hnext⟩ := next_data h hxy.fits hw
    rw [hxy.registers _ hregister, hnext]
  show (Slot.between "valid_reg" width).held y =
    if (Slot.between "valid_reg" width).reset x then none
    else if (Slot.between "valid_reg" width).isOpen x then
      (Slot.between "valid_reg" width).offered x
    else (Slot.between "valid_reg" width).held x
  rw [isOpen_eq h hxy.settled, Slot.reset_between, Slot.offered_between, Slot.held_between,
    Slot.held_between, hvalid, hdata]
  cases high x "rst" <;> cases high x "ins_ready" <;> cases high x "ins_valid" <;> rfl

theorem accepted_eq (hx : (body width).circuit.Settled x) :
    handedPayload "ins" width x = (Slot.between "valid_reg" width).storing.accepted x := by
  have hins : transfers "ins" x = (high x "ins_valid" && high x "ins_ready") := rfl
  show _ = if (Slot.between "valid_reg" width).isOpen x then
    (Slot.between "valid_reg" width).offered x else none
  rw [handedPayload, hins, isOpen_eq h hx, Slot.offered_between]
  cases high x "ins_valid" <;> cases high x "ins_ready" <;> rfl

theorem delivered_eq (hx : (body width).circuit.Settled x)
    (hfits : (body width).circuit.widths.Fits x) :
    handedPayload "outs" width x = (Slot.between "valid_reg" width).storing.delivered x := by
  have houts : transfers "outs" x = (high x "outs_valid" && high x "outs_ready") := rfl
  have hfull : high x "outs_valid" = high x "valid_reg" := (settled_body h hx).2
  have hpayload : (x "outs").low width = (x "data_reg").low width :=
    Word.low_congr fun hw => by rw [settled_outs h hx hfits hw]
  show _ = if (Slot.between "valid_reg" width).ready x then (Slot.between "valid_reg" width).held x
    else none
  rw [handedPayload, houts, hfull, hpayload, Slot.ready_between, Slot.held_between]
  cases high x "valid_reg" <;> cases high x "outs_ready" <;> rfl

theorem conveys {states : List State} (hb : (body width).circuit.Behaves (fun _ => 0) states) :
    Conveys (Pipeline.sinceReset (high · "rst") states) 1 (handedPayload "ins" width)
      (handedPayload "outs" width) := by
  have hsteps := hb.isChain_step.imp fun x y hxy => stores h hxy
  have hstart : ∀ x ∈ states.head?, (Slot.between "valid_reg" width).storing.held x = none := by
    intro x hx
    have hregister := (next_valid h (hb.fits x (List.mem_of_head? hx))).1
    exact if_neg (Bool.eq_false_iff.mp (hb.low_start hx hregister))
  refine (Cell.conveys hsteps hstart).congr (fun x hx => ?_) fun x hx => ?_
  · have hx := Pipeline.mem_of_mem_sinceReset hx
    exact accepted_eq h (hb.settled x hx)
  · have hx := Pipeline.mem_of_mem_sinceReset hx
    exact delivered_eq h (hb.settled x hx) (hb.fits x hx)

end DataBreak

/-! ## Requests -/

section

variable {kind : UnitKind} {id : Identity} {a : Artifact} {width : Nat} {extra : ExtraSignals}
    {m : Module} {states : List State}

/-- A unit that hands tokens of one channel on is one of the two buffers. -/
theorem Forwarding.conveys {generate : Identity → Nat → Except Error Artifact}
    (h : Forwarding kind none generate) (ha : generate id width = .ok a)
    (hbounded : ∀ b ∈ a.blocks, ∀ s ∈ b.content.signals, s.2 ≤ wordBits) (hm : a.flatten = .ok m)
    (hb : m.circuit.Behaves (fun _ => 0) states) :
    Conveys (Pipeline.sinceReset (high · "rst") states) 1 (handedPayload "ins" width)
      (handedPayload "outs" width) := by
  cases h with
  | readyBreak | readyBuffer =>
      have hbody := hb.of_finish ha (instancesOf_readyBreak width) hm
      exact ReadyBreak.conveys (.of_finish Nat.one_pos ha rfl hbounded) hbody
  | dataBreak | dataBuffer =>
      have hbody := hb.of_finish ha (instancesOf_dataBreak width) hm
      exact DataBreak.conveys (.of_finish Nat.one_pos ha rfl hbounded) hbody

/-- Without extra signals a token is its payload. -/
theorem Forwarding.conveys_plain {generate : Identity → Nat → Except Error Artifact}
    (h : Forwarding kind none generate) (hempty : extra.signals = [])
    (ha : generate id width = .ok a)
    (hbounded : ∀ b ∈ a.blocks, ∀ s ∈ b.content.signals, s.2 ≤ wordBits) (hm : a.flatten = .ok m)
    (hb : m.circuit.Behaves (fun _ => 0) states) :
    Conveys (Pipeline.sinceReset (high · "rst") states) 1 (handedToken "ins" width extra)
      (handedToken "outs" width extra) := by
  obtain ⟨m', hsimulates, hports⟩ := h.simulates ha hbounded
  obtain rfl : m' = m := Except.ok.inj (hsimulates.flatten.symm.trans hm)
  have htoken : ∀ x ∈ states, ∀ port ∈ ["ins", "outs"],
      handedToken port width extra x = (handedPayload port width x).map fun w =>
        if 0 < width then [w] else [] := by
    intro x hx port hport
    have hlow : 0 < width → (x port).low width = x port := by
      intro hw
      obtain ⟨hins, houts⟩ := mem_signals_payload hports hw
      rw [Option.getD_none, Nat.one_mul] at hins
      have hmem : ∀ port ∈ ["ins", "outs"], (port, width) ∈ m'.signals := by
        simpa using ⟨hins, houts⟩
      exact Module.low_of_fits hsimulates.wellFormed.distinct (hb.fits x hx) (hmem port hport)
    rw [handedToken, handedPayload, tokenNames, hempty, List.map_nil, List.append_nil]
    cases transfers port x with
    | false => rfl
    | true => by_cases hw : 0 < width <;> simp [ifData, hw, hlow]
  have hconveys := h.conveys ha hbounded hm hb
  rw [← List.map_id (Pipeline.sinceReset (high · "rst") states)] at hconveys
  exact hconveys.of_view (fun x hx => htoken x (Pipeline.mem_of_mem_sinceReset hx) "ins" (by simp))
    fun x hx => htoken x (Pipeline.mem_of_mem_sinceReset hx) "outs" (by simp)

/-- At a wrapper tokens are handed over when they are at the unit inside. -/
theorem Carries.transfers_eq {size : Option Nat} {unit : Artifact} {sub : Module}
    (h : Carries size width extra unit a sub m) {x : State} (hx : m.circuit.Settled x)
    (hfits : m.circuit.widths.Fits x) {port : String} (hport : port ∈ ["ins", "outs"]) :
    transfers port (fun name => x ("inner__" ++ name)) = transfers port x :=
  transfers_congr (h.handshake_eq hx hfits) hport

/-- With extra signals a token is the payload of the unit in the wrapper, cut into fields. -/
theorem Forwarding.conveys_carried {generate : Identity → Nat → Except Error Artifact}
    (h : Forwarding kind none generate) (hne : extra.signals ≠ [])
    (ha : Manager.concat id [⟨"ins", width, extra, none⟩] [⟨"outs", width, extra, none⟩] extra
      generate = .ok a) (hdistinct : a.Distinct)
    (hbounded : ∀ b ∈ a.blocks, ∀ s ∈ b.content.signals, s.2 ≤ wordBits) (hm : a.flatten = .ok m)
    (hb : m.circuit.Behaves (fun _ => 0) states) :
    Conveys (Pipeline.sinceReset (high · "rst") states) 1 (handedToken "ins" width extra)
      (handedToken "outs" width extra) := by
  obtain ⟨unit, sub, whole, hunit, hblocks, hcarries⟩ := h.carries hne ha hdistinct hbounded
  obtain rfl : m = whole := Except.ok.inj (hm.symm.trans hcarries.simulates.flatten)
  obtain ⟨layout, inner, hencases⟩ := hcarries.encases
  -- inside of the wrapper the unit behaves as it does alone
  have hinside := hencases.flattens.restrict hencases.assembled (List.mem_singleton_self _) hb
  have hconveys :=
    h.conveys hunit (fun b hb => hbounded b (hblocks b hb)) hcarries.simulates_unit.flatten hinside
  -- so a token outside is a payload inside, cut along the layout
  have htoken : ∀ x ∈ states, ∀ port ∈ ["ins", "outs"], handedToken port width extra x =
      (handedPayload port (width + extra.totalWidth) fun name => x ("inner__" ++ name)).map fun w =>
        layout.slices.map fun s => (w.down s.lo).low s.width := by
    intro x hx port hport
    have hgroup : (⟨port, width, extra, none⟩ : PortGroup) ∈
        [(⟨"ins", width, extra, none⟩ : PortGroup)] ++ [⟨"outs", width, extra, none⟩] := by
      rcases List.mem_pair.mp hport with rfl | rfl <;> simp
    have hfields := hencases.token_eq (hb.settled x hx) (hb.fits x hx) hgroup rfl
    rw [Layout.total_of hencases.bundles.layout_of] at hfields
    rw [handedToken, handedPayload, hcarries.transfers_eq (hb.settled x hx) (hb.fits x hx) hport,
      tokenNames_eq port width extra none, List.map_map]
    cases transfers port x with
    | false => rfl
    | true => exact congrArg some hfields
  have hreset : Pipeline.sinceReset (high · "rst") states =
      Pipeline.sinceReset (fun x => high x ("inner__" ++ "rst")) states :=
    Pipeline.sinceReset_congr fun x hx =>
      congrArg (BitVec.getLsbD · 0) (hencases.reset_eq (hb.settled x hx) (hb.fits x hx)).symm
  rw [Pipeline.sinceReset_map] at hconveys
  rw [hreset]
  exact hconveys.of_view (fun x hx => htoken x (Pipeline.mem_of_mem_sinceReset hx) "ins" (by simp))
    fun x hx => htoken x (Pipeline.mem_of_mem_sinceReset hx) "outs" (by simp)

/-- The buffers have one channel. -/
theorem Forwarding.size_eq_none {size : Option Nat}
    {generate : Identity → Nat → Except Error Artifact} (h : Forwarding kind size generate)
    (hkind : kind ∈ [.buffer, .readyBreak, .dataBreak]) : size = none := by
  cases h with
  | priorityMerge | merge => exact absurd hkind (by decide)
  | readyBreak | dataBreak | readyBuffer | dataBuffer => rfl

theorem UnitKind.conveys {params : Params} (hkind : kind ∈ [.buffer, .readyBreak, .dataBreak])
    (h : kind.generate id params = .ok a) (hdistinct : a.Distinct)
    (hbounded : ∀ b ∈ a.blocks, ∀ s ∈ b.content.signals, s.2 ≤ wordBits) (hm : a.flatten = .ok m) :
    ∃ width extra, params.count .bitwidth = .ok width ∧ params.extraSignals = .ok extra ∧
      ∀ states, m.circuit.Behaves (fun _ => 0) states →
        Conveys (Pipeline.sinceReset (high · "rst") states) 1 (handedToken "ins" width extra)
          (handedToken "outs" width extra) := by
  have hpass : ∀ kind ∈ [UnitKind.buffer, .readyBreak, .dataBreak],
      kind.passesThrough = true := by decide
  obtain ⟨tag, size, build, hunit, hpassed, -⟩ := kind.generate_forwarding (hpass kind hkind) h
  obtain rfl := hunit.size_eq_none hkind
  obtain ⟨width, extra, hwidth, hextra, ⟨hempty, hplain⟩ | ⟨hne, hconcat⟩⟩ := passThrough_ok hpassed
  · exact ⟨width, extra, hwidth, hextra,
      fun _ hb => hunit.conveys_plain hempty hplain hbounded hm hb⟩
  · exact ⟨width, extra, hwidth, hextra,
      fun _ hb => hunit.conveys_carried hne hconcat hdistinct hbounded hm hb⟩

end

/--
**One-slot buffers are queues of capacity one.** A generated buffer in which no
module declares a name twice and no signal is wider than a word can be simulated
on any inputs. Since the last reset, the tokens that were handed over at the
output, each with its payload and all its extra signals, are the first of those
that were handed over at the input, in their order, and at most one has not
left.
-/
theorem buffered_tokens_in_order {request : Request} {a : Artifact} {kind : UnitKind}
    (hkind : UnitKind.ofTag? request.kind = some kind)
    (hslot : kind ∈ [.buffer, .readyBreak, .dataBreak]) (ha : generate request = .ok a)
    (hdistinct : ∀ b ∈ a.blocks, b.content.declared.Nodup)
    (hbounded : ∀ b ∈ a.blocks, ∀ s ∈ b.content.signals, s.2 ≤ wordBits) :
    ∃ width extra m, request.params.count .bitwidth = .ok width ∧
      request.params.extraSignals = .ok extra ∧
      a.flatten = .ok m ∧
      ∀ cycles : List (List (String × Word)), (∀ inputs ∈ cycles, ∀ i ∈ inputs, i.1 ∈ m.inputs) →
        ∃ trace, (Simulator.start m).run cycles = .ok trace ∧ trace.length = cycles.length ∧
          Conveys (Pipeline.sinceReset (high · "rst") (trace.map Simulator.get)) 1
            (handedToken "ins" width extra)
            (handedToken "outs" width extra) := by
  obtain ⟨hname, kind', hkind', h⟩ := generate_eq_ok_iff.mp ha
  obtain rfl : kind' = kind :=
    Option.some.inj ((UnitKind.ofTag?_eq_some_iff.mpr hkind').symm.trans hkind)
  obtain ⟨m, hflatten, hwf, rank, hrank⟩ := (UnitKind.built h).simulates hdistinct hbounded
  obtain ⟨width, extra, hwidth, hextra, hconveys⟩ :=
    UnitKind.conveys hslot h hdistinct hbounded hflatten
  refine ⟨width, extra, m, hwidth, hextra, hflatten, fun cycles hcycles => ?_⟩
  obtain ⟨trace, hrun, hlength, hb⟩ := hwf.run_start hrank hcycles
  exact ⟨trace, hrun, hlength, hconveys _ hb⟩

/-- After a reset a producer offers one token after the other, and the consumer comes late. -/
def stalledStream : List (List (String × Word)) :=
  [[("rst", 1)], [("rst", 0), ("ins_valid", 1), ("ins", 5), ("ins_tag", 1)],
    [("ins", 6), ("ins_tag", 0)], [("outs_ready", 1)], [("ins_valid", 0)], []]

/-- A buffer with a tag that cuts the data path. -/
theorem buffered_tokens_in_order_stalled :
    ∃ a m trace extra, generate (.withSignal "one_slot_break_dv" "tag") = .ok a ∧
      a.flatten = .ok m ∧
      (Simulator.start m).run stalledStream = .ok trace ∧ trace.length = 6 ∧
      (Request.withSignal "one_slot_break_dv" "tag").params.extraSignals = .ok extra ∧
      tokenNames "outs" 8 extra = ["outs", "outs_tag"] ∧
      Conveys (Pipeline.sinceReset (high · "rst") (trace.map Simulator.get)) 1
        (handedToken "ins" 8 extra)
        (handedToken "outs" 8 extra) := by
  have hmade : ∃ a ∈ (generate (.withSignal "one_slot_break_dv" "tag")).toOption,
      (∀ b ∈ a.blocks, b.content.declared.Nodup) ∧
      (∀ b ∈ a.blocks, ∀ s ∈ b.content.signals, s.2 ≤ wordBits) ∧
      ∃ m ∈ a.flatten.toOption, ∀ inputs ∈ stalledStream, ∀ i ∈ inputs, i.1 ∈ m.inputs := by
    decide +kernel
  have hsignals : ∃ extra ∈ (Request.withSignal "one_slot_break_dv"
      "tag").params.extraSignals.toOption,
      tokenNames "outs" 8 extra = ["outs", "outs_tag"] := by
    decide +kernel
  have hkind : UnitKind.ofTag? (Request.withSignal "one_slot_break_dv" "tag").kind =
      some .dataBreak := by decide
  have hwidth : 8 ∈
      ((Request.withSignal "one_slot_break_dv" "tag").params.count .bitwidth).toOption := by
      decide +kernel
  obtain ⟨a, ha, hdistinct, hbounded, m, hm, hinputs⟩ := hmade
  obtain ⟨extra, hextra, htag⟩ := hsignals
  obtain ⟨width, extra', m', hwidth', hextra', hm', hruns⟩ :=
    buffered_tokens_in_order hkind (by decide) (eq_ok_of_mem_toOption ha) hdistinct hbounded
  obtain rfl : m' = m := Except.ok.inj (hm'.symm.trans (eq_ok_of_mem_toOption hm))
  obtain rfl : extra' = extra := Except.ok.inj (hextra'.symm.trans (eq_ok_of_mem_toOption hextra))
  obtain rfl : width = 8 := Except.ok.inj (hwidth'.symm.trans (eq_ok_of_mem_toOption hwidth))
  obtain ⟨trace, hrun, hlength, hconveys⟩ := hruns stalledStream hinputs
  exact ⟨a, m', trace, extra', eq_ok_of_mem_toOption ha, hm', hrun, hlength, hextra',
    htag, hconveys⟩

end Handshake
