import Handshake.Proofs.Buffering
import Handshake.Proofs.DelayLines

/-!
# The paths that units cut

Settled states with the same registers differ because of their inputs. A signal
is cut off from an input if it is the same in any two such states that differ in
that input only. A slot in front of the consumer keeps the ready bit of the
consumer from all other outputs; registers behind the output keep the whole
producer, and all other inputs, from the token that is offered.

This is a statement about pairs of states (`Twins`), and `Determines` is its
form: some signals are the same in twins if some others are. It is shown for the
slots and the merge by looking at what their outputs read, carried over to
wrappers, whose buses are determined by the fields outside, and for operators
traced to the last stage of the control. What a simulator shows follows from it:
driving an input that does not determine an output cannot be seen there.
-/

namespace Handshake

/-! ## What determines a signal -/

/-- Settled states with the same values in the registers. -/
structure Circuit.Twins (c : Circuit) (x y : State) : Prop where
  settled_left : c.Settled x
  fits_left : c.widths.Fits x
  settled_right : c.Settled y
  fits_right : c.widths.Fits y
  registers : ∀ name ∈ c.registers, x name = y name

/--
What some signals show, once settled, depends on the registers and on some other
signals only.
-/
def Circuit.Determines (c : Circuit) (sources targets : List String) : Prop :=
  ∀ x y, c.Twins x y → (∀ name ∈ sources, x name = y name) → ∀ name ∈ targets, x name = y name

theorem Circuit.Determines.mono {c : Circuit} {sources targets targets' : List String}
    (h : c.Determines sources targets) (htargets : ∀ name ∈ targets', name ∈ targets) :
    c.Determines sources targets' :=
  fun x y hxy hsame name hname => h x y hxy hsame name (htargets name hname)

theorem Word.eq_of_low {v w : Word} {width : Nat} (hv : v.low width = v) (hw : w.low width = w)
    (h : ∀ i < width, v.getLsbD i = w.getLsbD i) : v = w := by
  rw [← hv, ← hw]
  refine BitVec.eq_of_getLsbD_eq fun i _ => ?_
  rw [getLsbD_low, getLsbD_low]
  by_cases hi : i < width
  · rw [h i hi]
  · simp [hi]

/-- A word is made of its channels. -/
theorem Word.eq_of_channels {v w : Word} {count width : Nat} (hv : v.low (count * width) = v)
    (hw : w.low (count * width) = w) (h : ∀ c < count, v.channel width c = w.channel width c) :
    v = w := by
  refine eq_of_low hv hw fun i hi => ?_
  have hwidth : 0 < width := Nat.pos_of_mul_pos_left (Nat.zero_lt_of_lt hi)
  have hchannel := congrArg (BitVec.getLsbD · (i % width))
    (h (i / width) (Nat.div_lt_of_lt_mul (Nat.mul_comm .. ▸ hi)))
  simp only [channel, getLsbD_low, getLsbD_down, Nat.mod_lt i hwidth, decide_true, Bool.and_true,
    Nat.div_add_mod'] at hchannel
  exact hchannel

namespace Circuit.Twins

variable {c : Circuit} {x y : State}

/-- A signal that is assigned as a whole is determined by what is read for it. -/
theorem assign_eq (h : c.Twins x y) {name : String} {value : Expr}
    (ha : ⟨.ident name, value⟩ ∈ c.assigns) (hname : c.widths.Declares name)
    (hreads : ∀ read ∈ value.reads, x read = y read) : x name = y name := by
  have hx := Spread.whole (h.settled_left _ ha)
  have hy := Spread.whole (h.settled_right _ ha)
  rw [h.fits_left name hname] at hx
  rw [h.fits_right name hname] at hy
  rw [hx, hy, Expr.value_congr hreads]

/-- The name of a module has no part in what its circuit does. -/
theorem of_named {m : Module} {name : String} (h : ({ m with name } : Module).circuit.Twins x y) :
    m.circuit.Twins x y :=
  ⟨h.settled_left, h.fits_left, h.settled_right, h.fits_right, h.registers⟩

end Circuit.Twins

theorem Flattens.twins_part {m flat : Module} {parts : List Part} (hf : Flattens m parts flat)
    (h : m.Assembled parts) {p : Part} (hp : p ∈ parts) {x y : State}
    (hxy : flat.circuit.Twins x y) :
    p.2.circuit.Twins (x ∘ p.rename) (y ∘ p.rename) where
  settled_left := hf.settled_part h hp hxy.settled_left
  fits_left := hf.fits_part h hp hxy.fits_left
  settled_right := hf.settled_part h hp hxy.settled_right
  fits_right := hf.fits_part h hp hxy.fits_right
  registers _ hname := hxy.registers _ ((hf.includes h hp).mem_registers hname)

theorem Circuit.Determines.of_finish {id : Identity} {content m : Module} {latency : Nat}
    {a : Artifact} {sources targets : List String} (h : content.circuit.Determines sources targets)
    (ha : (Accumulator.start id).finish content latency = .ok a)
    (hleaf : Item.instancesOf content.items = []) (hm : a.flatten = .ok m) :
    m.circuit.Determines sources targets := by
  obtain rfl : m = { content with name := id.text } :=
    Except.ok.inj (hm.symm.trans (Artifact.flatten_finish ha hleaf))
  exact fun x y hxy => h x y hxy.of_named

/-- Some bits of the handshakes of a unit, and the tokens at some of its ports. -/
structure Side where
  bits : List String
  ports : List String

/-- The signals of a side. -/
def Side.names (side : Side) (width : Nat) (extra : ExtraSignals) : List String :=
  side.bits ++ side.ports.flatMap fun port => tokenNames port width extra

/-- What a producer offers. -/
def Side.producer : Side := ⟨["ins_valid"], ["ins"]⟩

/-- What a consumer is offered. -/
def Side.offer : Side := ⟨["outs_valid"], ["outs"]⟩

/-- All that a unit shows to its neighbours. -/
def Side.shown : Side := ⟨["ins_ready", "outs_valid"], ["outs"]⟩

/-- A unit determines some signals by others, whatever its width. -/
def Cuts (generate : Identity → Nat → Except Error Artifact) (sources targets : Side) : Prop :=
  ∀ id width a m, generate id width = .ok a →
    (∀ b ∈ a.blocks, ∀ s ∈ b.content.signals, s.2 ≤ wordBits) →
    a.flatten = .ok m →
      m.circuit.Determines (sources.names width .empty) (targets.names width .empty)

namespace Side

variable {side : Side} {width : Nat} {extra : ExtraSignals} {P : String → Prop}

theorem forall_names : (∀ name ∈ side.names width extra, P name) ↔
    (∀ bit ∈ side.bits, P bit) ∧
      ∀ port ∈ side.ports, ∀ name ∈ tokenNames port width extra, P name := by
  rw [names, List.forall_mem_append, List.forall_mem_flatMap]

/-- Without extra signals a token is its payload. -/
theorem forall_payloads : (∀ name ∈ side.names width .empty, P name) ↔
    (∀ bit ∈ side.bits, P bit) ∧ (0 < width → ∀ port ∈ side.ports, P port) := by
  simp only [forall_names, tokenNames, ExtraSignals.empty, List.map_nil, List.append_nil,
    forall_mem_ifData, List.forall_mem_singleton]
  exact and_congr_right'
    ⟨fun h hw port hport => h port hport hw, fun h port hport hw => h hw port hport⟩

end Side

/-- All that is shown is determined by what a producer offers, payload or not. -/
theorem Circuit.determines_shown {c : Circuit} {width : Nat}
    (h : ∀ x y, c.Twins x y → x "ins_valid" = y "ins_valid" → (0 < width → x "ins" = y "ins") →
      x "ins_ready" = y "ins_ready" ∧ x "outs_valid" = y "outs_valid" ∧
        (0 < width → x "outs" = y "outs")) :
    c.Determines (Side.producer.names width .empty) (Side.shown.names width .empty) := by
  intro x y hxy hsame
  simp only [Side.forall_payloads, Side.producer, Side.shown, List.forall_mem_cons,
    List.not_mem_nil, false_imp_iff, implies_true, and_true] at hsame ⊢
  obtain ⟨hready, hvalid, houts⟩ := h x y hxy hsame.1 hsame.2
  exact ⟨⟨hready, hvalid⟩, houts⟩

/-! ## Units that hand tokens on -/

namespace ReadyBreak

variable {width : Nat} {x y : State}

/-- Whether there is room is up to the slot alone. -/
theorem ready_eq (hxy : (body width).circuit.Twins x y) : x "ins_ready" = y "ins_ready" := by
  have hports : (body width).ports = passThroughPorts 1 width := rfl
  have hassign : ⟨.ident "ins_ready", .not (.ident "full")⟩ ∈ (body width).circuit.assigns := by
    simp [assigns_body]
  refine hxy.assign_eq hassign (Module.declares_of_mem (mem_signals_handshake hports).2.2.1) ?_
  simpa [Expr.reads] using hxy.registers _ (mem_registers_full width)

/-- The token that is shown is the one in the slot or the one that is offered. -/
theorem shown_congr (h : Lanes 1 width) (hxy : (body width).circuit.Twins x y)
    (hvalid : x "ins_valid" = y "ins_valid") (hins : 0 < width → x "ins" = y "ins") :
    x "outs_valid" = y "outs_valid" ∧ (0 < width → x "outs" = y "outs") := by
  have hports : (body width).ports = passThroughPorts 1 width := rfl
  have hfull := hxy.registers _ (mem_registers_full width)
  refine ⟨?_, fun hw => ?_⟩
  · have hassign : ⟨.ident "outs_valid", Expr.or "ins_valid" "full"⟩ ∈
        (body width).circuit.assigns := by
      simp [assigns_body]
    refine hxy.assign_eq hassign (Module.declares_of_mem (mem_signals_handshake hports).2.2.2.1) ?_
    simpa [Expr.or, Expr.reads_apply, Expr.reads] using ⟨hvalid, hfull⟩
  · have hassign : ⟨.ident "outs", .cond (.ident "full") (.ident "data_reg") (.ident "ins")⟩ ∈
        (body width).circuit.assigns := by
      simp [assigns_body, ifData, hw]
    have hdata := hxy.registers _ (next_data h hxy.fits_left hxy.settled_left hw).1
    refine hxy.assign_eq hassign (Module.declares_of_mem (mem_signals_payload hports hw).2) ?_
    simpa [Expr.reads] using ⟨hfull, hdata, hins hw⟩

theorem cuts : Cuts generate .producer .shown := by
  intro id width a m ha hbounded hm
  refine Circuit.Determines.of_finish ?_ ha (instancesOf_readyBreak width) hm
  refine Circuit.determines_shown fun x y hxy hvalid hins => ⟨ready_eq hxy, ?_⟩
  exact shown_congr (.of_finish Nat.one_pos ha rfl hbounded) hxy hvalid hins

end ReadyBreak

/-- The output shows registers. -/
theorem DataBreak.cuts : Cuts generate ⟨[], []⟩ .offer := by
  intro id width a m ha hbounded hm
  refine Circuit.Determines.of_finish (fun x y hxy _ => ?_) ha (instancesOf_dataBreak width) hm
  have hlanes : Lanes 1 width := .of_finish Nat.one_pos ha rfl hbounded
  have hports : (body width).ports = passThroughPorts 1 width := rfl
  have hassign : ⟨.ident "outs_valid", .ident "valid_reg"⟩ ∈ (body width).circuit.assigns := by
    simp [assigns_body]
  simp only [Side.forall_payloads, Side.offer, List.forall_mem_cons, List.not_mem_nil,
    false_imp_iff, implies_true, and_true]
  refine ⟨?_, fun hw => ?_⟩
  · refine hxy.assign_eq hassign (Module.declares_of_mem (mem_signals_handshake hports).2.2.2.1) ?_
    simpa [Expr.reads] using hxy.registers _ (next_valid hlanes hxy.fits_left).1
  · rw [settled_outs hlanes hxy.settled_left hxy.fits_left hw,
      settled_outs hlanes hxy.settled_right hxy.fits_right hw]
    exact hxy.registers _ (next_data hlanes hxy.fits_left hw).1

/-- A merge without a slot has no registers: all it shows comes from its inputs. -/
theorem PriorityMerge.shown_congr {size width : Nat} {x y : State} (h : Lanes size width)
    (hxy : (body size width).circuit.Twins x y) (hvalid : x "ins_valid" = y "ins_valid")
    (hready : x "outs_ready" = y "outs_ready") (hins : 0 < width → x "ins" = y "ins") :
    x "ins_ready" = y "ins_ready" ∧ x "outs_valid" = y "outs_valid" ∧
      (0 < width → x "outs" = y "outs") := by
  have hdistinct := (wellFormed_body h).distinct
  have hports : (body size width).ports = passThroughPorts size width := rfl
  obtain ⟨-, -, hinsReady, houtsValid, -⟩ := mem_signals_handshake hports
  refine ⟨?_, ?_, fun hw => ?_⟩
  · obtain ⟨-, hx, -⟩ := settled_body h hxy.fits_left hxy.settled_left
    obtain ⟨-, hy, -⟩ := settled_body h hxy.fits_right hxy.settled_right
    refine Word.eq_of_low (Module.low_of_fits hdistinct hxy.fits_left hinsReady)
      (Module.low_of_fits hdistinct hxy.fits_right hinsReady) fun c hc => ?_
    rw [hx c hc, hy c hc, high, high, hvalid, hready]
  · have hassign : ⟨.ident "outs_valid", Expr.any ((List.range size).map (valid size))⟩ ∈
        (body size width).circuit.assigns := by
      simp [assigns_body]
    refine hxy.assign_eq hassign (Module.declares_of_mem houtsValid) fun name hname => ?_
    obtain rfl := List.mem_singleton.mp (reads_valids size name hname)
    exact hvalid
  · have hassign : ⟨.ident "outs", selected size width⟩ ∈ (body size width).circuit.assigns := by
      simp [assigns_body, ifData, hw]
    refine hxy.assign_eq hassign (Module.declares_of_mem (mem_signals_payload hports hw).2)
      fun name hname => ?_
    rcases List.mem_pair.mp (reads_selected name hname) with rfl | rfl
    · exact hvalid
    · exact hins hw

/--
The slot of a merge decides alone whether the merge has room, and so keeps the
consumer from the channels.
-/
theorem Merge.cuts {size : Nat} (hpos : 0 < size) : Cuts (generate size) .producer .shown := by
  intro id width a m ha hbounded hm
  obtain ⟨inner, output, flat, hflatten, hf⟩ := generate_flat ha
  obtain rfl : m = flat := Except.ok.inj (hm.symm.trans hflatten)
  have h := lanes_of_blocks ha hpos hbounded
  have hassembled := assembled_body inner output h
  refine Circuit.determines_shown fun x y hxy hsameValid hsameIns => ?_
  obtain ⟨hvalid, hready, hchosen, hroom, hpayload⟩ :=
    merge_wires h hf hxy.settled_left hxy.fits_left
  obtain ⟨hvalid', hready', hchosen', hroom', hpayload'⟩ :=
    merge_wires h hf hxy.settled_right hxy.fits_right
  obtain ⟨-, hoffered, hfree, houtsValid, -, houts⟩ :=
    buffer_wires h hf hxy.settled_left hxy.fits_left
  obtain ⟨-, hoffered', hfree', houtsValid', -, houts'⟩ :=
    buffer_wires h hf hxy.settled_right hxy.fits_right
  have hmerge :=
    (hf.twins_part hassembled (p := mergePart size width inner) (by simp [parts]) hxy).of_named
  have hslot :=
    (hf.twins_part hassembled (p := bufferPart width output) (by simp [parts]) hxy).of_named
  -- the slot is the only one to see the consumer, and its answer to the merge in front
  -- of it is a register
  have hsameRoom : x "one_slot_break_r_ready" = y "one_slot_break_r_ready" := by
    rw [← hfree, ← hfree']
    exact ReadyBreak.ready_eq hslot
  obtain ⟨hsameReady, hsameChosen, hsamePayload⟩ := PriorityMerge.shown_congr h hmerge
    (by rw [hvalid, hvalid', hsameValid]) (by rw [hroom, hroom', hsameRoom])
    fun hw => by rw [(hpayload hw).1, (hpayload' hw).1, hsameIns hw]
  rw [hready, hready'] at hsameReady
  rw [hchosen, hchosen'] at hsameChosen
  obtain ⟨hsameShown, hsameOuts⟩ := ReadyBreak.shown_congr h.single hslot
    (by rw [hoffered, hoffered', hsameChosen])
    fun hw => by
      rw [(houts hw).1, (houts' hw).1, ← (hpayload hw).2, ← (hpayload' hw).2, hsamePayload hw]
  rw [houtsValid, houtsValid'] at hsameShown
  refine ⟨hsameReady, hsameShown, fun hw => ?_⟩
  rw [← (houts hw).2, ← (houts' hw).2]
  exact hsameOuts hw

/-! ## Wrappers -/

section

variable {kind : UnitKind} {id : Identity} {a : Artifact} {size : Option Nat} {width latency : Nat}
  {extra : ExtraSignals} {m : Module} {x y : State}

/-- The bus inside is determined by the fields of all channels. -/
theorem Manager.Encases.bus_congr {layout : Layout} {ins outs : List PortGroup} {inner : String}
    {sub whole : Module} (h : Encases width extra layout ins outs inner sub whole) {g : PortGroup}
    (hg : g ∈ ins ++ outs) (hxy : whole.circuit.Twins x y)
    (hfields : ∀ s ∈ layout.slices, x (g.fieldName s.field) = y (g.fieldName s.field)) :
    x ("inner__" ++ g.name) = y ("inner__" ++ g.name) := by
  have hcarried : ∀ {z}, whole.circuit.Settled z → whole.circuit.widths.Fits z →
      Bundles.Carried layout z g :=
    fun hz hfits => h.bundles.carried (fun a ha => h.flattens.holds_own h.assembled hz ha)
      (fun s hs => h.flattens.low_own h.assembled hfits hs) hg
  have hbus : (busOf g, g.channels * layout.total) ∈ (bundling inner ins outs layout).signals :=
    h.bundles.mem_signals_bus hg
  rw [(h.group_eq hxy.settled_left hxy.fits_left hg).1,
    (h.group_eq hxy.settled_right hxy.fits_right hg).1]
  refine Word.eq_of_channels (h.flattens.low_own h.assembled hxy.fits_left hbus)
    (h.flattens.low_own h.assembled hxy.fits_right hbus) fun c hc => ?_
  have hx := h.bundles.packed hg (hcarried hxy.settled_left hxy.fits_left) hc
  have hy := h.bundles.packed hg (hcarried hxy.settled_right hxy.fits_right) hc
  rw [List.map_congr_left fun s hs => congrArg (Word.channel · s.width c) (hfields s hs)] at hx
  exact Option.some.inj (hx.symm.trans hy)

/--
What the unit inside determines is determined outside as well, with extra
signals for bits of the payload.
-/
theorem Carries.determines {unit : Artifact} {sub : Module} {sources targets : Side}
    (h : Carries size width extra unit a sub m) (hne : extra.signals ≠ [])
    (hbits : ∀ bit ∈ sources.bits ++ targets.bits,
      bit ∈ ["rst", "ins_valid", "ins_ready", "outs_valid", "outs_ready"])
    (hins : ∀ port ∈ sources.ports, port = "ins") (houts : ∀ port ∈ targets.ports, port = "outs")
    (hsub : sub.circuit.Determines (sources.names (width + extra.totalWidth) .empty)
      (targets.names (width + extra.totalWidth) .empty)) :
    m.circuit.Determines (sources.names width extra) (targets.names width extra) := by
  intro x y hxy hsame
  obtain ⟨layout, inner, hencases⟩ := h.encases
  have hx := h.handshake_eq hxy.settled_left hxy.fits_left
  have hy := h.handshake_eq hxy.settled_right hxy.fits_right
  have hpart := hencases.flattens.twins_part hencases.assembled (List.mem_singleton_self _) hxy
  obtain ⟨hsourceBits, htargetBits⟩ := List.forall_mem_append.mp hbits
  obtain ⟨hsameBits, hsameTokens⟩ := Side.forall_names.mp hsame
  -- tokens that agree in their fields agree as payloads inside, and the other way round
  -- at the output
  have hinside := hsub _ _ hpart <|
    Side.forall_payloads.mpr ⟨fun bit hbit => ?_, fun _ port hport => ?_⟩
  · obtain ⟨hshownBits, hshown⟩ := Side.forall_payloads.mp hinside
    refine Side.forall_names.mpr ⟨fun bit hbit => ?_, fun port hport => ?_⟩
    · rw [← hx bit (htargetBits bit hbit), ← hy bit (htargetBits bit hbit)]
      exact hshownBits bit hbit
    · have hbus := hshown (Nat.add_pos_right _ (ExtraSignals.totalWidth_pos hne)) port hport
      obtain rfl := houts port hport
      rw [tokenNames_eq "outs" width extra none]
      exact List.forall_mem_map.mpr
        (hencases.fields_congr (g := ⟨"outs", width, extra, none⟩) (by simp) rfl
        hxy.settled_right hxy.fits_right hxy.settled_left hxy.fits_left hbus)
  · exact (hx bit (hsourceBits bit hbit)).trans
      ((hsameBits bit hbit).trans (hy bit (hsourceBits bit hbit)).symm)
  · have hfields := hsameTokens port hport
    obtain rfl := hins port hport
    rw [tokenNames_eq "ins" width extra size,
      ← Layout.map_slices hencases.bundles.layout_of] at hfields
    exact hencases.bus_congr (g := ⟨"ins", width, extra, size⟩) (by simp) hxy
      (List.forall_mem_map.mp hfields)

/-- What a unit takes from its neighbours arrives at inputs. -/
theorem Carries.mem_inputs {unit : Artifact} {sub : Module}
    (h : Carries size width extra unit a sub m) :
    ∀ name ∈ "outs_ready" :: Side.producer.names width extra, name ∈ m.inputs := by
  obtain ⟨layout, inner, hencases⟩ := h.encases
  rw [hencases.flattens.inputs_eq, List.forall_mem_cons, Side.forall_names]
  refine ⟨?_, List.forall_mem_singleton.mpr ?_, List.forall_mem_singleton.mpr ?_⟩
  · exact Manager.Bundles.input_outer
      (Manager.Grouped.mem_outer_output (g := ⟨"outs", width, extra, none⟩)
      (p := ⟨.input, 1, "outs_ready"⟩) (List.mem_singleton_self _)
      (List.mem_append_right _ (List.mem_cons_of_mem _ List.mem_cons_self))) rfl
  · exact Manager.Bundles.input_outer
      (Manager.Grouped.mem_outer_input (g := ⟨"ins", width, extra, size⟩)
      (p := ⟨.input, size.getD 1, "ins_valid"⟩) (List.mem_singleton_self _)
      (List.mem_append_right _ List.mem_cons_self)) rfl
  · rw [tokenNames_eq "ins" width extra size, ← Layout.map_slices hencases.bundles.layout_of]
    exact List.forall_mem_map.mpr fun s hs =>
      hencases.bundles.input_field (List.mem_singleton_self _) hs

/-- What a unit determines, it determines with any extra signals. -/
theorem Forwarding.determines {generate : Identity → Nat → Except Error Artifact}
    {sources targets : Side} {tag : String} {params : Params} (h : Forwarding kind size generate)
    (hcuts : Cuts generate sources targets)
    (hbits : ∀ bit ∈ sources.bits ++ targets.bits,
      bit ∈ ["rst", "ins_valid", "ins_ready", "outs_valid", "outs_ready"])
    (hins : ∀ port ∈ sources.ports, port = "ins") (houts : ∀ port ∈ targets.ports, port = "outs")
    (ha : passThrough id tag params size generate = .ok a) (hdistinct : a.Distinct)
    (hbounded : ∀ b ∈ a.blocks, ∀ s ∈ b.content.signals, s.2 ≤ wordBits) (hm : a.flatten = .ok m) :
    ∃ width extra, params.count .bitwidth = .ok width ∧ params.extraSignals = .ok extra ∧
      m.circuit.Determines (sources.names width extra) (targets.names width extra) ∧
      ∀ name ∈ "outs_ready" :: Side.producer.names width extra, name ∈ m.inputs := by
  obtain ⟨width, extra, hwidth, hextra, ⟨hempty, hplain⟩ | ⟨hne, hconcat⟩⟩ := passThrough_ok ha
  · obtain ⟨m', hsimulates, hports⟩ := h.simulates hplain hbounded
    obtain rfl : m' = m := Except.ok.inj (hsimulates.flatten.symm.trans hm)
    have hnames : ∀ side : Side, side.names width extra = side.names width .empty := fun side => by
      simp only [Side.names, tokenNames, hempty, ExtraSignals.empty]
    refine ⟨width, extra, hwidth, hextra, ?_, ?_⟩
    · rw [hnames, hnames]
      exact hcuts id width a m' hplain hbounded hm
    · rw [List.forall_mem_cons, hnames, Side.forall_payloads, Module.inputs,
        ports_passThrough hports]
      simp +contextual [Side.producer, clockPorts, Port.input]
  · obtain ⟨unit, sub, whole, hunit, hblocks, hcarries⟩ := h.carries hne hconcat hdistinct hbounded
    obtain rfl : m = whole := Except.ok.inj (hm.symm.trans hcarries.simulates.flatten)
    have hsub :=
      hcuts _ _ _ _ hunit (fun b hb => hbounded b (hblocks b hb)) hcarries.simulates_unit.flatten
    exact ⟨width, extra, hwidth, hextra, hcarries.determines hne hbits hins houts hsub,
      hcarries.mem_inputs⟩

/-! ## Units that compute -/

namespace Operator

variable {parts : List Part} {flat : Module}

/-- Whether a result is offered is up to the last register of the control. -/
theorem Controlled.valid_eq (h : Controlled m parts latency) (hf : Flattens m parts flat)
    (hlatency : 0 < latency) (hxy : flat.circuit.Twins x y) :
    x "result_valid" = y "result_valid" := by
  obtain ⟨register, hregister, hlast⟩ := h.mem_registers hf (latency - 1)
  have hbit : ("result_valid", 1) ∈ m.signals := h.bits _ (by simp [controlBits])
  refine Word.eq_of_low (hf.low_own h.assembled hxy.fits_left hbit)
    (hf.low_own h.assembled hxy.fits_right hbit) ?_
  intro i hi
  obtain rfl := Nat.lt_one_iff.mp hi
  calc high x "result_valid" = (pipeline latency).full x :=
        (h.settled_output hf hlatency hxy.settled_left hxy.fits_left).2
    _ = high x register := hlast x
    _ = high y register := by rw [high, hxy.registers _ hregister, high]
    _ = (pipeline latency).full y := (hlast y).symm
    _ = high y "result_valid" :=
      (h.settled_output hf hlatency hxy.settled_right hxy.fits_right).2.symm

/-- An operator that keeps all inputs from some of its outputs. -/
def Cutting (names : List String) (m : Module) (parts : List Part) : Prop :=
  ∀ flat, Flattens m parts flat → flat.circuit.Determines [] names

end Operator

/-- The result is the last register of the core. -/
theorem Multiplier.cutting {core join delay output : String} (h : 0 < width)
    (hbound : width ≤ wordBits) :
    Operator.Cutting ["result_valid", "result"] (operatorBody width core join delay output)
      (operatorParts width core join delay output) := by
  intro flat hf x y hxy _
  have hm := controlled_operator core join delay output h hbound
  have hcore : corePart width core ∈ operatorParts width core join delay output := by
    simp [operatorParts]
  have hpart := hf.twins_part hm.assembled hcore hxy
  have hlast := hpart.registers _
    (next_core hbound hpart.fits_left (show (productName 2, productName 1) ∈ coreMoves by decide)).1
  simp only [List.forall_mem_cons, List.not_mem_nil, false_imp_iff, implies_true, and_true]
  refine ⟨hm.valid_eq hf (by decide) hxy, ?_⟩
  rw [(core_product h hbound hf hxy.settled_left hxy.fits_left).2,
    (core_product h hbound hf hxy.settled_right hxy.fits_right).2]
  exact hlast

theorem Computing.cutting {core : Identity → Except Error Artifact}
    (h : Computing kind width latency core) (ha : core id = .ok a) (hbound : width ≤ wordBits) :
    ∃ m parts flat, Operator.Cutting ("result_valid" :: kind.heldPayload) m parts ∧
      Operator.IsFlattened a id.text width latency m parts flat := by
  cases h with
  | multiplier hpos =>
      obtain ⟨_, _, _, _, flat, hflat⟩ := Multiplier.generate_flat ha hpos hbound
      exact ⟨_, _, flat, Multiplier.cutting hpos hbound, hflat⟩
  | float op p =>
      obtain ⟨_, _, _, flat, hflat⟩ := FloatOperator.generate_flat op p ha
      refine ⟨_, _, flat, fun _ hf x y hxy _ => List.forall_mem_singleton.mpr ?_, hflat⟩
      exact hflat.controlled.valid_eq hf (Nat.lt_of_succ_lt (Computing.float op p).latency_gt) hxy

/-- Extra signals leave from the last register of the line. -/
theorem Manager.Wrappable.determines {inner line : String} {layout : Layout} {flat whole : Module}
    {parts : List Part} (h : Wrappable width latency extra layout flat)
    (hf : Flattens (wrapper inner line width extra layout)
      (wrapperParts inner line latency extra flat) whole)
    (hflat : Flattens m parts flat) {names : List String}
    (hnames : ∀ name ∈ names, name ∈ (innerPorts 0).map Port.name)
    (hinner : Operator.Cutting names m parts) :
    whole.circuit.Determines []
      (names ++ extra.signals.map fun e => "result" ++ "_" ++ e.name) := by
  intro x y hxy _
  refine List.forall_mem_append.mpr ⟨fun name hname => ?_, List.forall_mem_map.mpr fun e he => ?_⟩
  · rw [← h.inner_eq hf hxy.settled_left hxy.fits_left (hnames name hname),
      ← h.inner_eq hf hxy.settled_right hxy.fits_right (hnames name hname)]
    exact hinner flat hflat _ _ (hf.twins_part h.assembled mem_inner hxy) (by simp) name hname
  · have hlast : x ("buff__" ++ DelayLine.dataName (latency - 1)) =
        y ("buff__" ++ DelayLine.dataName (latency - 1)) :=
      (hf.twins_part h.assembled mem_line hxy).of_named.registers _
        (DelayLine.mem_registers_data (Nat.ne_of_gt h.latency_pos)
          (ExtraSignals.totalWidth_pos h.extra_ne)
          (Nat.sub_one_lt_of_lt h.latency_pos))
    obtain ⟨s, hs, hfield, -⟩ := Layout.exists_slice h.layout_of he
    have hshown := h.field_eq hf hxy.settled_left hxy.fits_left hs
    rw [h.bus_eq hf hxy.settled_left hxy.fits_left, hlast,
      ← h.bus_eq hf hxy.settled_right hxy.fits_right,
      ← h.field_eq hf hxy.settled_right hxy.fits_right hs, hfield] at hshown
    exact hshown

theorem Computing.determines {core : Identity → Except Error Artifact}
    (h : Computing kind width latency core)
    (ha : Operator.generate id (Variant.of width extra) latency core = .ok a)
    (hbounded : ∀ b ∈ a.blocks, ∀ s ∈ b.content.signals, s.2 ≤ wordBits) (hm : a.flatten = .ok m) :
    m.circuit.Determines []
      ("result_valid" :: kind.heldPayload ++ extra.signals.map
        fun e => "result" ++ "_" ++ e.name) := by
  rcases Operator.generate_of_ok ha with ⟨hempty, hplain⟩ | ⟨hne, hwrapped⟩
  · obtain ⟨body, parts, flat, hcutting, hflat⟩ := h.cutting hplain (h.width_le hplain hbounded)
    obtain rfl : m = flat := Except.ok.inj (hm.symm.trans hflat.flatten)
    rw [hempty, List.map_nil, List.append_nil]
    exact hcutting m hflat.flattens
  · obtain ⟨hbound, htotal⟩ :=
      Operator.width_le_of_blocks (fun _ hsub => h.isUnit hsub) hwrapped h.width_pos hne hbounded
    obtain ⟨-, body, parts, flat, whole, hcutting, hwhole⟩ :=
      Operator.generate_wrapped (P := Operator.Cutting ("result_valid" :: kind.heldPayload))
        (fun _ hsub => h.isUnit hsub) (fun _ hsub => h.cutting hsub hbound) hwrapped h.width_pos
          hbound (Nat.lt_of_succ_lt h.latency_gt) hne htotal
    obtain rfl : m = whole := Except.ok.inj (hm.symm.trans hwhole.flatten)
    obtain ⟨inner, line, layout, hwrap, hf⟩ := hwhole.wraps
    refine hwrap.determines hf hwhole.flattens ?_ hcutting
    cases h with
    | multiplier => decide
    | float => simp [UnitKind.heldPayload, Manager.innerPorts, Port.input, Port.output]

end

/-! ## Requests -/

namespace UnitKind

/-- The units with a slot in front of the consumer. -/
def CutsReady (kind : UnitKind) (params : Params) : Prop :=
  kind ∈ [.merge, .readyBreak] ∨ kind = .buffer ∧ BufferType.ofParams params = .ok .breakReady

/-- The units that offer what is in registers. -/
def CutsData (kind : UnitKind) (params : Params) : Prop :=
  kind ∈ [.dataBreak, .multiplier, .float .mul, .float .sub] ∨
    kind = .buffer ∧ BufferType.ofParams params = .ok .breakData

variable {kind : UnitKind} {id : Identity} {params : Params} {a : Artifact} {m : Module}

theorem determines_ready (hcuts : kind.CutsReady params) (h : kind.generate id params = .ok a)
    (hdistinct : a.Distinct) (hbounded : ∀ b ∈ a.blocks, ∀ s ∈ b.content.signals, s.2 ≤ wordBits)
    (hm : a.flatten = .ok m) :
    ∃ width extra, params.count .bitwidth = .ok width ∧ params.extraSignals = .ok extra ∧
      m.circuit.Determines (Side.producer.names width extra) (Side.shown.names width extra) ∧
      ∀ name ∈ "outs_ready" :: Side.producer.names width extra, name ∈ m.inputs := by
  have hfound : ∃ tag size generate, Forwarding kind size generate ∧
      Cuts generate .producer .shown ∧
      passThrough id tag params size generate = .ok a := by
    rcases hcuts with hkind | ⟨rfl, hready⟩
    · rcases List.mem_pair.mp hkind with rfl | rfl
      · obtain ⟨size, hsize, h⟩ := bind_ok h
        have hpos := (channelCount_ok hsize).2
        exact ⟨_, _, _, .merge hpos, Merge.cuts hpos, h⟩
      · exact ⟨_, _, _, .readyBreak, ReadyBreak.cuts, h⟩
    · obtain ⟨-, ⟨hdata, -⟩ | ⟨-, h⟩⟩ := Buffer.ofParams_ok h
      · exact absurd (hready.symm.trans hdata) (by simp)
      · exact ⟨_, _, _, .readyBuffer, ReadyBreak.cuts, h⟩
  obtain ⟨tag, size, generate, hunit, hcut, hpassed⟩ := hfound
  exact hunit.determines hcut (by decide) (by decide) (by decide) hpassed hdistinct hbounded hm

/--
Nothing but registers determines the token that is offered, apart from a payload
out of an external core.
-/
theorem determines_data (hcuts : kind.CutsData params) (h : kind.generate id params = .ok a)
    (hdistinct : a.Distinct) (hbounded : ∀ b ∈ a.blocks, ∀ s ∈ b.content.signals, s.2 ≤ wordBits)
    (hm : a.flatten = .ok m) :
    ∃ extra payload, params.extraSignals = .ok extra ∧
      ((∀ op, kind ≠ .float op) →
        ∃ width, params.count .bitwidth = .ok width ∧ payload = ifData width [kind.output]) ∧
      m.circuit.Determines []
        ((kind.output ++ "_valid") ::
          (payload ++ extra.signals.map fun e => kind.output ++ "_" ++ e.name)) := by
  -- either the unit computes, or it is the slot that cuts the data path, by whatever name
  have hways : kind ∈ [.multiplier, .float .mul, .float .sub] ∨ kind.output = "outs" ∧
      ∃ tag, Forwarding kind none DataBreak.generate ∧
        passThrough id tag params none DataBreak.generate = .ok a := by
    rcases hcuts with hkind | ⟨rfl, hdata⟩
    · rcases List.mem_cons.mp hkind with rfl | hcomputes
      · exact Or.inr ⟨rfl, _, .dataBreak, h⟩
      · exact Or.inl hcomputes
    · obtain ⟨-, ⟨-, h⟩ | ⟨hready, -⟩⟩ := Buffer.ofParams_ok h
      · exact Or.inr ⟨rfl, _, .dataBuffer, h⟩
      · exact absurd (hready.symm.trans hdata) (by simp)
  rcases hways with hcomputes | ⟨houtput, tag, hunit, hpassed⟩
  · obtain ⟨width, latency, core, extra, hunit, hextra, hgen, -⟩ :=
      kind.generate_computing hcomputes h
    have hdetermines := hunit.determines hgen hbounded hm
    cases hunit with
    | multiplier =>
        obtain ⟨width, _, hwidth, -, hpos, -⟩ := Multiplier.ofParams_ok h
        exact ⟨extra, ["result"], hextra, fun _ => ⟨width, hwidth, (if_pos hpos).symm⟩, hdetermines⟩
    | float op p => exact ⟨extra, [], hextra, fun hinteger => absurd rfl (hinteger op), hdetermines⟩
  · obtain ⟨width, extra, hwidth, hextra, hdetermines, -⟩ :=
      hunit.determines DataBreak.cuts (by decide) (by decide) (by decide) hpassed hdistinct
        hbounded hm
    rw [houtput]
    refine ⟨extra, ifData width ["outs"], hextra, fun _ => ⟨width, hwidth, rfl⟩,
      hdetermines.mono ?_⟩
    simp [Side.names, Side.offer, tokenNames]

end UnitKind

/-- Whatever some inputs are driven to, some outputs are observed with the same values. -/
def Simulator.Ignores (s : Simulator) (varied outputs : List String) : Prop :=
  ∀ first second : List (String × Word), (∀ p ∈ first, p.1 ∈ varied) →
    (∀ p ∈ second, p.1 ∈ varied) →
    ∃ t u, s.observe first = .ok t ∧ s.observe second = .ok u ∧
      ∀ name ∈ outputs, t.get name = u.get name

/-- An output is not seen to depend on inputs that do not determine it. -/
theorem Artifact.Simulates.ignores {a : Artifact} {m : Module} (h : a.Simulates m)
    {actions : List Simulator.Action} (hactions : ∀ action ∈ actions, action.Declared m) :
    ∃ s, (Simulator.start m).perform actions = .ok s ∧ ∀ sources varied outputs : List String,
      m.circuit.Determines sources outputs → (∀ name ∈ sources, name ∈ m.inputs ∧ name ∉ varied) →
        (∀ name ∈ varied, name ∈ m.inputs) → s.Ignores varied outputs := by
  obtain ⟨s, hperform, hobserves⟩ := h.observes hactions
  refine ⟨s, hperform,
    fun sources varied outputs hdetermines hsources hvaried first second hfirst hsecond => ?_⟩
  obtain ⟨t, ht, hsettled, hfits, hframe, -⟩ := hobserves first fun p hp => hvaried _ (hfirst p hp)
  obtain ⟨u, hu, hsettled', hfits', hframe', -⟩ :=
    hobserves second fun p hp => hvaried _ (hsecond p hp)
  -- both were driven from the same simulator, and settling leaves alone what no assign drives
  have hsame : ∀ name, m.circuit.Undriven name → name ∉ varied → t.get name = u.get name := by
    intro name hundriven hname
    rw [hframe name hundriven fun hmem => hname (List.forall_mem_map.mpr hfirst name hmem),
      hframe' name hundriven fun hmem => hname (List.forall_mem_map.mpr hsecond name hmem)]
  refine ⟨t, u, ht, hu, hdetermines _ _ ⟨hsettled, hfits, hsettled', hfits', fun name hname => ?_⟩
    fun name hname => ?_⟩
  · exact hsame name (h.wellFormed.clocked.undriven name hname) fun hmem =>
      h.wellFormed.unassigned name (hvaried name hmem) hname
  · exact hsame name (h.wellFormed.undriven name (hsources name hname).1) (hsources name hname).2

/-- No signal of a producer is the ready bit of the consumer. -/
theorem Side.ready_not_mem (width : Nat) (extra : ExtraSignals) :
    "outs_ready" ∉ Side.producer.names width extra := by
  have hnames : ∀ name ∈ Side.producer.names width extra, name ≠ "outs_ready" := by
    refine Side.forall_names.mpr
      ⟨by decide, List.forall_mem_singleton.mpr (List.forall_mem_append.mpr ⟨?_, ?_⟩)⟩
    · exact forall_mem_ifData.mpr fun _ => by decide
    · refine List.forall_mem_map.mpr fun e _ heq => ?_
      have hfirst := congrArg (fun name : String => name.toList.head?) heq
      simp [String.toList_append] at hfirst
  exact fun hmem => hnames _ hmem rfl

/--
**The units cut the paths they are made to cut.** Take a generated unit in which
no module declares a name twice and no signal is wider than a word, and do
anything with a simulator of it. With a slot in front of the consumer, the unit
then shows the same readiness, the same valid bit and the same token, with all
its extra signals, whatever the ready bit of the consumer is driven to. If it
offers what is in registers, it shows the same valid bit, the same extra signals
and, unless it comes from an external core, the same payload, whatever all its
inputs are driven to.
-/
theorem paths_cut {request : Request} {a : Artifact} {kind : UnitKind}
    (hkind : UnitKind.ofTag? request.kind = some kind)
    (hcuts : kind.CutsReady request.params ∨ kind.CutsData request.params)
    (ha : generate request = .ok a) (hdistinct : ∀ b ∈ a.blocks, b.content.declared.Nodup)
    (hbounded : ∀ b ∈ a.blocks, ∀ s ∈ b.content.signals, s.2 ≤ wordBits) :
    ∃ extra m, request.params.extraSignals = .ok extra ∧ a.flatten = .ok m ∧
      ∀ actions : List Simulator.Action, (∀ action ∈ actions, action.Declared m) →
        ∃ s, (Simulator.start m).perform actions = .ok s ∧
          (kind.CutsReady request.params → ∃ width, request.params.count .bitwidth = .ok width ∧
            s.Ignores ["outs_ready"]
              (["ins_ready", "outs_valid"] ++ tokenNames "outs" width extra)) ∧
          (kind.CutsData request.params →
            s.Ignores m.inputs
              ((kind.output ++ "_valid") :: extra.signals.map
                fun e => kind.output ++ "_" ++ e.name) ∧
            ((∀ op, kind ≠ .float op) → ∃ width, request.params.count .bitwidth = .ok width ∧
              s.Ignores m.inputs (tokenNames kind.output width extra))) := by
  obtain ⟨hname, kind', hkind', h⟩ := generate_eq_ok_iff.mp ha
  obtain rfl : kind' = kind :=
    Option.some.inj ((UnitKind.ofTag?_eq_some_iff.mpr hkind').symm.trans hkind)
  obtain ⟨m, hsimulates⟩ := (UnitKind.built h).simulates hdistinct hbounded
  have hextra : ∃ extra, request.params.extraSignals = .ok extra := by
    rcases hcuts with hready | hdata
    · obtain ⟨-, extra, -, hextra, -⟩ :=
        UnitKind.determines_ready hready h hdistinct hbounded hsimulates.flatten
      exact ⟨extra, hextra⟩
    · obtain ⟨extra, -, hextra, -⟩ :=
        UnitKind.determines_data hdata h hdistinct hbounded hsimulates.flatten
      exact ⟨extra, hextra⟩
  obtain ⟨extra, hextra⟩ := hextra
  refine ⟨extra, m, hextra, hsimulates.flatten, fun actions hactions => ?_⟩
  obtain ⟨s, hperform, hignores⟩ := hsimulates.ignores hactions
  refine ⟨s, hperform, fun hready => ?_, fun hdata => ?_⟩
  · -- the consumer wavers: the producer's side determines all that is shown
    obtain ⟨width, extra', hwidth, hextra', hdetermines, hinputs⟩ :=
      UnitKind.determines_ready hready h hdistinct hbounded hsimulates.flatten
    obtain rfl : extra' = extra := Except.ok.inj (hextra'.symm.trans hextra)
    obtain ⟨hconsumer, hproducer⟩ := List.forall_mem_cons.mp hinputs
    refine ⟨width, hwidth,
      hignores _ _ _ (hdetermines.mono ?_) (fun name hname => ⟨hproducer name hname, ?_⟩) ?_⟩
    · simp [Side.names, Side.shown]
    · exact fun hmem => Side.ready_not_mem width extra' (List.mem_singleton.mp hmem ▸ hname)
    · exact List.forall_mem_singleton.mpr hconsumer
  · -- everything wavers: registers alone determine what is offered
    obtain ⟨extra', payload, hextra', hpayload, hdetermines⟩ :=
      UnitKind.determines_data hdata h hdistinct hbounded hsimulates.flatten
    obtain rfl : extra' = extra := Except.ok.inj (hextra'.symm.trans hextra)
    have hignored : ∀ outputs : List String, (∀ name ∈ outputs, name ∈ (kind'.output ++ "_valid") ::
        (payload ++ extra'.signals.map fun e => kind'.output ++ "_" ++ e.name)) →
          s.Ignores m.inputs outputs :=
      fun outputs houtputs => hignores [] _ _ (hdetermines.mono houtputs) (by simp)
        fun _ hname => hname
    refine ⟨hignored _ ?_, fun hinteger => ?_⟩
    · exact List.forall_mem_cons.mpr ⟨List.mem_cons_self, fun name hname =>
        List.mem_cons_of_mem _ (List.mem_append_right _ hname)⟩
    · obtain ⟨width, hwidth, rfl⟩ := hpayload hinteger
      exact ⟨width, hwidth, hignored _ fun name hname => List.mem_cons_of_mem _ hname⟩

/-- A merge whose consumer wavers, and a multiplier whose operands do: each has an extra signal. -/
theorem paths_cut_wavering :
    (∃ a m s, generate .twoChannels = .ok a ∧ a.flatten = .ok m ∧
      (Simulator.start m).perform [.tick] = .ok s ∧
      s.Ignores ["outs_ready"] ["ins_ready", "outs_valid", "outs", "outs_tag"]) ∧
    ∃ a m s, generate (.withSignal "muli" "tag") = .ok a ∧ a.flatten = .ok m ∧
      (Simulator.start m).perform [.tick] = .ok s ∧ "lhs_valid" ∈ m.inputs ∧ "rhs_tag" ∈ m.inputs ∧
      s.Ignores m.inputs ["result_valid", "result_tag"] ∧
        s.Ignores m.inputs ["result", "result_tag"] := by
  refine ⟨?_, ?_⟩
  · have hmade : ∃ a ∈ (generate .twoChannels).toOption,
        (∀ b ∈ a.blocks, b.content.declared.Nodup) ∧
        ∀ b ∈ a.blocks, ∀ s ∈ b.content.signals, s.2 ≤ wordBits := by
      decide +kernel
    have hread : ∃ width ∈ (Request.twoChannels.params.count .bitwidth).toOption,
        ∃ extra ∈ Request.twoChannels.params.extraSignals.toOption,
          tokenNames "outs" width extra = ["outs", "outs_tag"] := by
      decide +kernel
    obtain ⟨a, ha, hdistinct, hbounded⟩ := hmade
    obtain ⟨width, hwidth, extra, hextra, hnames⟩ := hread
    have hready : UnitKind.merge.CutsReady Request.twoChannels.params := Or.inl (by decide)
    obtain ⟨extra', m, hextra', hm, hcut⟩ := paths_cut
      (show UnitKind.ofTag? Request.twoChannels.kind = _ from rfl)
      (Or.inl hready) (eq_ok_of_mem_toOption ha) hdistinct hbounded
    obtain rfl : extra' = extra := Except.ok.inj (hextra'.symm.trans (eq_ok_of_mem_toOption hextra))
    obtain ⟨s, hs, hignores, -⟩ := hcut [.tick] (List.forall_mem_singleton.mpr trivial)
    obtain ⟨width', hwidth', hignored⟩ := hignores hready
    obtain rfl : width' = width := Except.ok.inj (hwidth'.symm.trans (eq_ok_of_mem_toOption hwidth))
    rw [hnames] at hignored
    exact ⟨a, m, s, eq_ok_of_mem_toOption ha, hm, hs, hignored⟩
  · have hmade : ∃ a ∈ (generate (.withSignal "muli" "tag")).toOption,
        (∀ b ∈ a.blocks, b.content.declared.Nodup) ∧
        (∀ b ∈ a.blocks, ∀ s ∈ b.content.signals, s.2 ≤ wordBits) ∧
        ∃ m ∈ a.flatten.toOption, "lhs_valid" ∈ m.inputs ∧ "rhs_tag" ∈ m.inputs := by
      decide +kernel
    have hread : ∃ width ∈ ((Request.withSignal "muli" "tag").params.count .bitwidth).toOption,
        ∃ extra ∈ (Request.withSignal "muli" "tag").params.extraSignals.toOption,
          (extra.signals.map fun e => "result" ++ "_" ++ e.name) = ["result_tag"] ∧
            tokenNames "result" width extra = ["result", "result_tag"] := by
      decide +kernel
    obtain ⟨a, ha, hdistinct, hbounded, m, hm, hinputs⟩ := hmade
    obtain ⟨width, hwidth, extra, hextra, hsignals, hnames⟩ := hread
    have hdata : UnitKind.multiplier.CutsData (Request.withSignal "muli" "tag").params :=
      Or.inl (by decide)
    obtain ⟨extra', m', hextra', hm', hcut⟩ :=
      paths_cut (show UnitKind.ofTag? (Request.withSignal "muli" "tag").kind = _ from rfl)
        (Or.inr hdata)
        (eq_ok_of_mem_toOption ha) hdistinct hbounded
    obtain rfl : m' = m := Except.ok.inj (hm'.symm.trans (eq_ok_of_mem_toOption hm))
    obtain rfl : extra' = extra := Except.ok.inj (hextra'.symm.trans (eq_ok_of_mem_toOption hextra))
    obtain ⟨s, hs, -, hignores⟩ := hcut [.tick] (List.forall_mem_singleton.mpr trivial)
    obtain ⟨hignored, htoken⟩ := hignores hdata
    obtain ⟨width', hwidth', hpayload⟩ := htoken fun op heq => nomatch heq
    obtain rfl : width' = width := Except.ok.inj (hwidth'.symm.trans (eq_ok_of_mem_toOption hwidth))
    refine ⟨a, m', s, eq_ok_of_mem_toOption ha, hm', hs, hinputs.1, hinputs.2, ?_, ?_⟩
    · exact (congrArg (fun names => s.Ignores m'.inputs ("result_valid" :: names)) hsignals).mp
        hignored
    · exact (congrArg (s.Ignores m'.inputs) hnames).mp hpayload

end Handshake
