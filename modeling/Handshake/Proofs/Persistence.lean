import Handshake.Proofs.Latency
import Handshake.Proofs.Multiplication
import Handshake.Proofs.Wrapping

/-!
# Tokens that are offered stay

A unit that offers a token to a consumer who is not ready offers the same token
in the next cycle, whatever its producers do meanwhile: every output that counts
is a register that is not overwritten, or will be stored in one. Extra signals
that pass an operator are held by a delay line of their own, which stalls
because it is in step with the operator.

`Persists` speaks of a port and of some signals that belong to its token, over a
single clock edge. It is shown for the slots and the merge directly, carried
over to wrappers because their fields are determined by the bus inside, and for
operators reduced to pipelines: one whose last stage is full and whose consumer
is not ready does not move.
-/

namespace Handshake

/-! ## Clock edges between settled states -/

/-- A clock edge with the state before it and the state that settles after it. -/
structure Circuit.Edge (c : Circuit) (x y : State) : Prop extends c.Step x y where
  settled_next : c.Settled y
  fits_next : c.widths.Fits y

theorem Circuit.Behaves.isChain_edge {c : Circuit} {held : State} {states : List State}
    (h : c.Behaves held states) : states.IsChain c.Edge :=
  h.isChain_step.imp_of_mem_imp fun {_ y} _ hy hxy => ⟨hxy, h.settled y hy, h.fits y hy⟩

/-- The name of a module has no part in what its circuit does. -/
theorem Circuit.Edge.of_named {m : Module} {name : String} {x y : State}
    (h : ({ m with name } : Module).circuit.Edge x y) : m.circuit.Edge x y :=
  ⟨⟨h.settled, h.fits, h.registers⟩, h.settled_next, h.fits_next⟩

theorem Flattens.edge_part {m flat : Module} {parts : List Part} (hf : Flattens m parts flat)
    (h : m.Assembled parts) {p : Part} (hp : p ∈ parts) {x y : State}
    (hxy : flat.circuit.Edge x y) :
    p.2.circuit.Edge (x ∘ p.rename) (y ∘ p.rename) :=
  ⟨hf.step_part h hp hxy.toStep, hf.settled_part h hp hxy.settled_next,
    hf.fits_part h hp hxy.fits_next⟩

/--
A token that is offered at a port and refused is offered again, with the same
values of some signals.
-/
def Persists (port : String) (names : List String) (x y : State) : Prop :=
  high x "rst" = false → high x (port ++ "_valid") = true → high x (port ++ "_ready") = false →
    high y (port ++ "_valid") = true ∧ ∀ name ∈ names, y name = x name

theorem Persists.mono {port : String} {names names' : List String} {x y : State}
    (h : Persists port names x y) (hnames : ∀ name ∈ names', name ∈ names) :
    Persists port names' x y := fun hreset hvalid hready =>
  let ⟨hagain, hsame⟩ := h hreset hvalid hready
  ⟨hagain, fun name hname => hsame name (hnames name hname)⟩

/--
What persists inside persists outside, if the handshake is the same and the
outputs are made of those inside.
-/
theorem Persists.of_view (view : State → State) {port : String} {names names' : List String}
    {x y : State} (h : Persists port names (view x) (view y))
    (hbefore : ∀ name ∈ ["rst", port ++ "_valid", port ++ "_ready"], view x name = x name)
    (hafter : view y (port ++ "_valid") = y (port ++ "_valid"))
    (hnames : (∀ name ∈ names, view y name = view x name) → ∀ name ∈ names', y name = x name) :
    Persists port names' x y := by
  have hhigh : ∀ name ∈ ["rst", port ++ "_valid", port ++ "_ready"],
      high (view x) name = high x name :=
    fun name hname => congrArg (BitVec.getLsbD · 0) (hbefore name hname)
  intro hreset hvalid hready
  obtain ⟨hagain, hsame⟩ := h ((hhigh _ (by simp)).trans hreset) ((hhigh _ (by simp)).trans hvalid)
    ((hhigh _ (by simp)).trans hready)
  rw [high, hafter] at hagain
  exact ⟨hagain, hnames hsame⟩

/--
A pipeline whose last stage is full and whose consumer is not ready stalls: the
last stage stays as it is.
-/
theorem Pipeline.Steps.refused {σ : Type} {p : Pipeline σ} {s t : σ} (h : p.Steps s t)
    (hdepth : 0 < p.depth) (hreset : p.reset s = false) (hfull : p.full s = true)
    (hready : p.ready s = false) :
    p.full t = true ∧ ∀ o, p.carries (p.depth - 1) s o → p.carries (p.depth - 1) t o := by
  have hstalled : p.enabled s = false := by rw [enabled, hfull, hready]; rfl
  obtain ⟨hoccupied, hcarries⟩ :=
    h.stalled hreset hstalled (p.depth - 1) (Nat.sub_one_lt_of_lt hdepth)
  exact ⟨hoccupied.trans hfull, hcarries⟩

/-! ## Units that hand tokens on -/

/-- A refused token is stored in the slot, or was there before. -/
theorem ReadyBreak.persists {width : Nat} {x y : State} (h : Lanes 1 width)
    (hxy : (body width).circuit.Edge x y) : Persists "outs" (ifData width ["outs"]) x y := by
  intro hreset hvalid hready
  have hfull : high y "full" = true := by
    rw [high, hxy.registers _ (mem_registers_full width)]
    refine (next_full h hxy.fits).trans ?_
    rw [hreset, if_neg Bool.false_ne_true]
    exact Bool.and_eq_true_iff.mpr ⟨hvalid, congrArg Bool.not hready⟩
  obtain ⟨-, hagain, houts⟩ := settled_body h hxy.fits_next hxy.settled_next
  refine ⟨?_, forall_mem_ifData.mpr fun hw => List.forall_mem_singleton.mpr ?_⟩
  · refine hagain.trans ?_
    rw [hfull, Bool.or_true]
  · obtain ⟨hregister, hnext⟩ := next_data h hxy.fits hxy.settled hw
    rw [houts hw, hfull, if_pos rfl, hxy.registers _ hregister, hnext]

namespace DataBreak

variable {width : Nat} {x y : State}

theorem persists (h : Lanes 1 width) (hxy : (body width).circuit.Edge x y) :
    Persists "outs" (ifData width ["outs"]) x y := by
  intro hreset hvalid hready
  obtain ⟨hinsReady, houtsValid⟩ := settled_body h hxy.settled
  have hfull : high x "valid_reg" = true := houtsValid.symm.trans hvalid
  have hclosed : high x "ins_ready" = false := by
    rw [hinsReady, hfull]
    exact hready
  refine ⟨?_, forall_mem_ifData.mpr fun hw => List.forall_mem_singleton.mpr ?_⟩
  · exact (settled_body h hxy.settled_next).2.trans
      ((steps h hxy.toStep).refused Nat.one_pos hreset hfull hready).1
  · obtain ⟨hregister, hnext⟩ := next_data h hxy.fits hw
    rw [settled_outs h hxy.settled_next hxy.fits_next hw, hxy.registers _ hregister, hnext, hclosed,
      Bool.false_and, if_neg Bool.false_ne_true, settled_outs h hxy.settled hxy.fits hw]

end DataBreak

/-- A merge shows what its slot shows. -/
theorem Merge.persists {size width : Nat} {inner output : String} {flat : Module} {x y : State}
    (h : Lanes size width)
    (hf : Flattens (body inner output size width) (parts size width inner output) flat)
    (hxy : flat.circuit.Edge x y) : Persists "outs" (ifData width ["outs"]) x y := by
  have hm := assembled_body inner output h
  have hmem : bufferPart width output ∈ parts size width inner output := by simp [parts]
  obtain ⟨hrst, -, -, hvalid, hready, hpayload⟩ := buffer_wires h hf hxy.settled hxy.fits
  obtain ⟨-, -, -, hvalid', -, hpayload'⟩ := buffer_wires h hf hxy.settled_next hxy.fits_next
  have hpart := ReadyBreak.persists h.single (hf.edge_part hm hmem hxy).of_named
  refine hpart.of_view (fun z => z ∘ (bufferPart width output).rename) ?_ hvalid' ?_
  · simp only [List.forall_mem_cons, List.not_mem_nil, false_imp_iff, implies_true, and_true]
    exact ⟨hrst, hvalid, hready⟩
  · rw [forall_mem_ifData, forall_mem_ifData]
    intro hsame hw
    have houts := List.forall_mem_singleton.mp (hsame hw)
    refine List.forall_mem_singleton.mpr ?_
    rw [← (hpayload hw).2, ← (hpayload' hw).2]
    exact houts

section

variable {kind : UnitKind} {id : Identity} {a : Artifact} {size : Option Nat} {width latency : Nat}
  {extra : ExtraSignals} {m : Module} {x y : State}

theorem Circuit.Edge.of_finish {content : Module}
    (ha : (Accumulator.start id).finish content latency = .ok a)
    (hleaf : Item.instancesOf content.items = []) (hm : a.flatten = .ok m)
    (hxy : m.circuit.Edge x y) :
    content.circuit.Edge x y := by
  obtain rfl : m = { content with name := id.text } :=
    Except.ok.inj (hm.symm.trans (Artifact.flatten_finish ha hleaf))
  exact hxy.of_named

theorem Forwarding.persists {generate : Identity → Nat → Except Error Artifact}
    (h : Forwarding kind size generate) (hkind : kind ≠ .priorityMerge)
    (ha : generate id width = .ok a)
    (hbounded : ∀ b ∈ a.blocks, ∀ s ∈ b.content.signals, s.2 ≤ wordBits) (hm : a.flatten = .ok m)
    (hxy : m.circuit.Edge x y) : Persists "outs" (ifData width ["outs"]) x y := by
  have hready : ReadyBreak.generate id width = .ok a →
      Persists "outs" (ifData width ["outs"]) x y := fun ha =>
    ReadyBreak.persists (.of_finish Nat.one_pos ha rfl hbounded)
      (hxy.of_finish ha (instancesOf_readyBreak width) hm)
  have hdata : DataBreak.generate id width = .ok a →
      Persists "outs" (ifData width ["outs"]) x y := fun ha =>
    DataBreak.persists (.of_finish Nat.one_pos ha rfl hbounded)
      (hxy.of_finish ha (instancesOf_dataBreak width) hm)
  cases h with
  | priorityMerge => exact absurd rfl hkind
  | merge hpos =>
      obtain ⟨inner, output, flat, hflatten, hf⟩ := Merge.generate_flat ha
      obtain rfl : m = flat := Except.ok.inj (hm.symm.trans hflatten)
      exact Merge.persists (Merge.lanes_of_blocks ha hpos hbounded) hf hxy
  | readyBreak => exact hready ha
  | readyBuffer => exact hready ha
  | dataBreak => exact hdata ha
  | dataBuffer => exact hdata ha

/-- The fields of a token of a single channel are determined by the bus inside. -/
theorem Manager.Encases.fields_congr {layout : Layout} {ins outs : List PortGroup} {inner : String}
    {sub whole : Module} (h : Encases width extra layout ins outs inner sub whole) {g : PortGroup}
    (hg : g ∈ ins ++ outs) (hone : g.channels = 1) (hx : whole.circuit.Settled x)
    (hfits : whole.circuit.widths.Fits x) (hy : whole.circuit.Settled y)
    (hyfits : whole.circuit.widths.Fits y)
    (hbus : y ("inner__" ++ g.name) = x ("inner__" ++ g.name)) :
    ∀ f ∈ Layout.fields width extra, y (g.fieldName f.1) = x (g.fieldName f.1) := by
  have hfields := h.token_eq hy hyfits hg hone
  rw [hbus, ← h.token_eq hx hfits hg hone] at hfields
  exact List.map_inj_left.mp hfields

/--
The signals that a token consists of at a port: its payload, unless that is
empty, and the extra signals.
-/
def tokenNames (port : String) (width : Nat) (extra : ExtraSignals) : List String :=
  ifData width [port] ++ extra.signals.map fun e => port ++ "_" ++ e.name

theorem tokenNames_eq (port : String) (width : Nat) (extra : ExtraSignals) (size : Option Nat) :
    tokenNames port width extra =
      (Layout.fields width extra).map fun f =>
        PortGroup.fieldName ⟨port, width, extra, size⟩ f.1 := by
  unfold tokenNames Layout.fields ifData
  by_cases hw : 0 < width <;> simp [hw, PortGroup.fieldName, PortGroup.extraName]

/-- A unit in a wrapper, seen from outside. -/
theorem Forwarding.persists_carried {generate : Identity → Nat → Except Error Artifact}
    (h : Forwarding kind size generate) (hkind : kind ≠ .priorityMerge) (hne : extra.signals ≠ [])
    (ha : Manager.concat id [⟨"ins", width, extra, size⟩] [⟨"outs", width, extra, none⟩] extra
      generate = .ok a) (hdistinct : a.Distinct)
    (hbounded : ∀ b ∈ a.blocks, ∀ s ∈ b.content.signals, s.2 ≤ wordBits) (hm : a.flatten = .ok m)
    (hxy : m.circuit.Edge x y) : Persists "outs" (tokenNames "outs" width extra) x y := by
  obtain ⟨unit, sub, whole, hunit, hblocks, hcarries⟩ := h.carries hne ha hdistinct hbounded
  obtain rfl : m = whole := Except.ok.inj (hm.symm.trans hcarries.simulates.flatten)
  have hbefore := hcarries.handshake_eq hxy.settled hxy.fits
  have hafter := hcarries.handshake_eq hxy.settled_next hxy.fits_next
  obtain ⟨layout, inner, hencases⟩ := hcarries.encases
  have hinside := hencases.flattens.edge_part hencases.assembled (List.mem_singleton_self _) hxy
  have hpart := h.persists hkind hunit (fun b hb => hbounded b (hblocks b hb))
    hcarries.simulates_unit.flatten hinside
  refine hpart.of_view (fun z name => z ("inner__" ++ name)) ?_ (hafter "outs_valid" (by simp)) ?_
  · simp only [List.forall_mem_cons, List.not_mem_nil, false_imp_iff, implies_true, and_true]
    exact ⟨hbefore "rst" (by simp), hbefore "outs_valid" (by simp), hbefore "outs_ready" (by simp)⟩
  · intro hsame
    have hbus := List.forall_mem_singleton.mp
      (forall_mem_ifData.mp hsame (Nat.add_pos_right _ (ExtraSignals.totalWidth_pos hne)))
    have hfields := hencases.fields_congr (g := ⟨"outs", width, extra, none⟩) (by simp) rfl
      hxy.settled hxy.fits
      hxy.settled_next hxy.fits_next hbus
    rw [tokenNames_eq "outs" width extra none]
    exact List.forall_mem_map.mpr hfields

/-! ## Units that compute -/

namespace Operator

variable {parts : List Part} {flat : Module}

/-- The last stage of the control holds a result until it is taken. -/
theorem Controlled.persists (h : Controlled m parts latency) (hf : Flattens m parts flat)
    (hlatency : 1 < latency) (hxy : flat.circuit.Edge x y) : Persists "result" [] x y := by
  intro hreset hvalid hready
  have hpos : 0 < latency := Nat.lt_of_succ_lt hlatency
  obtain ⟨-, hbefore⟩ := h.settled_output hf hpos hxy.settled hxy.fits
  obtain ⟨-, hafter⟩ := h.settled_output hf hpos hxy.settled_next hxy.fits_next
  have hstays :=
    (h.steps hf hlatency hxy.toStep).refused hpos hreset (hbefore.symm.trans hvalid) hready
  exact ⟨hafter.trans hstays.1, by simp⟩

/-- An operator that holds a result, with the values of some outputs, until it is taken. -/
def Persistent (names : List String) (m : Module) (parts : List Part) : Prop :=
  ∀ flat, Flattens m parts flat → ∀ x y, flat.circuit.Edge x y → Persists "result" names x y

end Operator

/-- The registers of the core stall with the control, and the last of them is the result. -/
theorem Multiplier.persistent {core join delay output : String} (h : 0 < width)
    (hbound : width ≤ wordBits) :
    Operator.Persistent ["result"] (operatorBody width core join delay output)
      (operatorParts width core join delay output) := by
  intro flat hf x y hxy hreset hvalid hready
  have hm := controlled_operator core join delay output h hbound
  obtain ⟨hagain, -⟩ := hm.persists hf (by decide) hxy hreset hvalid hready
  have hfull := ((hm.settled_output hf (by decide) hxy.settled hxy.fits).2.symm.trans hvalid)
  have hstalled : (pipeline width).enabled x = false := by
    rw [Pipeline.enabled]
    exact congrArg₂ (fun full ready => !full || ready) hfull hready
  have hkept :=
    core_step h hbound hf hxy.toStep (show (productName 2, productName 1) ∈ coreMoves by decide)
  rw [hstalled, if_neg Bool.false_ne_true] at hkept
  refine ⟨hagain, List.forall_mem_singleton.mpr ?_⟩
  rw [(core_product h hbound hf hxy.settled_next hxy.fits_next).2,
    (core_product h hbound hf hxy.settled hxy.fits).2]
  exact hkept

/--
The payload that a unit holds. What a floating-point operator shows is up to an
external core.
-/
def UnitKind.heldPayload : UnitKind → List String
  | .multiplier => ["result"]
  | _ => []

theorem Computing.persistent {core : Identity → Except Error Artifact}
    (h : Computing kind width latency core) (ha : core id = .ok a) (hbound : width ≤ wordBits) :
    ∃ m parts flat, Operator.Persistent kind.heldPayload m parts ∧
      Operator.IsFlattened a id.text width latency m parts flat := by
  cases h with
  | multiplier hpos =>
      obtain ⟨_, _, _, _, flat, hflat⟩ := Multiplier.generate_flat ha hpos hbound
      exact ⟨_, _, flat, Multiplier.persistent hpos hbound, hflat⟩
  | float op p =>
      obtain ⟨_, _, _, flat, hflat⟩ := FloatOperator.generate_flat op p ha
      exact ⟨_, _, flat, fun _ hf _ _ hxy =>
        hflat.controlled.persists hf (Computing.float op p).latency_gt hxy, hflat⟩

theorem Computing.persists {core : Identity → Except Error Artifact}
    (h : Computing kind width latency core) (ha : core id = .ok a)
    (hbounded : ∀ b ∈ a.blocks, ∀ s ∈ b.content.signals, s.2 ≤ wordBits) (hm : a.flatten = .ok m)
    (hxy : m.circuit.Edge x y) : Persists "result" kind.heldPayload x y := by
  obtain ⟨body, parts, flat, hpersistent, hflat⟩ := h.persistent ha (h.width_le ha hbounded)
  obtain rfl : m = flat := Except.ok.inj (hm.symm.trans hflat.flatten)
  exact hpersistent m hflat.flattens x y hxy

namespace Manager.Wrappable

variable {inner line : String} {layout : Layout} {flat whole : Module} {parts : List Part}
  (h : Wrappable width latency extra layout flat)
  (hf : Flattens (wrapper inner line width extra layout)
    (wrapperParts inner line latency extra flat) whole)
include h hf

/-- An extra signal of the result is a slice of the bus out of the line. -/
theorem field_eq (hx : whole.circuit.Settled x) (hfits : whole.circuit.widths.Fits x) {s : Slice}
    (hs : s ∈ layout.slices) : x (PortGroup.fieldName ⟨"result", width, extra, none⟩ s.field) =
      ((x "extra_outs").down s.lo).low s.width := by
  rw [← hf.low_own h.assembled hfits (h.mem_signals_field hs "result" (by simp))]
  refine BitVec.eq_of_getLsbD_eq fun i _ => ?_
  rw [Word.getLsbD_low, Word.getLsbD_low]
  by_cases hi : i < s.width
  · rw [h.unpacked hf hx hfits hs hi, Word.getLsbD_down]
  · simp [hi]

/-- The line stalls with the operator, and so the bus out of it stays as it is. -/
theorem bus_persists (hxy : whole.circuit.Edge x y)
    (haligned : (linePipeline latency extra).Aligned (innerPipeline latency) x)
    (hfull : (innerPipeline latency).full x = true) (hreset : high x "rst" = false)
    (hready : high x "result_ready" = false) : y "extra_outs" = x "extra_outs" := by
  obtain ⟨hrst, -, -, hdrain, -⟩ := h.line_wires hf hxy.settled hxy.fits
  have hstays := (h.line_steps hf hxy.toStep).refused h.latency_pos
    ((congrArg (BitVec.getLsbD · 0) hrst).trans hreset)
    ((haligned.full (h.together hf hxy.settled hxy.fits) h.latency_pos).trans hfull)
    ((congrArg (BitVec.getLsbD · 0) hdrain).trans hready)
  -- whatever the last stage holds, it holds it still
  have hkept : y ("buff__" ++ DelayLine.dataName (latency - 1)) =
      x ("buff__" ++ DelayLine.dataName (latency - 1)) :=
    hstays.2 (fun _ => x ("buff__" ++ DelayLine.dataName (latency - 1))) rfl
  rw [h.bus_eq hf hxy.settled_next hxy.fits_next, h.bus_eq hf hxy.settled hxy.fits, hkept]

theorem persists (hxy : whole.circuit.Edge x y)
    (haligned : (linePipeline latency extra).Aligned (innerPipeline latency) x)
    (hflat : Flattens m parts flat) (hm : Operator.Controlled m parts latency) {names : List String}
    (hnames : ∀ name ∈ names, name ∈ (innerPorts 0).map Port.name)
    (hinner : Operator.Persistent names m parts) :
    Persists "result" (names ++ extra.signals.map fun e => "result" ++ "_" ++ e.name) x y := by
  have hpart := hinner flat hflat _ _ (hf.edge_part h.assembled mem_inner hxy)
  -- the operator inside keeps what it offers, and its ports are those outside
  have hoperator : Persists "result" names x y := by
    have hports : ∀ name ∈ ["rst", "result" ++ "_valid", "result" ++ "_ready"],
        name ∈ (innerPorts 0).map Port.name := by
      decide
    refine hpart.of_view (fun z name => z ("inner__" ++ name)) (fun name hname => ?_)
      (h.inner_eq hf hxy.settled_next hxy.fits_next (hports _ (by simp))) fun hsame name hname => ?_
    · exact h.inner_eq hf hxy.settled hxy.fits (hports name hname)
    · rw [← h.inner_eq hf hxy.settled hxy.fits (hnames name hname),
        ← h.inner_eq hf hxy.settled_next hxy.fits_next (hnames name hname)]
      exact hsame name hname
  intro hreset hvalid hready
  obtain ⟨hagain, hsame⟩ := hoperator hreset hvalid hready
  -- a full operator that stalls does not enable the line beside it either
  have hfull : (innerPipeline latency).full x = true := by
    have hshown :=
      (hm.settled_output hflat h.latency_pos (hf.settled_part h.assembled mem_inner hxy.settled)
      (hf.fits_part h.assembled mem_inner hxy.fits)).2
    exact hshown.symm.trans ((h.inner_high hf hxy.settled hxy.fits (by decide)).trans hvalid)
  have hbus := h.bus_persists hf hxy haligned hfull hreset hready
  refine ⟨hagain, List.forall_mem_append.mpr ⟨hsame, List.forall_mem_map.mpr fun e he => ?_⟩⟩
  obtain ⟨s, hs, hfield, -⟩ := Layout.exists_slice h.layout_of he
  have hshown := h.field_eq hf hxy.settled_next hxy.fits_next hs
  rw [hbus, ← h.field_eq hf hxy.settled hxy.fits hs, hfield] at hshown
  exact hshown

end Manager.Wrappable

theorem Computing.persists_wrapped {core : Identity → Except Error Artifact}
    (h : Computing kind width latency core) (hne : extra.signals ≠ [])
    (ha : Operator.generate id (.signalManaged width extra) latency core = .ok a)
    (hbounded : ∀ b ∈ a.blocks, ∀ s ∈ b.content.signals, s.2 ≤ wordBits) (hm : a.flatten = .ok m)
    {states : List State} (hb : m.circuit.Behaves (fun _ => 0) states) :
    states.IsChain
      (Persists "result"
        (kind.heldPayload ++ extra.signals.map fun e => "result" ++ "_" ++ e.name)) := by
  obtain ⟨hbound, htotal⟩ :=
    Operator.width_le_of_blocks (fun _ hsub => h.isUnit hsub) ha h.width_pos hne hbounded
  obtain ⟨-, body, parts, flat, whole, hpersistent, hwrapped⟩ :=
    Operator.generate_wrapped (P := Operator.Persistent kind.heldPayload)
      (fun _ hsub => h.isUnit hsub)
      (fun _ hsub => h.persistent hsub hbound) ha h.width_pos hbound
        (Nat.lt_of_succ_lt h.latency_gt) hne htotal
  obtain rfl : m = whole := Except.ok.inj (hm.symm.trans hwrapped.flatten)
  obtain ⟨inner, line, layout, hwrap, hf⟩ := hwrapped.wraps
  have haligned := hwrap.aligned hf hwrapped.flattens hwrapped.controlled hb h.latency_gt
  have hnames : ∀ name ∈ kind.heldPayload, name ∈ (Manager.innerPorts 0).map Port.name := by
    cases h with
    | multiplier => decide
    | float => simp [UnitKind.heldPayload]
  exact hb.isChain_edge.imp_of_mem_imp fun {x _} hx _ hxy =>
    hwrap.persists hf hxy (haligned x hx) hwrapped.flattens hwrapped.controlled hnames hpersistent

end

/-! ## Requests -/

namespace UnitKind

variable {kind : UnitKind} {id : Identity} {params : Params} {a : Artifact} {m : Module}

theorem persists_forwarding (hpass : kind.passesThrough = true) (hkind : kind ≠ .priorityMerge)
    (h : kind.generate id params = .ok a) (hdistinct : a.Distinct)
    (hbounded : ∀ b ∈ a.blocks, ∀ s ∈ b.content.signals, s.2 ≤ wordBits) (hm : a.flatten = .ok m) :
    ∃ width extra, params.count .bitwidth = .ok width ∧ params.extraSignals = .ok extra ∧
      ∀ states, m.circuit.Behaves (fun _ => 0) states →
        states.IsChain (Persists "outs" (tokenNames "outs" width extra)) := by
  obtain ⟨tag, size, build, hunit, hpassed, -⟩ := kind.generate_forwarding hpass h
  obtain ⟨width, extra, hwidth, hextra, ⟨hempty, hplain⟩ | ⟨hne, hconcat⟩⟩ := passThrough_ok hpassed
  · refine ⟨width, extra, hwidth, hextra, fun states hb => hb.isChain_edge.imp fun x y hxy => ?_⟩
    rw [tokenNames, hempty, List.map_nil, List.append_nil]
    exact hunit.persists hkind hplain hbounded hm hxy
  · exact ⟨width, extra, hwidth, hextra, fun states hb => hb.isChain_edge.imp fun x y hxy =>
      hunit.persists_carried hkind hne hconcat hdistinct hbounded hm hxy⟩

theorem persists_computing (hkind : kind ∈ [.multiplier, .float .mul, .float .sub])
    (h : kind.generate id params = .ok a)
    (hbounded : ∀ b ∈ a.blocks, ∀ s ∈ b.content.signals, s.2 ≤ wordBits) (hm : a.flatten = .ok m) :
    ∃ extra, params.extraSignals = .ok extra ∧ ∀ states, m.circuit.Behaves (fun _ => 0) states →
      states.IsChain
        (Persists "result"
          (kind.heldPayload ++ extra.signals.map fun e => "result" ++ "_" ++ e.name)) := by
  obtain ⟨width, latency, core, extra, hunit, hextra, hgen, -⟩ := kind.generate_computing hkind h
  refine ⟨extra, hextra, fun states hb => ?_⟩
  rcases Operator.generate_of_ok hgen with ⟨hempty, hplain⟩ | ⟨hne, hwrapped⟩
  · rw [hempty, List.map_nil, List.append_nil]
    exact hb.isChain_edge.imp fun x y hxy => hunit.persists hplain hbounded hm hxy
  · exact hunit.persists_wrapped hne hwrapped hbounded hm hb

/-- The port at which a unit offers its tokens. -/
def output : UnitKind → String
  | .multiplier | .float _ => "result"
  | _ => "outs"

/-- Extra signals persist, and so does the payload unless it comes from an external core. -/
theorem tokens_persist
    (hkind : kind ∈
      [.merge, .buffer, .readyBreak, .dataBreak, .multiplier, .float .mul, .float .sub])
    (h : kind.generate id params = .ok a) (hdistinct : a.Distinct)
    (hbounded : ∀ b ∈ a.blocks, ∀ s ∈ b.content.signals, s.2 ≤ wordBits) (hm : a.flatten = .ok m) :
    ∃ extra, params.extraSignals = .ok extra ∧ ∀ states, m.circuit.Behaves (fun _ => 0) states →
      states.IsChain
        (Persists kind.output (extra.signals.map fun e => kind.output ++ "_" ++ e.name)) ∧
      ((∀ op, kind ≠ .float op) → ∀ width, params.count .bitwidth = .ok width → 0 < width →
        states.IsChain (Persists kind.output [kind.output])) := by
  have hways : ∀ kind ∈ [UnitKind.merge, .buffer, .readyBreak, .dataBreak, .multiplier, .float .mul,
      .float .sub],
      (kind.passesThrough = true ∧ kind ≠ .priorityMerge ∧ kind.output = "outs") ∨
        (kind ∈ [.multiplier, .float .mul, .float .sub] ∧ kind.output = "result") := by
    decide
  rcases hways kind hkind with ⟨hpass, hpriority, hport⟩ | ⟨hcomputes, hport⟩
  · obtain ⟨width, extra, hwidth, hextra, hchain⟩ :=
      persists_forwarding hpass hpriority h hdistinct hbounded hm
    refine ⟨extra, hextra, fun states hb => ?_⟩
    rw [hport]
    refine ⟨(hchain states hb).imp fun x y hxy => hxy.mono
      fun name hname => List.mem_append_right _ hname, ?_⟩
    intro _ width' hwidth' hpos
    obtain rfl : width' = width := Except.ok.inj (hwidth'.symm.trans hwidth)
    refine (hchain states hb).imp fun x y hxy => hxy.mono fun name hname =>
      List.mem_append_left _ ?_
    rw [ifData, if_pos hpos]
    exact hname
  · obtain ⟨extra, hextra, hchain⟩ := persists_computing hcomputes h hbounded hm
    refine ⟨extra, hextra, fun states hb => ?_⟩
    rw [hport]
    refine ⟨(hchain states hb).imp fun x y hxy => hxy.mono
      fun name hname => List.mem_append_right _ hname, ?_⟩
    intro hinteger _ _ _
    have hheld : kind.heldPayload = ["result"] := by
      cases kind with
      | multiplier => rfl
      | float op => exact absurd rfl (hinteger op)
      | _ => exact absurd hcomputes (by decide)
    refine (hchain states hb).imp fun x y hxy => hxy.mono fun name hname =>
      List.mem_append_left _ ?_
    rw [hheld]
    exact hname

end UnitKind

/--
**A token that is offered is neither withdrawn nor altered.** Take a generated
unit that stores its tokens, in which no module declares a name twice and no
signal is wider than a word, and simulate it on any inputs. If in some cycle
without reset its output is valid and the consumer is not ready, the output is
valid in the next cycle as well, and has the same extra signals and, unless it
comes from an external core, the same payload.
-/
theorem offered_tokens_persist {request : Request} {a : Artifact} {kind : UnitKind}
    (hkind : UnitKind.ofTag? request.kind = some kind)
    (hoffers : kind ∈
      [.merge, .buffer, .readyBreak, .dataBreak, .multiplier, .float .mul, .float .sub])
    (ha : generate request = .ok a) (hdistinct : ∀ b ∈ a.blocks, b.content.declared.Nodup)
    (hbounded : ∀ b ∈ a.blocks, ∀ s ∈ b.content.signals, s.2 ≤ wordBits) :
    ∃ extra m, request.params.extraSignals = .ok extra ∧ a.flatten = .ok m ∧
      ∀ cycles : List (List (String × Word)), (∀ inputs ∈ cycles, ∀ i ∈ inputs, i.1 ∈ m.inputs) →
        ∃ trace, (Simulator.start m).run cycles = .ok trace ∧ trace.length = cycles.length ∧
          (trace.map Simulator.get).IsChain
            (Persists kind.output (extra.signals.map fun e => kind.output ++ "_" ++ e.name)) ∧
          ((∀ op, kind ≠ .float op) → ∀ width, request.params.count .bitwidth = .ok width →
            0 < width →
            (trace.map Simulator.get).IsChain (Persists kind.output [kind.output])) := by
  obtain ⟨hname, kind', hkind', h⟩ := generate_eq_ok_iff.mp ha
  obtain rfl : kind' = kind :=
    Option.some.inj ((UnitKind.ofTag?_eq_some_iff.mpr hkind').symm.trans hkind)
  obtain ⟨m, hflatten, hwf, rank, hrank⟩ := (UnitKind.built h).simulates hdistinct hbounded
  obtain ⟨extra, hextra, hpersist⟩ := UnitKind.tokens_persist hoffers h hdistinct hbounded hflatten
  refine ⟨extra, m, hextra, hflatten, fun cycles hcycles => ?_⟩
  obtain ⟨trace, hrun, hlength, hb⟩ := hwf.run_start hrank hcycles
  exact ⟨trace, hrun, hlength, hpersist _ hb⟩

/-- A token with a tag that is offered for one cycle only, to a consumer that is not ready. -/
def refusedToken : List (List (String × Word)) :=
  [[("ins_valid", 1), ("ins", 5), ("ins_tag", 1)], [("ins_valid", 0), ("ins", 0), ("ins_tag", 0)]]

/-- A slot with a tag, whose producer withdraws its token at once. -/
theorem offered_tokens_persist_slot :
    ∃ a m trace, generate (.withSignal "one_slot_break_r" "tag") = .ok a ∧ a.flatten = .ok m ∧
      (Simulator.start m).run refusedToken = .ok trace ∧ trace.length = 2 ∧
      (trace.map Simulator.get).IsChain (Persists "outs" ["outs_tag"]) ∧
      (trace.map Simulator.get).IsChain (Persists "outs" ["outs"]) := by
  have hmade : ∃ a ∈ (generate (.withSignal "one_slot_break_r" "tag")).toOption,
      (∀ b ∈ a.blocks, b.content.declared.Nodup) ∧
      (∀ b ∈ a.blocks, ∀ s ∈ b.content.signals, s.2 ≤ wordBits) ∧
      ∃ m ∈ a.flatten.toOption, ∀ inputs ∈ refusedToken, ∀ i ∈ inputs, i.1 ∈ m.inputs := by
    decide +kernel
  have hsignals : ∃ extra ∈ (Request.withSignal "one_slot_break_r"
      "tag").params.extraSignals.toOption,
      (extra.signals.map fun e => "outs" ++ "_" ++ e.name) = ["outs_tag"] := by
    decide +kernel
  have hkind : UnitKind.ofTag? (Request.withSignal "one_slot_break_r" "tag").kind =
      some .readyBreak := by decide
  have hwidth : 8 ∈
      ((Request.withSignal "one_slot_break_r" "tag").params.count .bitwidth).toOption := by
      decide +kernel
  obtain ⟨a, ha, hdistinct, hbounded, m, hm, hinputs⟩ := hmade
  obtain ⟨extra, hextra, htag⟩ := hsignals
  obtain ⟨extra', m', hextra', hm', hruns⟩ := offered_tokens_persist hkind (by decide)
    (eq_ok_of_mem_toOption ha) hdistinct hbounded
  obtain rfl : m' = m := Except.ok.inj (hm'.symm.trans (eq_ok_of_mem_toOption hm))
  obtain rfl : extra' = extra := Except.ok.inj (hextra'.symm.trans (eq_ok_of_mem_toOption hextra))
  obtain ⟨trace, hrun, hlength, hsignal, hpayload⟩ := hruns refusedToken hinputs
  refine ⟨a, m', trace, eq_ok_of_mem_toOption ha, hm', hrun, hlength, htag ▸ hsignal, ?_⟩
  exact hpayload (fun op heq => nomatch heq) 8 (eq_ok_of_mem_toOption hwidth) (by decide)

end Handshake
