import Handshake.Proofs.Bypassing

/-!
# Generated operators with extra signals

Extra signals make `Operator.generate` put a wrapper around the operator. The
artifact can then be flattened, in two levels: the operator into one module, and
that one and the delay line into the wrapper.

`IsWrapped` is what is known then: both flattenings, the control inside of the
operator, and ranks for all signals of the wrapper. It asks for signals that fit
words and for nothing else, since the wrapper of an operator never declares a
name twice. Which operator it was is left open, so multipliers and the
floating-point operators are treated alike.
-/

namespace Handshake

open Operator

namespace Manager

variable {a sub : Artifact} {width latency : Nat} {extra : ExtraSignals} {layout : Layout}
    {m flat whole : Module} {parts : List Part}

/-- An artifact whose top is a wrapper: its flattening, and that of the operator inside. -/
structure IsWrapped (a : Artifact) (width latency : Nat) (extra : ExtraSignals) (m : Module)
    (parts : List Part) (flat whole : Module) : Prop where
  flatten : a.flatten = .ok whole
  flattens : Flattens m parts flat
  controlled : Controlled m parts latency
  wraps : ∃ inner line layout, Wrappable width latency extra layout flat ∧
    Flattens (wrapper inner line width extra layout)
      (wrapperParts inner line latency extra flat) whole
  acyclic : ∃ rank, whole.circuit.Acyclic rank

theorem IsWrapped.wellFormed (h : IsWrapped a width latency extra m parts flat whole) :
    whole.WellFormed := by
  obtain ⟨inner, line, layout, hwrap, hf⟩ := h.wraps
  exact hf.wellFormed hwrap.assembled

/-- The ports of an operator have low ranks. -/
theorem rank_innerPorts : ∀ p ∈ innerPorts width, Operator.ownRank p.name ≤ 6 := by
  have hclosed : ∀ name ∈ (innerPorts 0).map Port.name, Operator.ownRank name ≤ 6 := by decide
  intro p hp
  have hname : p.name ∈ (innerPorts width).map Port.name := List.mem_map_of_mem hp
  exact hclosed p.name hname

theorem declares_innerPorts (h : 0 < width) (join delay output : String) (datapath : List Item) :
    ∀ p ∈ innerPorts width, (Operator.body width join delay output datapath).circuit.widths.Declares
      p.name := by
  have hsignals := signals_body join delay output datapath h
  intro p hp
  have hmem : (p.name, p.width) ∈ (Operator.body width join delay output datapath).signals := by
    rw [hsignals]
    refine List.mem_append_left _ ?_
    revert p
    simp [innerPorts, Port.input, Port.output]
  exact Module.declares_of_mem hmem

theorem exists_low_rank {name : String}
    (hsub : IsFlattened sub name width latency m parts flat) (hpos : 0 < width) :
    ∃ rank, flat.circuit.Acyclic rank ∧ ∀ p ∈ innerPorts width, rank p.name ≤ 6 := by
  obtain ⟨rank, hacyclic, hown⟩ := hsub.flattens.exists_rank hsub.controlled.assembled hsub.ranked
  obtain ⟨join, delay, output, datapath, rfl⟩ := hsub.shape
  refine ⟨rank, hacyclic, fun p hp => ?_⟩
  rw [hown p.name (declares_innerPorts hpos join delay output datapath p hp)]
  exact rank_innerPorts p hp

theorem Wrappable.of_flattened {name : String}
    (hsub : IsFlattened sub name width latency m parts flat) (hpos : 0 < width)
    (hbound : width ≤ wordBits) (hlatency : 0 < latency) (hlayout : Layout.of 0 extra = .ok layout)
    (hextra : extra.signals ≠ []) (htotal : extra.totalWidth ≤ wordBits)
    (hcheck : checkPortGroups (operands width extra) (results width extra) extra = .ok ()) :
    Wrappable width latency extra layout flat where
  width_pos := hpos
  width_le := hbound
  latency_pos := hlatency
  layout_of := hlayout
  extra_ne := hextra
  extra_le := htotal
  check := hcheck
  ports := by
    obtain ⟨join, delay, output, datapath, rfl⟩ := hsub.shape
    exact hsub.flattens.ports
  wellFormed := hsub.flattens.wellFormed hsub.controlled.assembled

theorem Wrappable.ports_parts (h : Wrappable width latency extra layout flat)
    (inner line : String) :
    ∀ p ∈ wrapperParts inner line latency extra flat, ∀ c ∈ p.1.connections,
      (p.2.port? c.1).isSome = true := by
  have hline := h.port_line line
  simp only [Port.input, Port.output, List.forall_mem_cons] at hline
  simp only [wrapperParts, List.forall_mem_cons, List.not_mem_nil, false_imp_iff,
    implies_true, and_true]
  constructor
  · intro c hc
    rw [connections_inner inner width] at hc
    obtain ⟨p, hp, rfl⟩ := List.mem_map.mp hc
    exact Option.isSome_iff_exists.mpr ⟨p, h.port_inner p hp⟩
  · simp [-Prod.forall, lineInstance, sameName, wire, leaveOpen, hline]

/-- **A generated operator with extra signals can be flattened.** -/
theorem isWrapped_of_blocks {id : Identity} (hunit : a.IsUnit id.text)
    (hblocks : a.blocks = sub.blocks ++
      [⟨{ (DelayLine.mk latency extra.totalWidth).body with name := derived id.text [.buff] },
        latency⟩,
        ⟨{ wrapper (derived id.text [.inner]) (derived id.text [.buff]) width extra layout with
            name := id.text }, latency⟩])
    (hsub : IsFlattened sub (derived id.text [.inner]) width latency m parts flat)
    (hwrap : Wrappable width latency extra layout flat) :
    ∃ whole, IsWrapped a width latency extra m parts flat whole := by
  generalize derived id.text [.inner] = inner, derived id.text [.buff] = line at hblocks hsub
  obtain ⟨before, top, hbefore, htop⟩ := hsub.top
  have hsplit : a.blocks = (sub.blocks ++
      [⟨{ (DelayLine.mk latency extra.totalWidth).body with name := line }, latency⟩]) ++
      [⟨{ wrapper inner line width extra layout with name := id.text }, latency⟩] := by
    rw [hblocks, List.append_assoc]
    rfl
  have hdistinct := hunit.wellFormed.distinct
  rw [hsplit, List.map_append, List.nodup_append] at hdistinct
  obtain ⟨hearlier, -, hcross⟩ := hdistinct
  have hinstances : Item.instancesOf (wrapper inner line width extra layout).items =
      (wrapperParts inner line latency extra flat).map Prod.fst ++ [] :=
    instancesOf_wrapper hwrap.width_pos hwrap.total_pos
  have hinner := Artifact.lookup_top hbefore hearlier
  rw [htop, hsub.flatten] at hinner
  have hline := Artifact.lookup_leaf hearlier (List.mem_append_right _ (List.mem_singleton_self _))
    (DelayLine.instancesOf_body (Nat.ne_of_gt hwrap.latency_pos)
      (ExtraSignals.totalWidth_pos hwrap.extra_ne))
  -- no block before the wrapper has its name
  have hself : ∀ i ∈ Item.instancesOf (wrapper inner line width extra layout).items,
      i.moduleName ≠ id.text := by
    have hnames : ∀ name ∈ [inner, line], name ≠ id.text := by
      intro name hname
      refine hcross name ?_ id.text (List.mem_singleton_self _)
      rw [List.map_append, hbefore, List.map_append]
      simp only [List.mem_cons, List.not_mem_nil, or_false] at hname
      rcases hname with rfl | rfl
      · exact List.mem_append_left _ (List.mem_append_right _ (by simp [htop]))
      · exact List.mem_append_right _ (List.mem_singleton_self _)
    rw [instancesOf_wrapper hwrap.width_pos hwrap.total_pos]
    simpa [innerInstance, lineInstance] using hnames
  obtain ⟨whole, hflatten, hflattens⟩ := Module.flatten_parts
    (m := { wrapper inner line width extra layout with name := id.text }) hinstances hself
    (List.forall_mem_cons.mpr ⟨hinner, List.forall_mem_singleton.mpr hline⟩)
      (hwrap.ports_parts inner line) (by simp)
  have hf : Flattens (wrapper inner line width extra layout)
      (wrapperParts inner line latency extra flat) whole :=
    ⟨hflattens.ports, hflattens.signals, hflattens.assigns, hflattens.processes⟩
  -- the ranks inside the operator leave room for those of the wrapper around it
  obtain ⟨rank, hrank, hlow⟩ := exists_low_rank hsub hwrap.width_pos
  obtain ⟨ranks, hacyclic, -⟩ := hf.exists_rank hwrap.assembled (hwrap.ranked hrank hlow)
  refine ⟨whole, ?_, hsub.flattens, hsub.controlled, ⟨inner, line, layout, hwrap, hf⟩,
    ranks, hacyclic⟩
  rw [Artifact.flatten_concat hsplit]
  exact hflatten

end Manager

/-! ## From requests -/

namespace Operator

open Manager

variable {id : Identity} {a : Artifact} {width latency : Nat} {extra : ExtraSignals}
  {core : Identity → Except Error Artifact}

/-- The wrapper has the operands and the bus of the extra signals among its signals. -/
theorem width_le_of_blocks
    (hunit : ∀ sub, core (id.child .inner) = .ok sub → sub.IsUnit (id.child .inner).text)
    (ha : generate id (.signalManaged width extra) latency core = .ok a) (hpos : 0 < width)
    (hextra : extra.signals ≠ [])
    (hwidths : ∀ b ∈ a.blocks, ∀ s ∈ b.content.signals, s.2 ≤ wordBits) :
    width ≤ wordBits ∧ extra.totalWidth ≤ wordBits := by
  obtain ⟨sub, layout, -, -, -, hlayout, hblocks, -⟩ := bypass_ok hunit ha
  have htotal : layout.total = extra.totalWidth := by rw [Layout.total_of hlayout, Nat.zero_add]
  have htotal_pos : 0 < layout.total := htotal ▸ ExtraSignals.totalWidth_pos hextra
  have hwrapper : ∀ s ∈ (wrapper (derived id.text [.inner]) (derived id.text [.buff]) width extra
      layout).signals,
      s.2 ≤ wordBits := hwidths _ (by
        rw [hblocks]
        exact List.mem_append_right _ (List.mem_cons_of_mem _ List.mem_cons_self))
  constructor
  · exact hwrapper _ (mem_signals_data hpos htotal_pos "lhs" (by simp))
  · rw [← htotal]
    exact hwrapper _ (mem_signals_bus htotal_pos "extra_ins" (by simp))

/-- An operator with extra signals is a wrapper around the operator without them. -/
theorem generate_wrapped {P : Module → List Part → Prop}
    (hunit : ∀ sub, core (id.child .inner) = .ok sub → sub.IsUnit (id.child .inner).text)
    (hflat : ∀ sub, core (id.child .inner) = .ok sub →
      ∃ m parts flat, P m parts ∧ IsFlattened sub (id.child .inner).text width latency m parts flat)
    (ha : generate id (.signalManaged width extra) latency core = .ok a) (hpos : 0 < width)
    (hbound : width ≤ wordBits) (hlatency : 0 < latency) (hextra : extra.signals ≠ [])
    (htotal : extra.totalWidth ≤ wordBits) :
    a.latency = latency ∧ ∃ m parts flat whole, P m parts ∧
      IsWrapped a width latency extra m parts flat whole := by
  obtain ⟨sub, layout, hcheck, hsub, -, hlayout, hblocks, -, hdepth, hwhole⟩ := bypass_ok hunit ha
  obtain ⟨m, parts, flat, hm, hflattened⟩ := hflat sub hsub
  rw [id.text_child_eq] at hflattened
  have hwrap := Wrappable.of_flattened hflattened hpos hbound hlatency hlayout hextra htotal hcheck
  obtain ⟨whole, hwrapped⟩ := isWrapped_of_blocks hwhole hblocks hflattened hwrap
  exact ⟨hdepth, m, parts, flat, whole, hm, hwrapped⟩

theorem generate_isWrapped
    (hunit : ∀ sub, core (id.child .inner) = .ok sub → sub.IsUnit (id.child .inner).text)
    (hflat : width ≤ wordBits → ∀ sub, core (id.child .inner) = .ok sub →
      ∃ m parts flat, IsFlattened sub (id.child .inner).text width latency m parts flat)
    (ha : generate id (.signalManaged width extra) latency core = .ok a) (hpos : 0 < width)
    (hlatency : 1 < latency) (hextra : extra.signals ≠ [])
    (hwidths : ∀ b ∈ a.blocks, ∀ s ∈ b.content.signals, s.2 ≤ wordBits) :
    1 < a.latency ∧ ∃ m parts flat whole, IsWrapped a width a.latency extra m parts flat whole := by
  obtain ⟨hbound, htotal⟩ := width_le_of_blocks hunit ha hpos hextra hwidths
  obtain ⟨hdepth, m, parts, flat, whole, -, hwrapped⟩ :=
    generate_wrapped (P := fun _ _ => True) hunit
      (fun sub hsub =>
        have ⟨m, parts, flat, hflattened⟩ := hflat hbound sub hsub
        ⟨m, parts, flat, trivial, hflattened⟩)
      ha hpos hbound (Nat.lt_of_succ_lt hlatency) hextra htotal
  rw [hdepth]
  exact ⟨hlatency, m, parts, flat, whole, hwrapped⟩

end Operator

/--
What is computed for a request: a product of integers, or of floating-point
numbers, or a difference.
-/
theorem generate_computing {request : Request} {a : Artifact}
    (hkind : request.kind ∈ ["muli", "mulf", "subf"]) (ha : generate request = .ok a) :
    ∃ id, Multiplier.ofParams id request.params = .ok a ∨
      ∃ op : FloatOperator, op.ofParams id request.params = .ok a := by
  obtain ⟨id, -, h⟩ := bind_ok ha
  refine ⟨id, ?_⟩
  simp only [List.mem_cons, List.not_mem_nil, or_false] at hkind
  rcases hkind with heq | heq | heq
  · rw [heq] at h
    exact Or.inl h
  · rw [heq] at h
    exact Or.inr ⟨.mul, h⟩
  · rw [heq] at h
    exact Or.inr ⟨.sub, h⟩

/-- Operators that are requested with extra signals are wrapped, and can be flattened. -/
theorem isWrapped_of_request {request : Request} {a : Artifact} {extra : ExtraSignals}
    (hkind : request.kind ∈ ["muli", "mulf", "subf"]) (ha : generate request = .ok a)
    (hextra : request.params.extraSignals = .ok extra) (hne : extra.signals ≠ [])
    (hwidths : ∀ b ∈ a.blocks, ∀ s ∈ b.content.signals, s.2 ≤ wordBits) :
    1 < a.latency ∧ ∃ width m parts flat whole,
      Manager.IsWrapped a width a.latency extra m parts flat whole := by
  obtain ⟨id, h | ⟨op, h⟩⟩ := generate_computing hkind ha
  · obtain ⟨width, extra', -, hextra', hpos, h⟩ := Multiplier.ofParams_ok h
    obtain rfl : extra' = extra := Except.ok.inj (hextra'.symm.trans hextra)
    rw [Variant.of_extra hne] at h
    obtain ⟨hlatency, m, parts, flat, whole, hwrapped⟩ :=
      Operator.generate_isWrapped (fun sub hsub => (Multiplier.generate_ok hsub).2.2)
        (fun hbound sub hsub =>
          have ⟨_, _, _, _, flat, hflat⟩ := Multiplier.generate_flat hsub hpos hbound
          ⟨_, _, flat, hflat⟩)
        h hpos (by decide) hne hwidths
    exact ⟨hlatency, width, m, parts, flat, whole, hwrapped⟩
  · obtain ⟨p, extra', -, hextra', h⟩ := FloatOperator.ofParams_ok h
    obtain rfl : extra' = extra := Except.ok.inj (hextra'.symm.trans hextra)
    rw [Variant.of_extra hne] at h
    have hpos : 0 < p.width := by cases p <;> decide
    have hdeep : 1 < op.latency p := by cases op <;> cases p <;> decide
    obtain ⟨hlatency, m, parts, flat, whole, hwrapped⟩ :=
      Operator.generate_isWrapped (fun sub hsub => (FloatOperator.generate_ok hsub).2.2)
        (fun _ sub hsub =>
          have ⟨_, _, _, flat, hflat⟩ := FloatOperator.generate_flat op p hsub
          ⟨_, _, flat, hflat⟩)
        h hpos hdeep hne hwidths
    exact ⟨hlatency, p.width, m, parts, flat, whole, hwrapped⟩

end Handshake
