import Handshake.Proofs.Concatenation

/-!
# Wrappers around units that can be simulated

A unit that is well formed and does not depend on itself can be wrapped: the
wrapper flattens into such a module again. In its settled states the unit inside
has the handshakes of the wrapper, and takes each bus for its payload, so a
token at a port outside is a payload of the unit cut into fields.

`Encases` is the relation between a wrapper, the unit in it, and the flattened
module, and `concat_encases` establishes it for what the generator writes. Two
things can stand in the way: a name that is declared twice, and a name of the
wrapper that could be taken for one inside of the unit. The second is ruled out
by the names of the groups alone, since those of ports and buses begin with them
(`Bundles.outside`).
-/

namespace Handshake

namespace Manager

variable {id : Identity} {width : Nat} {extra : ExtraSignals} {layout : Layout}
    {ins outs : List PortGroup} {inner : String} {sub whole : Module} {a : Artifact}

/-- A wrapper around a unit, flattened. -/
structure Encases (width : Nat) (extra : ExtraSignals) (layout : Layout) (ins outs : List PortGroup)
    (inner : String) (sub whole : Module) : Prop where
  bundles : Bundles width extra layout ins outs
  interface : Interface ins outs layout.total sub
  assembled : (bundling inner ins outs layout).Assembled [(bundlingInstance inner ins outs, sub)]
  flattens : Flattens (bundling inner ins outs layout) [(bundlingInstance inner ins outs, sub)]
    whole

namespace Encases

variable (h : Encases width extra layout ins outs inner sub whole) {x : State}
    (hx : whole.circuit.Settled x) (hfits : whole.circuit.widths.Fits x)
include h hx hfits

theorem reset_eq : x ("inner__" ++ "rst") = x "rst" :=
  h.flattens.wire_eq h.assembled hx hfits (List.mem_singleton_self _)
    (List.mem_append_left _ (by simp [clockWires, sameName, wire]))
      (h.interface.port_clock "rst" (by simp))
    (h.bundles.mem_signals_clock (by simp))

/-- The unit has the handshakes of the wrapper, and takes the buses for its payload. -/
theorem group_eq {g : PortGroup} (hg : g ∈ ins ++ outs) :
    x ("inner__" ++ g.name) = x (busOf g) ∧ x ("inner__" ++ g.valid) = x g.valid ∧
      x ("inner__" ++ g.ready) = x g.ready := by
  have hwire : ∀ {port name : String} {q : Port},
      (port, some (.ident name)) ∈
      [wire g.name (.ident (busOf g)), sameName g.valid, sameName g.ready] →
      sub.port? port = some q → (name, q.width) ∈ (bundling inner ins outs layout).signals →
      x ("inner__" ++ port) = x name := fun hc hq hmem =>
    h.flattens.wire_eq h.assembled hx hfits (List.mem_singleton_self _)
      (List.mem_append_right _ (List.mem_flatMap.mpr ⟨g, hg, hc⟩)) hq hmem
  have hbus : (busOf g, g.channels * layout.total) ∈ (bundling inner ins outs layout).signals :=
    h.bundles.mem_signals_bus hg
  have hvalid : (g.valid, g.channels) ∈ (bundling inner ins outs layout).signals :=
    h.bundles.mem_signals_valid hg
  have hready : (g.ready, g.channels) ∈ (bundling inner ins outs layout).signals :=
    h.bundles.mem_signals_ready hg
  rcases List.mem_append.mp hg with hgroup | hgroup
  · obtain ⟨hname, hv, hr⟩ := h.bundles.port_input h.interface hgroup
    exact ⟨hwire (by simp [wire]) hname hbus, hwire (by simp [sameName, wire]) hv hvalid,
      hwire (by simp [sameName, wire]) hr hready⟩
  · obtain ⟨hname, hv, hr⟩ := h.bundles.port_output h.interface hgroup
    exact ⟨hwire (by simp [wire]) hname hbus, hwire (by simp [sameName, wire]) hv hvalid,
      hwire (by simp [sameName, wire]) hr hready⟩

/-- A channel of the unit's payload consists of the fields of that channel outside. -/
theorem fields_eq {g : PortGroup} (hg : g ∈ ins ++ outs) {c : Nat} (hc : c < g.channels) :
    (Layout.fields width extra).map (fun f => (x (g.fieldName f.1)).channel f.2 c) =
      layout.slices.map fun s =>
        (((x ("inner__" ++ g.name)).channel layout.total c).down s.lo).low s.width := by
  have hcarried : Bundles.Carried layout x g :=
    h.bundles.carried (fun a ha => h.flattens.holds_own h.assembled hx ha)
      (fun s hs => h.flattens.low_own h.assembled hfits hs) hg
  have hfields : Layout.fields width extra = layout.slices.map fun s => (s.field, s.width) := by
    rw [Layout.slices_eq h.bundles.layout_of, Layout.map_place]
  rw [hfields, List.map_map, (h.group_eq hx hfits hg).1]
  exact List.map_congr_left fun s hs => (hcarried c hc s hs).symm

omit hx in
/-- A field of a single channel is as wide as its port. -/
theorem low_field {g : PortGroup} (hg : g ∈ ins ++ outs) (hone : g.channels = 1) {f : Field × Nat}
    (hf : f ∈ Layout.fields width extra) : (x (g.fieldName f.1)).low f.2 = x (g.fieldName f.1) := by
  rw [← Layout.map_place 0 (Layout.fields width extra),
    ← Layout.slices_eq h.bundles.layout_of] at hf
  obtain ⟨s, hs, rfl⟩ := List.mem_map.mp hf
  have hmem : (g.fieldName s.field, g.channels * s.width) ∈
      (bundling inner ins outs layout).signals :=
    h.bundles.mem_signals_field hg hs
  rw [hone, Nat.one_mul] at hmem
  exact h.flattens.low_own h.assembled hfits hmem

/-- A token of a single channel is the unit's payload, cut into fields. -/
theorem token_eq {g : PortGroup} (hg : g ∈ ins ++ outs) (hone : g.channels = 1) :
    (Layout.fields width extra).map (fun f => x (g.fieldName f.1)) =
      layout.slices.map fun s =>
        (((x ("inner__" ++ g.name)).low layout.total).down s.lo).low s.width := by
  have hfields := h.fields_eq hx hfits hg (c := 0) (hone ▸ Nat.one_pos)
  rw [Word.channel_zero] at hfields
  refine Eq.trans (List.map_congr_left fun f hf => ?_) hfields
  rw [Word.channel_zero]
  exact (h.low_field hfits hg hone hf).symm

end Encases

/-- No name of the wrapper could be taken for one inside of the unit. -/
theorem Bundles.outside (h : Bundles width extra layout ins outs)
    (hstems : ∀ g ∈ ins ++ outs, ¬ "inner__".toList <+: g.name.toList ∧
      ¬ g.name.toList <+: "inner__".toList) :
    ∀ name ∈ (bundling inner ins outs layout).signals.map Prod.fst,
      ¬ "inner__".toList <+: name.toList := by
  have hgroup : ∀ {name : String} {g : PortGroup}, g ∈ ins ++ outs → g.name.toList <+: name.toList →
      ¬ "inner__".toList <+: name.toList := fun hg hstem hbegins =>
    -- two beginnings of one name: one of them would begin the other
    (List.prefix_or_prefix_of_prefix hbegins hstem).elim (hstems _ hg).1 (hstems _ hg).2
  intro name hname
  rw [Grouped.signals_bundling h.bus_pos, List.map_append, List.map_map, List.map_map] at hname
  rcases List.mem_append.mp hname with hname | hname
  · rcases outerPorts_start hname with rfl | rfl | ⟨g, hg, hstem⟩
    · decide
    · decide
    · exact hgroup hg hstem
  · obtain ⟨g, hg, rfl⟩ := List.mem_map.mp hname
    refine hgroup hg ?_
    simp [busOf]

variable {generate : Identity → Nat → Except Error Artifact}

/--
A wrapper of groups of one width around a unit that can be simulated can be
simulated, if no name in it is declared twice or could be taken for one inside
the unit.
-/
theorem concat_encases (ha : concat id ins outs extra generate = .ok a)
    (hwidth : ∀ g ∈ ins ++ outs, g.width = width) (hpos : 0 < width + extra.totalWidth)
    (hdistinct : a.Distinct) (hbounded : ∀ b ∈ a.blocks, ∀ s ∈ b.content.signals, s.2 ≤ wordBits)
    (hstems : ∀ g ∈ ins ++ outs, ¬ "inner__".toList <+: g.name.toList ∧
      ¬ g.name.toList <+: "inner__".toList)
    (hgen : ∀ unit, generate (id.child .inner) (width + extra.totalWidth) = .ok unit →
      unit.IsUnit (id.child .inner).text) :
    ∃ layout unit, Layout.of width extra = .ok layout ∧
      generate (id.child .inner) (width + extra.totalWidth) = .ok unit ∧
      (∀ b ∈ unit.blocks, b ∈ a.blocks) ∧
      ∀ sub, unit.flatten = .ok sub → sub.WellFormed → (∃ rank, sub.circuit.Acyclic rank) →
        Interface ins outs layout.total sub →
        ∃ inner whole, a.flatten = .ok whole ∧ Encases width extra layout ins outs inner sub whole ∧
          ∃ rank, whole.circuit.Acyclic rank := by
  obtain ⟨layout, unit, hlayout, hcheck, hunit, hisUnit, hblocks⟩ :=
    concat_bundling ha hwidth fun unit hunit => (hgen unit hunit).wellFormed_top
  refine ⟨layout, unit, hlayout, hunit, ?_, fun sub hsub hwf ⟨rank, hrank⟩ hinterface => ?_⟩
  · rw [hblocks]
    exact fun b hb => List.mem_append_left _ hb
  · have hmem :
        (⟨{ bundling (derived id.text [.inner]) ins outs layout with name := id.text },
          unit.latency⟩ : Block) ∈
        a.blocks := by
      rw [hblocks]
      exact List.mem_append_right _ (List.mem_singleton_self _)
    -- the unit is another module than the wrapper, and is found in the table of blocks
    have hself : derived id.text [.inner] ≠ id.text := fun heq =>
      absurd (derived_injective (r := [.inner]) (s := []) heq) (by simp)
    have hlookup : (Artifact.flatModules unit.blocks).lookup (derived id.text [.inner]) =
        some (.ok sub) := by
      rw [← Identity.text_child_eq, hisUnit.lookup_self, hsub]
    -- from here on only the name of the unit matters
    generalize derived id.text [.inner] = inner at hblocks hmem hself hlookup
    have hbundles : Bundles width extra layout ins outs :=
      bundles_of_check hlayout hcheck hwidth hpos (Module.distinct_of_declared (hdistinct _ hmem))
        (hbounded _ hmem)
    have hassembled : (bundling inner ins outs layout).Assembled
        [(bundlingInstance inner ins outs, sub)] :=
      ⟨hbundles.connected hinterface (hbundles.outside hstems), List.forall_mem_singleton.mpr hwf⟩
    have hinstances : Item.instancesOf
        ({ bundling inner ins outs layout with name := id.text } : Module).items =
          [((bundlingInstance inner ins outs, sub) : Part)].map Prod.fst ++ [] :=
      hbundles.instancesOf_bundling
    have hports : ∀ p ∈ [((bundlingInstance inner ins outs, sub) : Part)], ∀ c ∈ p.1.connections,
        (p.2.port? c.1).isSome = true := by
      refine List.forall_mem_singleton.mpr fun c hc => ?_
      obtain ⟨_, q, -, hq, -⟩ := hbundles.rank_connection hinterface hc 0
      exact Option.isSome_iff_exists.mpr ⟨q, hq⟩
    obtain ⟨whole, hflatten, hflattens⟩ := Module.flatten_parts hinstances
      (by rw [hinstances]; exact List.forall_mem_singleton.mpr hself)
      (List.forall_mem_singleton.mpr hlookup) hports (by simp)
    have hf : Flattens (bundling inner ins outs layout)
        [(bundlingInstance inner ins outs, sub)] whole :=
      ⟨hflattens.ports, hflattens.signals, hflattens.assigns, hflattens.processes⟩
    obtain ⟨own, ranks, hranked⟩ := hbundles.ranked hinterface hwf.distinct hrank
    obtain ⟨rank', hacyclic, -⟩ := hf.exists_rank hassembled hranked
    refine ⟨inner, whole, ?_, ⟨hbundles, hinterface, hassembled, hf⟩, rank', hacyclic⟩
    rw [Artifact.flatten_concat hblocks]
    exact hflatten

end Manager

end Handshake
