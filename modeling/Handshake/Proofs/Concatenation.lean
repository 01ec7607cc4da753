import Handshake.Proofs.Bundles
import Handshake.Proofs.Enclosure

/-!
# The concatenating wrapper is transparent

Groups of ports of one payload width are wrapped around a unit that takes
payload and extra signals together for its payload. Whatever the unit does
inside, the wrapper shows its ports as they are: each channel of an input port
of the unit is the packing of the fields of that channel outside, the fields of
an output are the unpacking of the unit's output port, and the valid and ready
signals are those of the unit.

Nothing is asked of the unit but its ports. It need not be well formed, and need
not settle to what its assigns say; the wrapper's own assigns hold in every
quiet state all the same. The names of the unit's ports must differ, though, and
that is more than what the wrapper checks: the last example has two that do not.
-/

namespace Handshake

/-- A unit stands in the table of its blocks, under its name and with its flattening. -/
theorem Artifact.IsUnit.lookup_self {a : Artifact} {name : String} (h : a.IsUnit name) :
    (flatModules a.blocks).lookup name = some a.flatten := by
  obtain ⟨top, htop, rfl⟩ := h.top
  obtain ⟨before, hbefore⟩ := List.getLast?_eq_some_iff.mp htop
  have hnodup : ((a.blocks ++ []).map Block.identity).Nodup := by
    rw [List.append_nil]
    exact h.wellFormed.distinct
  have hfound := lookup_top hbefore hnodup
  rwa [List.append_nil] at hfound

namespace Manager

variable {id : Identity} {ins outs : List PortGroup} {extra : ExtraSignals} {width : Nat}
variable {generate : Identity → Nat → Except Error Artifact} {a : Artifact}

/--
A wrapper of groups of one width: the blocks of the unit, then the wrapper, with
one layout for all groups.
-/
theorem concat_bundling (ha : concat id ins outs extra generate = .ok a)
    (hwidth : ∀ g ∈ ins ++ outs, g.width = width)
    (hgen : ∀ sub, generate (id.child .inner) (width + extra.totalWidth) = .ok sub →
      ∀ top, sub.top? = some top → sub.WellFormed top.identity) :
    ∃ layout sub, Layout.of width extra = .ok layout ∧ checkPortGroups ins outs extra = .ok () ∧
      generate (id.child .inner) (width + extra.totalWidth) = .ok sub ∧
      sub.IsUnit (id.child .inner).text ∧
      a.blocks = sub.blocks ++
        [⟨{ bundling (derived id.text [.inner]) ins outs layout with name := id.text },
          sub.latency⟩] := by
  match ins, outs with
  | [], _ => exact absurd ha (by simp [concat])
  | _ :: _, [] => exact absurd ha (by simp [concat])
  | first :: ins, second :: outs =>
      have hfirst : first.width = width := hwidth first List.mem_cons_self
      have hcombined : ∀ w, combinedWidth first.width extra = .ok w →
          w = width + extra.totalWidth := fun w hw =>
        hfirst ▸ combinedWidth_ok hw
      obtain ⟨w, sub, laidIns, laidOuts, hcheck, hw, hins, houts, hsub, hunit, hblocks, -⟩ :=
        concat_ok (fun w sub hw hsub => hgen sub (hcombined w hw ▸ hsub)) ha
      obtain ⟨layout, hlayout⟩ : ∃ layout, Layout.of width extra = .ok layout := by
        unfold Layout.of
        rw [← hfirst, hw]
        exact ⟨_, rfl⟩
      have hgroups : ∀ g ∈ (first :: ins) ++ (second :: outs), g.width = width ∧
          g.extra = extra := fun g hg =>
        ⟨hwidth g hg, (groups_checked hcheck g hg).1⟩
      rw [layOut_same hlayout fun g hg => hgroups g (List.mem_append_left _ hg),
        Except.ok.injEq] at hins
      rw [layOut_same hlayout fun g hg => hgroups g (List.mem_append_right _ hg),
        Except.ok.injEq] at houts
      subst hins
      subst houts
      exact ⟨layout, sub, hlayout, hcheck, hcombined w hw ▸ hsub, hunit, hblocks⟩

theorem grouped_of_check {layout : Layout} {inner : String}
    (hlayout : Layout.of width extra = .ok layout)
    (hcheck : checkPortGroups ins outs extra = .ok ()) (hwidth : ∀ g ∈ ins ++ outs, g.width = width)
    (hpos : 0 < width + extra.totalWidth)
    (hdistinct : ((bundling inner ins outs layout).signals.map Prod.fst).Nodup) :
    Grouped width extra layout ins outs := by
  have htotal : 0 < layout.total := by rwa [Layout.total_of hlayout]
  have hbus : ∀ g ∈ ins ++ outs, 0 < g.channels * layout.total := fun g hg =>
    Nat.mul_pos (groups_checked hcheck g hg).2 htotal
  rw [Grouped.signals_bundling hbus, List.map_append, List.map_map, List.map_map] at hdistinct
  exact ⟨hlayout, htotal, fun g hg => ⟨hwidth g hg, groups_checked hcheck g hg⟩, hdistinct⟩

theorem bundles_of_check {layout : Layout} {inner : String}
    (hlayout : Layout.of width extra = .ok layout)
    (hcheck : checkPortGroups ins outs extra = .ok ()) (hwidth : ∀ g ∈ ins ++ outs, g.width = width)
    (hpos : 0 < width + extra.totalWidth)
    (hdistinct : ((bundling inner ins outs layout).signals.map Prod.fst).Nodup)
    (hbounded : ∀ s ∈ (bundling inner ins outs layout).signals, s.2 ≤ wordBits) :
    Bundles width extra layout ins outs := by
  have h := grouped_of_check hlayout hcheck hwidth hpos hdistinct
  exact ⟨h, fun p hp => hbounded _ (h.mem_signals_port hp),
    fun g hg => hbounded _ (h.mem_signals_bus hg)⟩

/-- The wrapper shows the ports of the unit inside, in one state. -/
structure Transparent (ins outs : List PortGroup) (layout : Layout) (x : State) : Prop where
  inputs : ∀ g ∈ ins, ∀ c < g.channels,
    layout.pack (layout.slices.map fun s => (x (g.fieldName s.field)).channel s.width c) =
      some ((x ("inner__" ++ g.name)).channel layout.total c)
  outputs : ∀ g ∈ outs, ∀ c < g.channels,
    layout.unpack ((x ("inner__" ++ g.name)).channel layout.total c) =
      some (layout.slices.map fun s => (x (g.fieldName s.field)).channel s.width c)
  handshakes : ∀ g ∈ ins ++ outs, x g.valid = x ("inner__" ++ g.valid) ∧
    x g.ready = x ("inner__" ++ g.ready)

namespace Bundles

variable {layout : Layout} {inner name : String} {sub flat : Module}
    (h : Bundles width extra layout ins outs) (hsub : Interface ins outs layout.total sub)
include h hsub

/-- The flattened wrapper has the unit's assigns after its own. -/
theorem encloses {flatModules : FlatModules} (hself : inner ≠ name)
    (hlookup : flatModules.lookup inner = some (.ok sub))
    (hflat : ({ bundling inner ins outs layout with name } : Module).flatten flatModules =
      .ok flat) :
    Encloses { bundling inner ins outs layout with name } (bundlingInstance inner ins outs, sub)
      flat := by
  have hinstance : Item.instancesOf (bundling inner ins outs layout).items =
      [bundlingInstance inner ins outs] :=
    h.instancesOf_bundling
  rw [bundling, instancesOf_concatBody, List.singleton_inj] at hinstance
  obtain ⟨own, hitems, hleaf⟩ := items_concatBody inner (outerPorts ins outs)
    (ins.map fun g => (g, layout)) (outs.map fun g => (g, layout))
  rw [hinstance] at hitems
  refine Module.encloses hitems hleaf hself hlookup (fun c hc => ?_) hflat
  obtain ⟨_, q, -, hq, -⟩ := h.rank_connection hsub hc 0
  exact Option.isSome_iff_exists.mpr ⟨q, hq⟩

/-- **In quiet states the wrapper is transparent.** -/
theorem transparent (hwidths : ∀ q ∈ sub.ports, sub.circuit.widths.width q.name = q.width)
    (houtside : ∀ name ∈ (bundling inner ins outs layout).signals.map Prod.fst,
      ¬ "inner__".toList <+: name.toList)
    (hencloses : Encloses { bundling inner ins outs layout with name }
      (bundlingInstance inner ins outs, sub) flat)
    {v : Valuation} (hv : v.Tidy flat.circuit.widths) (hpass : flat.circuit.pass v = .ok v) :
    Transparent ins outs layout v.get := by
  have hc := (h.connected hsub houtside).named name
  have hrename : ∀ port, Part.rename (bundlingInstance inner ins outs, sub) port =
      "inner__" ++ port := fun _ => rfl
  have hport : ∀ {port : String} {q : Port}, sub.port? port = some q →
      sub.circuit.widths.width port = q.width := by
    intro port q hq
    have hname : q.name = port := by simpa using List.find?_some hq
    rw [← hname]
    exact hwidths q (List.mem_of_find?_eq_some hq)
  have hmem : ∀ g ∈ ins ++ outs,
      ∀ c ∈ [wire g.name (.ident (busOf g)), sameName g.valid, sameName g.ready],
      c ∈ (bundlingInstance inner ins outs).connections := fun g hg c hc =>
    List.mem_append_right _ (List.mem_flatMap.mpr ⟨g, hg, hc⟩)
  have hown : ∀ s ∈ (bundling inner ins outs layout).signals,
      (bundling inner ins outs layout).circuit.widths.width s.1 = s.2 :=
        fun s hs => Module.width_eq h.distinct_signals hs
  -- the wrapper's own assigns hold, although nothing is known about the unit
  have hcarried : ∀ g ∈ ins ++ outs, Carried layout v.get g := by
    intro g hg
    refine h.carried (fun a ha => hencloses.holds_own hc hv hpass ha) (fun s hs => ?_) hg
    have hdeclared : (bundling inner ins outs layout).circuit.widths.Declares s.1 :=
      Module.declares_of_mem hs
    have hwidth : flat.circuit.widths.width s.1 =
        (bundling inner ins outs layout).circuit.widths.width s.1 :=
      (hencloses.embeds_own hc s.1 hdeclared).2
    rw [← hown s hs, ← hwidth]
    exact hv.fits s.1
  have hvalid : ∀ g ∈ ins ++ outs,
      (bundling inner ins outs layout).circuit.widths.width g.valid = g.channels :=
    fun g hg => hown _ (h.mem_signals_valid hg)
  have hready : ∀ g ∈ ins ++ outs,
      (bundling inner ins outs layout).circuit.widths.width g.ready = g.channels :=
    fun g hg => hown _ (h.mem_signals_ready hg)
  have hbus : ∀ g ∈ ins ++ outs,
      (bundling inner ins outs layout).circuit.widths.width (busOf g) = g.channels * layout.total :=
    fun g hg => hown _ (h.mem_signals_bus hg)
  refine ⟨?_, ?_, ?_⟩
  · -- an input: the bus was packed, and the port has the value of the bus
    intro g hg c hchannel
    have hg' : g ∈ ins ++ outs := List.mem_append_left _ hg
    obtain ⟨hname, -, -⟩ := h.port_input hsub hg
    have hsame : v.get ("inner__" ++ g.name) = v.get (busOf g) :=
      hencloses.input_ident hc hv hpass (hmem g hg' _ (by simp [wire])) hname rfl
        ((hport hname).trans (hbus g hg').symm)
    rw [hsame]
    exact h.packed hg' (hcarried g hg') hchannel
  · -- an output: the bus has the value of the port, and is unpacked
    intro g hg c hchannel
    have hg' : g ∈ ins ++ outs := List.mem_append_right _ hg
    obtain ⟨hname, -, -⟩ := h.port_output hsub hg
    have hsame : v.get (busOf g) = v.get ("inner__" ++ g.name) :=
      hencloses.output_ident hc hv hpass (hmem g hg' _ (by simp [wire])) hname rfl
        ((hport hname).trans (hbus g hg').symm)
    rw [← hsame]
    exact h.unpacked hg' (hcarried g hg') hchannel
  · -- the handshake, in both directions
    intro g hg
    have hvalidWire := hmem g hg _ (List.mem_cons_of_mem _ List.mem_cons_self)
    have hreadyWire :=
      hmem g hg _ (List.mem_cons_of_mem _ (List.mem_cons_of_mem _ List.mem_cons_self))
    rcases List.mem_append.mp hg with hgroup | hgroup
    · obtain ⟨-, hv', hr'⟩ := h.port_input hsub hgroup
      exact ⟨(hencloses.input_ident hc hv hpass hvalidWire hv' rfl
        ((hport hv').trans (hvalid g hg).symm)).symm,
        hencloses.output_ident hc hv hpass hreadyWire hr' rfl
        ((hport hr').trans (hready g hg).symm)⟩
    · obtain ⟨-, hv', hr'⟩ := h.port_output hsub hgroup
      exact ⟨hencloses.output_ident hc hv hpass hvalidWire hv' rfl
        ((hport hv').trans (hvalid g hg).symm),
        (hencloses.input_ident hc hv hpass hreadyWire hr' rfl
          ((hport hr').trans (hready g hg).symm)).symm⟩

end Bundles

/--
**The concatenating wrapper is transparent.** Groups of one payload width are
wrapped around a unit whose ports are those of the groups, each under a name of
its own, and not declared with another width inside the unit. Then after
settling and after ticking, whatever was done before, the wrapper shows the
unit's ports.
-/
theorem concat_transparent {wrapper : Block} {inner : Artifact} {sub flat : Module}
    {s t : Simulator} (ha : concat id ins outs extra generate = .ok a)
    (hwidth : ∀ g ∈ ins ++ outs, g.width = width) (hpos : 0 < width + extra.totalWidth)
    (hwrapper : a.top? = some wrapper) (hdistinct : (wrapper.content.signals.map Prod.fst).Nodup)
    (houtside : ∀ name ∈ wrapper.content.signals.map Prod.fst, ¬ "inner__".toList <+: name.toList)
    (hbounded : ∀ s ∈ wrapper.content.signals, s.2 ≤ wordBits)
    (hinner : generate (id.child .inner) (width + extra.totalWidth) = .ok inner)
    (hobtained : Obtained inner) (hsub : inner.flatten = .ok sub)
    (hports : sub.ports.Perm (bundledPorts ins outs (width + extra.totalWidth)))
    (honce : (sub.ports.map Port.name).Nodup)
    (hwidths : ∀ q ∈ sub.ports, sub.circuit.widths.width q.name = q.width)
    (hflat : a.flatten = .ok flat) (hreaches : Simulator.Reaches flat s)
    (hquiet : s.settle = .ok t ∨ s.tick = .ok t) :
    ∃ layout, Layout.of width extra = .ok layout ∧ Transparent ins outs layout t.get := by
  obtain ⟨layout, inner', hlayout, hcheck, hinner', hunit, hblocks⟩ := concat_bundling ha hwidth
    fun sub' hsub' => by
      rw [hinner, Except.ok.injEq] at hsub'
      exact hsub' ▸ hobtained.wellFormed
  obtain rfl : inner' = inner := Except.ok.inj (hinner'.symm.trans hinner)
  refine ⟨layout, hlayout, ?_⟩
  have htop : wrapper =
      ⟨{ bundling (derived id.text [.inner]) ins outs layout with name := id.text },
        inner'.latency⟩ := by
    rw [Artifact.top?, hblocks, List.getLast?_append, List.getLast?_singleton] at hwrapper
    exact (Option.some.inj hwrapper).symm
  subst htop
  have hbundles : Bundles width extra layout ins outs :=
    bundles_of_check hlayout hcheck hwidth hpos hdistinct hbounded
  have hinterface : Interface ins outs layout.total sub := ⟨by rwa [Layout.total_of hlayout], honce⟩
  -- the unit is found under its name among the blocks before the wrapper
  have hlookup : (Artifact.flatModules inner'.blocks).lookup (derived id.text [.inner]) =
      some (.ok sub) := by
    rw [← Identity.text_child_eq, hunit.lookup_self, hsub]
  have hself : derived id.text [.inner] ≠ id.text := fun heq =>
    absurd (derived_injective (r := [.inner]) (s := []) heq) (by simp)
  rw [Artifact.flatten_concat hblocks] at hflat
  obtain ⟨htidy, hpass⟩ := hreaches.quiet hquiet
  exact hbundles.transparent hinterface hwidths houtside
    (hbundles.encloses hinterface hself hlookup hflat) htidy hpass

/-- A unit with the ports that a wrapper of the groups expects, and with given items. -/
def unitWith (ins outs : List PortGroup) (items : List Item) (id : Identity) (width : Nat) :
    Except Error Artifact :=
  (Accumulator.start id).finish (anonymous (bundledPorts ins outs width) items) 0

/-- An extra signal of one bit. -/
def oneTag : ExtraSignals := ⟨[⟨"tag", 1⟩], by unfold Declarable; decide, by decide⟩

/-- A unit that hands on the second of its two channels, each of two bits and a tag. -/
theorem concat_transparent_second_channel :
    let ins : List PortGroup := [⟨"ins", 2, oneTag, some 2⟩]
    let outs : List PortGroup := [⟨"outs", 2, oneTag, none⟩]
    ∃ a flat s t layout,
      concat ⟨"u", [], by decide⟩ ins outs oneTag
        (unitWith ins outs [.assigns [drive "outs" (.select "ins" 6 3 3)]]) = .ok a ∧
      a.flatten = .ok flat ∧ Simulator.Reaches flat s ∧ s.tick = .ok t ∧
      t.get "inner__ins" = 56 ∧ t.get "outs" = 3 ∧ t.get "outs_tag" = 1 ∧
      Layout.of 2 oneTag = .ok layout ∧ Transparent ins outs layout t.get := by
  intro ins outs
  have hmade : ∃ a ∈ (concat ⟨"u", [], by decide⟩ ins outs oneTag
      (unitWith ins outs [.assigns [drive "outs" (.select "ins" 6 3 3)]])).toOption,
      ∃ wrapper ∈ a.top?, (wrapper.content.signals.map Prod.fst).Nodup ∧
        (∀ name ∈ wrapper.content.signals.map Prod.fst, ¬ "inner__".toList <+: name.toList) ∧
        ∀ s ∈ wrapper.content.signals, s.2 ≤ wordBits := by
    decide +kernel
  have hrun : ∃ a ∈ (concat ⟨"u", [], by decide⟩ ins outs oneTag
      (unitWith ins outs [.assigns [drive "outs" (.select "ins" 6 3 3)]])).toOption,
      ∃ flat ∈ a.flatten.toOption, ∃ r ∈ ((Simulator.start flat).set "ins" 12).toOption,
        ∃ s ∈ (r.set "ins_tag" 2).toOption, ∃ t ∈ s.tick.toOption,
          t.get "inner__ins" = 56 ∧ t.get "outs" = 3 ∧ t.get "outs_tag" = 1 := by
    decide +kernel
  have hunit : ∃ inner ∈ (unitWith ins outs [.assigns [drive "outs" (.select "ins" 6 3 3)]]
      (Identity.child ⟨"u", [], by decide⟩ .inner) (2 + oneTag.totalWidth)).toOption,
      ∃ sub ∈ inner.flatten.toOption, sub.ports = bundledPorts ins outs (2 + oneTag.totalWidth) ∧
        (sub.ports.map Port.name).Nodup ∧
          ∀ q ∈ sub.ports, sub.circuit.widths.width q.name = q.width := by
    decide +kernel
  obtain ⟨a, ha, wrapper, hwrapper, hnames, houtside, hbounded⟩ := hmade
  obtain ⟨a', ha', flat, hflat, r, hr, s, hs, t, ht, hins, houts, htag⟩ := hrun
  obtain rfl : a' = a := Option.some.inj (ha'.symm.trans ha)
  obtain ⟨inner, hinner, sub, hsub, hports, honce, hwidths⟩ := hunit
  have hreaches : Simulator.Reaches flat s :=
    .set (.set .start (eq_ok_of_mem_toOption hr)) (eq_ok_of_mem_toOption hs)
  obtain ⟨layout, hlayout, htransparent⟩ := concat_transparent (eq_ok_of_mem_toOption ha)
    (by decide) (by decide) hwrapper hnames houtside hbounded (eq_ok_of_mem_toOption hinner)
    (.finish (.start _) (eq_ok_of_mem_toOption hinner)) (eq_ok_of_mem_toOption hsub)
    (hports ▸ List.Perm.refl _) honce hwidths (eq_ok_of_mem_toOption hflat) hreaches
    (Or.inr (eq_ok_of_mem_toOption ht))
  exact ⟨_, flat, s, t, layout, eq_ok_of_mem_toOption ha, eq_ok_of_mem_toOption hflat, hreaches,
    eq_ok_of_mem_toOption ht, hins, houts, htag, hlayout, htransparent⟩

/--
Two ports of the unit may share a name although no two signals of the wrapper
do: without payload, a group `a_valid` has no port of that name outside, but its
bus enters the unit under it, where the valid signal of a group `a` enters as
well. The bus comes later and wins.
-/
theorem concat_hides_valid :
    let ins : List PortGroup := [⟨"a", 0, oneTag, none⟩, ⟨"a_valid", 0, oneTag, none⟩]
    let outs : List PortGroup := [⟨"o", 0, oneTag, none⟩]
    ∃ a wrapper inner sub flat s t,
      concat ⟨"u", [], by decide⟩ ins outs oneTag (unitWith ins outs []) = .ok a ∧
      a.top? = some wrapper ∧
      (wrapper.content.signals.map Prod.fst).Nodup ∧
      (∀ name ∈ wrapper.content.signals.map Prod.fst, ¬ "inner__".toList <+: name.toList) ∧
      (∀ s ∈ wrapper.content.signals, s.2 ≤ wordBits) ∧
      unitWith ins outs [] (Identity.child ⟨"u", [], by decide⟩ .inner) (0 + oneTag.totalWidth) =
      .ok inner ∧
      Obtained inner ∧ inner.flatten = .ok sub ∧
      sub.ports = bundledPorts ins outs (0 + oneTag.totalWidth) ∧
      a.flatten = .ok flat ∧ Simulator.Reaches flat s ∧ s.settle = .ok t ∧
      t.get "a_valid" = 1 ∧ t.get "inner__a_valid" = 0 := by
  intro ins outs
  have hmade : ∃ a ∈ (concat ⟨"u", [], by decide⟩ ins outs oneTag (unitWith ins outs [])).toOption,
      ∃ wrapper ∈ a.top?, (wrapper.content.signals.map Prod.fst).Nodup ∧
        (∀ name ∈ wrapper.content.signals.map Prod.fst, ¬ "inner__".toList <+: name.toList) ∧
        ∀ s ∈ wrapper.content.signals, s.2 ≤ wordBits := by
    decide +kernel
  have hrun : ∃ a ∈ (concat ⟨"u", [], by decide⟩ ins outs oneTag (unitWith ins outs [])).toOption,
      ∃ flat ∈ a.flatten.toOption, ∃ s ∈ ((Simulator.start flat).set "a_valid" 1).toOption,
        ∃ t ∈ s.settle.toOption, t.get "a_valid" = 1 ∧ t.get "inner__a_valid" = 0 := by
    decide +kernel
  have hunit : ∃ inner ∈ (unitWith ins outs [] (Identity.child ⟨"u", [], by decide⟩ .inner)
      (0 + oneTag.totalWidth)).toOption,
      ∃ sub ∈ inner.flatten.toOption,
        sub.ports = bundledPorts ins outs (0 + oneTag.totalWidth) := by
    decide +kernel
  obtain ⟨a, ha, wrapper, hwrapper, hnames, houtside, hbounded⟩ := hmade
  obtain ⟨a', ha', flat, hflat, s, hs, t, ht, houter, hinside⟩ := hrun
  obtain rfl : a' = a := Option.some.inj (ha'.symm.trans ha)
  obtain ⟨inner, hinner, sub, hsub, hports⟩ := hunit
  exact ⟨_, wrapper, inner, sub, flat, s, t, eq_ok_of_mem_toOption ha, hwrapper, hnames,
    houtside, hbounded, eq_ok_of_mem_toOption hinner,
    .finish (.start _) (eq_ok_of_mem_toOption hinner), eq_ok_of_mem_toOption hsub, hports,
    eq_ok_of_mem_toOption hflat, .set .start (eq_ok_of_mem_toOption hs),
    eq_ok_of_mem_toOption ht, houter, hinside⟩

/-!
Nor does the wrapper decide how wide a port is inside of the unit: a unit that
declares its port again, as a net of one bit, keeps one bit of the bus. Here the
bus holds two.
-/

example :
    let extra : ExtraSignals := ⟨[⟨"tag", 1⟩], by unfold Declarable; decide, by decide⟩
    let ins : List PortGroup := [⟨"ins", 2, extra, none⟩]
    let outs : List PortGroup := [⟨"outs", 2, extra, none⟩]
    let narrowed (id : Identity) (width : Nat) : Except Error Artifact :=
      (Accumulator.start id).finish
        (anonymous (bundledPorts ins outs width) [.declarations [.net 1 "ins"]]) 0
    ∃ a ∈ (concat ⟨"u", [], by decide⟩ ins outs extra narrowed).toOption,
      ∃ flat ∈ a.flatten.toOption,
      ∃ s ∈ ((Simulator.start flat).set "ins" 2).toOption, ∃ t ∈ s.settle.toOption,
        t.get "ins_inner" = 2 ∧ t.get "inner__ins" = 0 := by
  decide +kernel

end Manager

end Handshake
