import Mathlib.Data.List.Perm.Basic
import Handshake.Proofs.Leaves
import Handshake.Proofs.Packing
import Handshake.Proofs.Selects

/-!
# Payload and extra signals on one bus

The wrapper of a unit that hands its tokens on puts the payload and the extra
signals of each channel side by side on a bus, and the unit takes the bus for
its payload. The wrapper is treated here as a module around a single part of
which only the ports are known. It connects that part properly, every bit of its
own signals having one driver; and where its assigns hold, each channel of a bus
consists of the fields of that channel.

* `Grouped` collects what is asked of the groups of ports, and `Bundles` adds
  that their signals fit words, which only a simulation needs.
* `connected` says that the wrapper connects the unit properly, and `ranked`
  that no signal of it depends on itself, for ranks of the unit's ports that
  respect its inputs.
* `Carried` is the relation between ports and buses, from which `packed` and
  `unpacked` follow: the bus is what packing the fields gives, and unpacking it
  gives the fields back.
-/

namespace Handshake

/-- A value that is spread over one region is found there. -/
theorem Spread.part {state : State} {value : Word} {name : String} {lo width : Nat}
    (h : Spread state value 0 [⟨name, lo, width⟩]) :
    ((state name).down lo).low width = value.low width := by
  refine BitVec.eq_of_getLsbD_eq fun i _ => ?_
  rw [Word.getLsbD_low, Word.getLsbD_low, Word.getLsbD_down]
  by_cases hi : i < width
  · have hbit := h.1 i hi
    rw [Nat.zero_add] at hbit
    rw [hbit]
  · simp [hi]

/-! ## The wrapper -/

/-- A handshake with a payload is three ports, the last of them against the direction. -/
theorem handshakePorts_eq {width : Nat} (h : 0 < width) (direction : Direction) (name : String)
    (channels : Nat) :
    handshakePorts direction name width channels =
      [⟨direction, channels * width, name⟩, ⟨direction, channels, name ++ "_valid"⟩,
        ⟨direction.flip, channels, name ++ "_ready"⟩] := by
  simp [handshakePorts, PortGroup.ports, PortGroup.channels, PortGroup.valid, PortGroup.ready,
    ExtraSignals.empty, h]

/-- The names of the ports of a group do not depend on the way they travel. -/
theorem PortGroup.names_flip (g : PortGroup) (direction : Direction) :
    (g.ports direction).map Port.name = (g.ports .input).map Port.name := by
  unfold PortGroup.ports
  by_cases h : 0 < g.width <;> simp [h]

namespace Manager

/-- The bus of a group. -/
def busOf (g : PortGroup) : String := g.name ++ "_inner"

/-- The names that stand for a group in the wrapper. -/
def namesOf (g : PortGroup) : List String := (g.ports .input).map Port.name ++ [busOf g]

/-- The wrapper of groups that share a layout. -/
def bundling (inner : String) (ins outs : List PortGroup) (layout : Layout) : Module :=
  concatBody inner (outerPorts ins outs) (ins.map fun g => (g, layout))
    (outs.map fun g => (g, layout))

/-- The unit inside of the wrapper. -/
def bundlingInstance (inner : String) (ins outs : List PortGroup) : Instance :=
  ⟨inner, "inner", clockWires ++ (ins ++ outs).flatMap fun g =>
    [wire g.name (.ident (busOf g)), sameName g.valid, sameName g.ready]⟩

/-- The ports that the unit has: to it, a bus is a payload. -/
def bundledPorts (ins outs : List PortGroup) (width : Nat) : List Port :=
  clockPorts ++ ins.flatMap (fun g => handshakePorts .input g.name width g.channels) ++
    outs.flatMap fun g => handshakePorts .output g.name width g.channels

/-- The bits of a bus that hold a field of a channel. -/
def busSlice (layout : Layout) (g : PortGroup) (c : Nat) (s : Slice) : Expr :=
  .select (busOf g) (g.channels * layout.total) (c * layout.total + s.lo) s.width

/-- The bits of a port that hold a field of a channel. -/
def fieldSlice (g : PortGroup) (c : Nat) (s : Slice) : Expr :=
  .select (g.fieldName s.field) (g.channels * s.width) (c * s.width) s.width

/-- What the wrapper drives of an input: its bus, slice by slice, and its ready signal. -/
def drivenIn (layout : Layout) (g : PortGroup) : List Region :=
  ((List.range g.channels).flatMap fun c =>
    layout.slices.map fun s => ⟨busOf g, c * layout.total + s.lo, s.width⟩) ++
      [⟨g.ready, 0, g.channels⟩]

/--
What the wrapper drives of an output: its fields, channel by channel, its bus
and its valid signal.
-/
def drivenOut (layout : Layout) (g : PortGroup) : List Region :=
  ((List.range g.channels).flatMap fun c =>
    layout.slices.map fun s => ⟨g.fieldName s.field, c * s.width, s.width⟩) ++
    [⟨busOf g, 0, g.channels * layout.total⟩, ⟨g.valid, 0, g.channels⟩]

/-- Groups that share a layout, with names that are all different. -/
structure Grouped (width : Nat) (extra : ExtraSignals) (layout : Layout)
    (ins outs : List PortGroup) : Prop where
  layout_of : Layout.of width extra = .ok layout
  total_pos : 0 < layout.total
  groups : ∀ g ∈ ins ++ outs, g.width = width ∧ g.extra = extra ∧ 0 < g.channels
  distinct : ((outerPorts ins outs).map Port.name ++ (ins ++ outs).map busOf).Nodup

/-- Such groups, with signals that fit words. -/
structure Bundles (width : Nat) (extra : ExtraSignals) (layout : Layout)
    (ins outs : List PortGroup) : Prop
    extends Grouped width extra layout ins outs where
  ports_le : ∀ p ∈ outerPorts ins outs, p.width ≤ wordBits
  buses_le : ∀ g ∈ ins ++ outs, g.channels * layout.total ≤ wordBits

/-- A unit with the ports that the wrapper expects. -/
structure Interface (ins outs : List PortGroup) (width : Nat) (sub : Module) : Prop where
  ports : sub.ports.Perm (bundledPorts ins outs width)
  distinct : (sub.ports.map Port.name).Nodup

theorem Interface.port {ins outs : List PortGroup} {width : Nat} {sub : Module}
    (h : Interface ins outs width sub) {q : Port} (hq : q ∈ bundledPorts ins outs width) :
    sub.port? q.name = some q :=
  Module.port?_of_ports h.distinct (h.ports.mem_iff.mpr hq)

theorem Interface.port_clock {ins outs : List PortGroup} {width : Nat} {sub : Module}
    (h : Interface ins outs width sub) (name : String) (hname : name ∈ ["clk", "rst"]) :
    sub.port? name = some ⟨.input, 1, name⟩ := by
  have hport : ⟨.input, 1, name⟩ ∈ bundledPorts ins outs width := by
    refine List.mem_append_left _ (List.mem_append_left _ ?_)
    simpa [clockPorts, Port.input] using hname
  exact h.port hport

namespace Grouped

variable {width : Nat} {extra : ExtraSignals} {layout : Layout} {ins outs : List PortGroup}
    {inner : String}
variable (h : Grouped width extra layout ins outs)
include h

/-! ### What it consists of -/

/-- No bus is empty. -/
theorem bus_pos : ∀ g ∈ ins ++ outs, 0 < g.channels * layout.total := fun g hg =>
  Nat.mul_pos (h.groups g hg).2.2 h.total_pos

omit h in
theorem declsOf_bundling (hpos : ∀ g ∈ ins ++ outs, 0 < g.channels * layout.total) :
    Item.declsOf (bundling inner ins outs layout).items =
      (ins ++ outs).map fun g => Decl.net (g.channels * layout.total) (busOf g) := by
  have hbus : ∀ g ∈ ins ++ outs,
      LaidOut.busDecl (g, layout) = [Decl.net (g.channels * layout.total) (busOf g)] :=
    fun g hg => if_pos (hpos g hg)
  rw [bundling, declsOf_concatBody, ← List.map_append, List.flatMap_map, List.flatMap_congr hbus,
    ← List.map_eq_flatMap]

omit h in
/-- The signals of the wrapper are its ports and its buses. -/
theorem signals_bundling (hpos : ∀ g ∈ ins ++ outs, 0 < g.channels * layout.total) :
    (bundling inner ins outs layout).signals =
      (outerPorts ins outs).map (fun p => (p.name, p.width)) ++
        (ins ++ outs).map fun g => (busOf g, g.channels * layout.total) := by
  rw [Module.signals, declsOf_bundling hpos, List.map_map]
  rfl

theorem instancesOf_bundling :
    Item.instancesOf (bundling inner ins outs layout).items =
      [bundlingInstance inner ins outs] := by
  have hwires : ∀ g ∈ ins ++ outs, LaidOut.wires (g, layout) =
      [wire g.name (.ident (busOf g)), sameName g.valid, sameName g.ready] := by
    intro g hg
    unfold LaidOut.wires ifData
    rw [if_pos (show 0 < LaidOut.busWidth (g, layout) from h.bus_pos g hg)]
    rfl
  rw [bundling, instancesOf_concatBody, ← List.map_append, List.flatMap_map,
    List.flatMap_congr hwires]
  rfl

omit h in
theorem drivesOf_bundling :
    Item.drivesOf (bundling inner ins outs layout).items =
      ins.flatMap (fun g => LaidOut.encode (g, layout)) ++ outs.flatMap fun g =>
        LaidOut.decode (g, layout) := by
  rw [bundling, drivesOf_concatBody, List.flatMap_map, List.flatMap_map]

/-! ### Names and widths -/

/-- Ports and buses have names of their own. -/
theorem distinct_signals : ((bundling inner ins outs layout).signals.map Prod.fst).Nodup := by
  rw [signals_bundling h.bus_pos, List.map_append, List.map_map, List.map_map]
  exact h.distinct

theorem mem_signals_bus {g : PortGroup} (hg : g ∈ ins ++ outs) :
    (busOf g, g.channels * layout.total) ∈ (bundling inner ins outs layout).signals := by
  rw [signals_bundling h.bus_pos]
  exact List.mem_append_right _ (List.mem_map.mpr ⟨g, hg, rfl⟩)

theorem mem_signals_port {p : Port} (hp : p ∈ outerPorts ins outs) :
    (p.name, p.width) ∈ (bundling inner ins outs layout).signals := by
  rw [signals_bundling h.bus_pos]
  exact List.mem_append_left _ (List.mem_map.mpr ⟨p, hp, rfl⟩)

omit h in
theorem mem_outer_input {g : PortGroup} (hg : g ∈ ins) {p : Port} (hp : p ∈ g.ports .input) :
    p ∈ outerPorts ins outs :=
  List.mem_append_left _ (List.mem_append_right _ (List.mem_flatMap.mpr ⟨g, hg, hp⟩))

omit h in
theorem mem_outer_output {g : PortGroup} (hg : g ∈ outs) {p : Port} (hp : p ∈ g.ports .output) :
    p ∈ outerPorts ins outs :=
  List.mem_append_right _ (List.mem_flatMap.mpr ⟨g, hg, hp⟩)

/-- A port of a group is a signal of the wrapper, in whatever direction it points. -/
theorem mem_signals_group {g : PortGroup} (hg : g ∈ ins ++ outs) {name : String} {width : Nat}
    (hport : ∀ direction, ∃ p ∈ g.ports direction, p.name = name ∧ p.width = width) :
    (name, width) ∈ (bundling inner ins outs layout).signals := by
  rcases List.mem_append.mp hg with hg | hg
  · obtain ⟨p, hp, rfl, rfl⟩ := hport .input
    exact h.mem_signals_port (mem_outer_input hg hp)
  · obtain ⟨p, hp, rfl, rfl⟩ := hport .output
    exact h.mem_signals_port (mem_outer_output hg hp)

/-- Each field of a group has a port. -/
theorem field_port {g : PortGroup} (hg : g ∈ ins ++ outs) {s : Slice} (hs : s ∈ layout.slices)
    (direction : Direction) :
    ⟨direction, g.channels * s.width, g.fieldName s.field⟩ ∈ g.ports direction := by
  obtain ⟨rfl, rfl, -⟩ := h.groups g hg
  refine List.mem_append_left _ ?_
  rcases List.mem_append.mp (Layout.mem_fields h.layout_of hs) with hmem | hmem
  · refine List.mem_append_left _ ?_
    by_cases hpos : 0 < g.width
    · rw [if_pos hpos, List.mem_singleton] at hmem
      obtain ⟨hfield, hwidth⟩ := Prod.mk.inj hmem
      rw [if_pos hpos, hfield, hwidth]
      exact List.mem_singleton_self _
    · rw [if_neg hpos] at hmem
      exact absurd hmem List.not_mem_nil
  · obtain ⟨e, he, heq⟩ := List.mem_map.mp hmem
    obtain ⟨hfield, hwidth⟩ := Prod.mk.inj heq
    rw [← hfield, ← hwidth]
    exact List.mem_append_right _ (List.mem_map.mpr ⟨e, he, rfl⟩)

/-- For each field there is a port, as wide as that field in all channels together. -/
theorem mem_signals_field {g : PortGroup} (hg : g ∈ ins ++ outs) {s : Slice}
    (hs : s ∈ layout.slices) :
    (g.fieldName s.field, g.channels * s.width) ∈ (bundling inner ins outs layout).signals :=
  h.mem_signals_group hg fun direction => ⟨_, h.field_port hg hs direction, rfl, rfl⟩

theorem mem_signals_valid {g : PortGroup} (hg : g ∈ ins ++ outs) :
    (g.valid, g.channels) ∈ (bundling inner ins outs layout).signals :=
  h.mem_signals_group hg fun _ => ⟨_, List.mem_append_right _ List.mem_cons_self, rfl, rfl⟩

theorem mem_signals_ready {g : PortGroup} (hg : g ∈ ins ++ outs) :
    (g.ready, g.channels) ∈ (bundling inner ins outs layout).signals :=
  h.mem_signals_group hg fun _ =>
    ⟨_, List.mem_append_right _ (List.mem_cons_of_mem _ List.mem_cons_self), rfl, rfl⟩

theorem mem_signals_clock {name : String} (hname : name ∈ ["clk", "rst"]) :
    (name, 1) ∈ (bundling inner ins outs layout).signals := by
  have hport : ⟨.input, 1, name⟩ ∈ outerPorts ins outs := by
    refine List.mem_append_left _ (List.mem_append_left _ ?_)
    simpa [clockPorts, Port.input] using hname
  exact h.mem_signals_port hport

/-! ### Slices of buses and of fields -/

/-- The slices of a channel lie inside of the bus. -/
theorem reach_bus {g : PortGroup} {c : Nat} (hc : c < g.channels) {s : Slice}
    (hs : s ∈ layout.slices) : c * layout.total + s.lo + s.width ≤ g.channels * layout.total := by
  have hslice := (Layout.slice_reach h.layout_of hs).2
  have hchannel := Nat.mul_le_mul_right layout.total (Nat.succ_le_of_lt hc)
  rw [Nat.succ_mul] at hchannel
  omega

omit h in
theorem reach_field {g : PortGroup} {c : Nat} (hc : c < g.channels) (s : Slice) :
    c * s.width + s.width ≤ g.channels * s.width := by
  have hchannel := Nat.mul_le_mul_right s.width (Nat.succ_le_of_lt hc)
  rwa [Nat.succ_mul] at hchannel

omit h in
/-- The wrapper drives the buses of its inputs and the fields of its outputs, slice by slice. -/
theorem mem_drives {a : Assign} :
    a ∈ Item.drivesOf (bundling inner ins outs layout).items ↔
      (∃ g ∈ ins, ∃ c < g.channels, ∃ s ∈ layout.slices,
        a = ⟨busSlice layout g c s, fieldSlice g c s⟩) ∨
        ∃ g ∈ outs, ∃ c < g.channels, ∃ s ∈ layout.slices,
          a = ⟨fieldSlice g c s, busSlice layout g c s⟩ := by
  have hpairs : ∀ (g : PortGroup) (pair : Expr × Expr), pair ∈ LaidOut.fieldPairs (g, layout) ↔
      ∃ c < g.channels, ∃ s ∈ layout.slices, (busSlice layout g c s, fieldSlice g c s) = pair := by
    intro g pair
    simp only [LaidOut.fieldPairs, List.mem_flatMap, List.mem_range, List.mem_map]
    rfl
  rw [drivesOf_bundling, List.mem_append, List.mem_flatMap, List.mem_flatMap]
  simp only [LaidOut.encode, LaidOut.decode, List.mem_map, hpairs]
  constructor
  · rintro (⟨g, hg, _, ⟨c, hc, s, hs, rfl⟩, rfl⟩ | ⟨g, hg, _, ⟨c, hc, s, hs, rfl⟩, rfl⟩)
    · exact Or.inl ⟨g, hg, c, hc, s, hs, rfl⟩
    · exact Or.inr ⟨g, hg, c, hc, s, hs, rfl⟩
  · rintro (⟨g, hg, c, hc, s, hs, rfl⟩ | ⟨g, hg, c, hc, s, hs, rfl⟩)
    · exact Or.inl ⟨g, hg, _, ⟨c, hc, s, hs, rfl⟩, rfl⟩
    · exact Or.inr ⟨g, hg, _, ⟨c, hc, s, hs, rfl⟩, rfl⟩

/-! ### What is driven -/

/-- What stands for a group: a port for each field, the handshake, and the bus. -/
theorem names_eq {g : PortGroup} (hg : g ∈ ins ++ outs) :
    namesOf g = layout.slices.map (fun s => g.fieldName s.field) ++
      [g.valid, g.ready, busOf g] := by
  obtain ⟨rfl, rfl, -⟩ := h.groups g hg
  rw [Layout.map_slices h.layout_of]
  unfold namesOf PortGroup.ports Layout.fields
  by_cases hpos : 0 < g.width
  · simp [hpos, PortGroup.fieldName]
  · simp [hpos, PortGroup.fieldName]

/-- All names of the wrapper, group by group, are different. -/
theorem nodup_names : ((ins ++ outs).flatMap namesOf).Nodup := by
  have hports : (outerPorts ins outs).map Port.name =
      clockPorts.map Port.name ++ (ins ++ outs).flatMap fun g =>
        (g.ports .input).map Port.name := by
    unfold outerPorts
    rw [List.map_append, List.map_append, List.map_flatMap, List.map_flatMap, List.flatMap_append,
      List.append_assoc]
    simp only [PortGroup.names_flip]
  have hdistinct := h.distinct
  rw [hports, List.append_assoc] at hdistinct
  have hrest := (List.nodup_append.mp hdistinct).2.1
  rw [List.map_eq_flatMap] at hrest
  exact (List.flatMap_append_perm (ins ++ outs) _ _).nodup_iff.mp hrest

theorem nodup_group {g : PortGroup} (hg : g ∈ ins ++ outs) :
    (layout.slices.map (fun s => g.fieldName s.field) ++ [g.valid, g.ready, busOf g]).Nodup := by
  rw [← h.names_eq hg]
  exact (List.nodup_flatMap.mp h.nodup_names).1 g hg

theorem disjoint_groups :
    (ins ++ outs).Pairwise fun g g' => List.Disjoint (namesOf g) (namesOf g') :=
  (List.nodup_flatMap.mp h.nodup_names).2

theorem name_drivenIn {g : PortGroup} (hg : g ∈ ins ++ outs) {r : Region}
    (hr : r ∈ drivenIn layout g) : r.name ∈ namesOf g := by
  rw [h.names_eq hg]
  rcases List.mem_append.mp hr with hr | hr
  · obtain ⟨c, -, hr⟩ := List.mem_flatMap.mp hr
    obtain ⟨s, -, rfl⟩ := List.mem_map.mp hr
    simp
  · rw [List.mem_singleton.mp hr]
    simp

theorem name_drivenOut {g : PortGroup} (hg : g ∈ ins ++ outs) {r : Region}
    (hr : r ∈ drivenOut layout g) : r.name ∈ namesOf g := by
  rw [h.names_eq hg]
  rcases List.mem_append.mp hr with hr | hr
  · obtain ⟨c, -, hr⟩ := List.mem_flatMap.mp hr
    obtain ⟨s, hs, rfl⟩ := List.mem_map.mp hr
    exact List.mem_append_left _ (List.mem_map.mpr ⟨s, hs, rfl⟩)
  · rcases List.mem_cons.mp hr with rfl | hr
    · simp
    · rw [List.mem_singleton.mp hr]
      simp

/--
The slices of a bus do not overlap: those of one channel because the layout
keeps them apart, those of two because channels do not overlap either.
-/
theorem apart_drivenIn {g : PortGroup} (hg : g ∈ ins ++ outs) :
    (drivenIn layout g).Pairwise Region.Apart := by
  have hne : g.ready ≠ busOf g := by
    have hnodup := (List.nodup_append.mp (h.nodup_group hg)).2.1
    simp only [List.nodup_cons, List.mem_cons, List.not_mem_nil, or_false] at hnodup
    exact hnodup.2.1
  refine List.pairwise_append.mpr
    ⟨List.pairwise_flatMap.mpr ⟨?_, ?_⟩, List.pairwise_singleton _ _, ?_⟩
  · intro c _
    have hslices := Layout.pairwise_place 0 (Layout.fields width extra)
    rw [← Layout.slices_eq h.layout_of] at hslices
    exact List.pairwise_map.mpr (hslices.imp fun hst _ => Or.inl (by dsimp only; omega))
  · -- the slices of a channel end where the next channel begins
    refine List.pairwise_lt_range.imp fun {c c'} hc r hr t ht => ?_
    obtain ⟨s, hs, rfl⟩ := List.mem_map.mp hr
    obtain ⟨s', hs', rfl⟩ := List.mem_map.mp ht
    intro _
    left
    have hreach := (Layout.slice_reach h.layout_of hs).2
    have hnext := Nat.mul_le_mul_right layout.total (Nat.succ_le_of_lt hc)
    rw [Nat.succ_mul] at hnext
    dsimp only
    omega
  · intro r hr t ht
    obtain ⟨c, -, hr⟩ := List.mem_flatMap.mp hr
    obtain ⟨s, -, rfl⟩ := List.mem_map.mp hr
    rw [List.mem_singleton.mp ht]
    exact Region.apart_of_ne hne.symm

/-- The channels of a port do not overlap, and neither do its ports and its bus. -/
theorem apart_drivenOut {g : PortGroup} (hg : g ∈ ins ++ outs) :
    (drivenOut layout g).Pairwise Region.Apart := by
  obtain ⟨hfields, hrest, hcross⟩ := List.nodup_append.mp (h.nodup_group hg)
  have hne : g.valid ≠ busOf g := by
    simp only [List.nodup_cons, List.mem_cons, List.not_mem_nil, or_false] at hrest
    exact fun heq => hrest.1 (Or.inr heq)
  refine List.pairwise_append.mpr ⟨List.pairwise_flatMap.mpr ⟨?_, ?_⟩, ?_, ?_⟩
  · intro c _
    exact List.pairwise_map.mpr
      ((List.pairwise_map.mp hfields).imp fun hst => Region.apart_of_ne hst)
  · -- one name means one field, and its channels follow one another
    refine List.pairwise_lt_range.imp fun {c c'} hc r hr t ht hname => ?_
    obtain ⟨s, hs, rfl⟩ := List.mem_map.mp hr
    obtain ⟨s', hs', rfl⟩ := List.mem_map.mp ht
    obtain rfl : s = s' := List.inj_on_of_nodup_map hfields hs hs' hname
    left
    have hnext := Nat.mul_le_mul_right s.width (Nat.succ_le_of_lt hc)
    rw [Nat.succ_mul] at hnext
    exact hnext
  · exact List.pairwise_pair.mpr (Region.apart_of_ne hne.symm)
  · intro r hr t ht
    obtain ⟨c, -, hr⟩ := List.mem_flatMap.mp hr
    obtain ⟨s, hs, rfl⟩ := List.mem_map.mp hr
    refine Region.apart_of_ne (hcross _ (List.mem_map.mpr ⟨s, hs, rfl⟩) t.name ?_)
    rcases List.mem_cons.mp ht with rfl | ht
    · simp
    · rw [List.mem_singleton.mp ht]
      simp

section

variable {sub : Module} (hsub : Interface ins outs layout.total sub)
include hsub

/-- The ports of the unit for an input of the wrapper. -/
theorem port_input {g : PortGroup} (hg : g ∈ ins) :
    sub.port? g.name = some ⟨.input, g.channels * layout.total, g.name⟩ ∧
      sub.port? g.valid = some ⟨.input, g.channels, g.valid⟩ ∧
      sub.port? g.ready = some ⟨.output, g.channels, g.ready⟩ := by
  have hports : ∀ q ∈ handshakePorts .input g.name layout.total g.channels,
      sub.port? q.name = some q :=
    fun q hq => hsub.port
      (List.mem_append_left _ (List.mem_append_right _ (List.mem_flatMap.mpr ⟨g, hg, hq⟩)))
  rw [handshakePorts_eq h.total_pos] at hports
  simp only [List.forall_mem_cons] at hports
  exact ⟨hports.1, hports.2.1, hports.2.2.1⟩

/-- The ports of the unit for an output of the wrapper. -/
theorem port_output {g : PortGroup} (hg : g ∈ outs) :
    sub.port? g.name = some ⟨.output, g.channels * layout.total, g.name⟩ ∧
      sub.port? g.valid = some ⟨.output, g.channels, g.valid⟩ ∧
      sub.port? g.ready = some ⟨.input, g.channels, g.ready⟩ := by
  have hports : ∀ q ∈ handshakePorts .output g.name layout.total g.channels,
      sub.port? q.name = some q :=
    fun q hq => hsub.port (List.mem_append_right _ (List.mem_flatMap.mpr ⟨g, hg, hq⟩))
  rw [handshakePorts_eq h.total_pos] at hports
  simp only [List.forall_mem_cons] at hports
  exact ⟨hports.1, hports.2.1, hports.2.2.1⟩

end

end Grouped

namespace Bundles

open Grouped

variable {width : Nat} {extra : ExtraSignals} {layout : Layout} {ins outs : List PortGroup}
    {inner : String}
variable (h : Bundles width extra layout ins outs)
include h

theorem total_le {g : PortGroup} (hg : g ∈ ins ++ outs) : layout.total ≤ wordBits :=
  Nat.le_trans (Nat.le_mul_of_pos_left _ (h.groups g hg).2.2) (h.buses_le g hg)

/-- The signals of the wrapper fit words. -/
theorem bounded : ∀ s ∈ (bundling inner ins outs layout).signals, s.2 ≤ wordBits := by
  rw [signals_bundling h.bus_pos]
  intro s hs
  rcases List.mem_append.mp hs with hs | hs
  · obtain ⟨p, hp, rfl⟩ := List.mem_map.mp hs
    exact h.ports_le p hp
  · obtain ⟨g, hg, rfl⟩ := List.mem_map.mp hs
    exact h.buses_le g hg

theorem field_le {g : PortGroup} (hg : g ∈ ins ++ outs) {s : Slice} (hs : s ∈ layout.slices) :
    g.channels * s.width ≤ wordBits := by
  have hslice := (Layout.slice_reach h.layout_of hs).2
  exact Nat.le_trans (Nat.mul_le_mul_left _ (by omega)) (h.buses_le g hg)

/-- A slice of a bus can be assigned to. -/
theorem isTarget_bus {g : PortGroup} (hg : g ∈ ins ++ outs) {c : Nat} (hc : c < g.channels)
    {s : Slice} (hs : s ∈ layout.slices) :
    (busSlice layout g c s).IsTarget (bundling inner ins outs layout).circuit.widths :=
  Expr.isTarget_select (Layout.slice_reach h.layout_of hs).1 (h.reach_bus hc hs) (h.buses_le g hg)
    (Module.declares_of_mem (h.mem_signals_bus hg))
      (Module.width_eq h.distinct_signals (h.mem_signals_bus hg))

theorem isTarget_field {g : PortGroup} (hg : g ∈ ins ++ outs) {c : Nat} (hc : c < g.channels)
    {s : Slice} (hs : s ∈ layout.slices) :
    (fieldSlice g c s).IsTarget (bundling inner ins outs layout).circuit.widths :=
  Expr.isTarget_select (Layout.slice_reach h.layout_of hs).1 (reach_field hc s) (h.field_le hg hs)
    (Module.declares_of_mem (h.mem_signals_field hg hs))
    (Module.width_eq h.distinct_signals (h.mem_signals_field hg hs))

theorem regions_bus {g : PortGroup} (hg : g ∈ ins ++ outs) {c : Nat} (hc : c < g.channels)
    {s : Slice} (hs : s ∈ layout.slices) {widthOf : String → Nat}
    (hwidth : widthOf (busOf g) = g.channels * layout.total) :
    (busSlice layout g c s).regions widthOf = [⟨busOf g, c * layout.total + s.lo, s.width⟩] :=
  Expr.regions_select (Layout.slice_reach h.layout_of hs).1 (h.reach_bus hc hs)
    (h.buses_le g hg) hwidth

theorem regions_field {g : PortGroup} (hg : g ∈ ins ++ outs) {c : Nat} (hc : c < g.channels)
    {s : Slice} (hs : s ∈ layout.slices) {widthOf : String → Nat}
    (hwidth : widthOf (g.fieldName s.field) = g.channels * s.width) :
    (fieldSlice g c s).regions widthOf = [⟨g.fieldName s.field, c * s.width, s.width⟩] :=
  Expr.regions_select (Layout.slice_reach h.layout_of hs).1 (reach_field hc s)
    (h.field_le hg hs) hwidth

section Inner

variable {sub : Module} (hsub : Interface ins outs layout.total sub)
include hsub

omit hsub in
/-- The assigns of the wrapper drive the buses of its inputs and the fields of its outputs. -/
theorem driven_own :
    (Item.drivesOf (bundling inner ins outs layout).items).flatMap
        (fun a => a.target.regions (bundling inner ins outs layout).circuit.widths.width) =
      (ins.flatMap fun g => (List.range g.channels).flatMap fun c =>
        layout.slices.map fun s => ⟨busOf g, c * layout.total + s.lo, s.width⟩) ++
      outs.flatMap fun g => (List.range g.channels).flatMap fun c =>
        layout.slices.map fun s => ⟨g.fieldName s.field, c * s.width, s.width⟩ := by
  rw [drivesOf_bundling, List.flatMap_append, List.flatMap_assoc, List.flatMap_assoc]
  congr 1
  · refine List.flatMap_congr fun g hg => ?_
    have hg' : g ∈ ins ++ outs := List.mem_append_left _ hg
    unfold LaidOut.encode LaidOut.fieldPairs
    rw [List.flatMap_map, List.flatMap_assoc]
    refine List.flatMap_congr fun c hc => ?_
    rw [List.flatMap_map, List.map_eq_flatMap]
    refine List.flatMap_congr fun s hs => ?_
    exact h.regions_bus hg' (List.mem_range.mp hc) hs
      (Module.width_eq h.distinct_signals (h.mem_signals_bus hg'))
  · refine List.flatMap_congr fun g hg => ?_
    have hg' : g ∈ ins ++ outs := List.mem_append_right _ hg
    unfold LaidOut.decode LaidOut.fieldPairs
    rw [List.flatMap_map, List.flatMap_assoc]
    refine List.flatMap_congr fun c hc => ?_
    rw [List.flatMap_map, List.map_eq_flatMap]
    refine List.flatMap_congr fun s hs => ?_
    exact h.regions_field hg' (List.mem_range.mp hc) hs
      (Module.width_eq h.distinct_signals (h.mem_signals_field hg' hs))

/-- What the unit drives of the wrapper's signals. -/
theorem driven_connections :
    (bundlingInstance inner ins outs).connections.flatMap (fun c =>
        (Part.drivenBy (bundlingInstance inner ins outs, sub) c).flatMap
          (Expr.regions (bundling inner ins outs layout).circuit.widths.width)) =
      (ins.flatMap fun g => [⟨g.ready, 0, g.channels⟩]) ++
        outs.flatMap fun g =>
          [⟨busOf g, 0, g.channels * layout.total⟩, ⟨g.valid, 0, g.channels⟩] := by
  have hclk := hsub.port_clock "clk" (by simp)
  have hrst := hsub.port_clock "rst" (by simp)
  rw [show (bundlingInstance inner ins outs).connections =
      clockWires ++ (ins ++ outs).flatMap fun g =>
    [wire g.name (.ident (busOf g)), sameName g.valid, sameName g.ready] from rfl]
  rw [List.flatMap_append, List.flatMap_assoc, List.flatMap_append]
  have hclock : clockWires.flatMap
      (fun c => (Part.drivenBy (bundlingInstance inner ins outs, sub) c).flatMap
      (Expr.regions (bundling inner ins outs layout).circuit.widths.width)) = [] := by
    simp [clockWires, sameName, wire, Part.drivenBy, hclk, hrst]
  rw [hclock, List.nil_append]
  congr 1
  · refine List.flatMap_congr fun g hg => ?_
    obtain ⟨hname, hvalid, hready⟩ := h.port_input hsub hg
    have hwidth : (bundling inner ins outs layout).circuit.widths.width g.ready = g.channels :=
      Module.width_eq h.distinct_signals (h.mem_signals_ready (List.mem_append_left _ hg))
    simp [sameName, wire, Part.drivenBy, hname, hvalid, hready, Expr.regions, hwidth]
  · refine List.flatMap_congr fun g hg => ?_
    have hg' : g ∈ ins ++ outs := List.mem_append_right _ hg
    obtain ⟨hname, hvalid, hready⟩ := h.port_output hsub hg
    have hbus : (bundling inner ins outs layout).circuit.widths.width (busOf g) =
        g.channels * layout.total :=
      Module.width_eq h.distinct_signals (h.mem_signals_bus hg')
    have hwidth : (bundling inner ins outs layout).circuit.widths.width g.valid = g.channels :=
      Module.width_eq h.distinct_signals (h.mem_signals_valid hg')
    simp [sameName, wire, Part.drivenBy, hname, hvalid, hready, Expr.regions, hbus, hwidth]

/-- All that is driven, by the wrapper or by the unit, sorted by groups. -/
theorem driven_perm :
    ((bundling inner ins outs layout).drivenWith [(bundlingInstance inner ins outs, sub)]).Perm
      (ins.flatMap (drivenIn layout) ++ outs.flatMap (drivenOut layout)) := by
  unfold Module.drivenWith
  rw [h.driven_own, List.flatMap_cons, List.flatMap_nil, List.append_nil, h.driven_connections hsub]
  exact (perm_interleave (List.flatMap_append_perm _ _ _).symm
    (List.flatMap_append_perm _ _ _).symm).symm

/-- Every bit of the wrapper's signals has one driver at most. -/
theorem apart_driven :
    ((bundling inner ins outs layout).drivenWith [(bundlingInstance inner ins outs, sub)]).Pairwise
      Region.Apart := by
  have hin : ∀ g ∈ ins, g ∈ ins ++ outs := fun g => List.mem_append_left _
  have hout : ∀ g ∈ outs, g ∈ ins ++ outs := fun g => List.mem_append_right _
  obtain ⟨hins, houts, hcross⟩ := List.pairwise_append.mp h.disjoint_groups
  refine ((h.driven_perm hsub).pairwise_iff fun hrs => hrs.symm).mpr
    (List.pairwise_append.mpr ⟨?_, ?_, ?_⟩)
  · refine List.pairwise_flatMap.mpr ⟨fun g hg => h.apart_drivenIn (hin g hg), ?_⟩
    refine hins.imp_of_mem fun hg hg' hdisjoint r hr t ht => Region.apart_of_ne fun heq => ?_
    exact hdisjoint (h.name_drivenIn (hin _ hg) hr) (heq ▸ h.name_drivenIn (hin _ hg') ht)
  · refine List.pairwise_flatMap.mpr ⟨fun g hg => h.apart_drivenOut (hout g hg), ?_⟩
    refine houts.imp_of_mem fun hg hg' hdisjoint r hr t ht => Region.apart_of_ne fun heq => ?_
    exact hdisjoint (h.name_drivenOut (hout _ hg) hr) (heq ▸ h.name_drivenOut (hout _ hg') ht)
  · intro r hr t ht
    obtain ⟨g, hg, hr⟩ := List.mem_flatMap.mp hr
    obtain ⟨g', hg', ht⟩ := List.mem_flatMap.mp ht
    refine Region.apart_of_ne fun heq => ?_
    exact hcross g hg g' hg' (h.name_drivenIn (hin g hg) hr)
      (heq ▸ h.name_drivenOut (hout g' hg') ht)

omit hsub in
theorem drivable_bus {g : PortGroup} (hg : g ∈ ins ++ outs) :
    busOf g ∈ (bundling inner ins outs layout).drivable := by
  refine List.mem_append_right _ ?_
  rw [declsOf_bundling h.bus_pos]
  exact List.mem_map.mpr ⟨_, List.mem_filter.mpr ⟨List.mem_map.mpr ⟨g, hg, rfl⟩, rfl⟩, rfl⟩

omit h hsub in
theorem drivable_output {p : Port} (hp : p ∈ outerPorts ins outs) (hout : p.direction = .output) :
    p.name ∈ (bundling inner ins outs layout).drivable :=
  List.mem_append_left _ (List.mem_map.mpr ⟨p, List.mem_filter.mpr ⟨hp, by simpa using hout⟩, rfl⟩)

/-- Only outputs and buses are driven. -/
theorem drivable_driven {r : Region}
    (hr : r ∈
      (bundling inner ins outs layout).drivenWith [(bundlingInstance inner ins outs, sub)]) :
    r.name ∈ (bundling inner ins outs layout).drivable := by
  rcases List.mem_append.mp ((h.driven_perm hsub).mem_iff.mp hr) with hr | hr
  · obtain ⟨g, hg, hr⟩ := List.mem_flatMap.mp hr
    rcases List.mem_append.mp hr with hr | hr
    · obtain ⟨c, -, hr⟩ := List.mem_flatMap.mp hr
      obtain ⟨s, -, rfl⟩ := List.mem_map.mp hr
      exact h.drivable_bus (List.mem_append_left _ hg)
    · rw [List.mem_singleton.mp hr]
      have hport : ⟨.output, g.channels, g.ready⟩ ∈ g.ports .input :=
        List.mem_append_right _ (by simp [Direction.flip])
      exact drivable_output (mem_outer_input hg hport) rfl
  · obtain ⟨g, hg, hr⟩ := List.mem_flatMap.mp hr
    have hg' : g ∈ ins ++ outs := List.mem_append_right _ hg
    rcases List.mem_append.mp hr with hr | hr
    · obtain ⟨c, -, hr⟩ := List.mem_flatMap.mp hr
      obtain ⟨s, hs, rfl⟩ := List.mem_map.mp hr
      exact drivable_output (mem_outer_output hg (h.field_port hg' hs .output)) rfl
    · rcases List.mem_cons.mp hr with rfl | hr
      · exact h.drivable_bus hg'
      · rw [List.mem_singleton.mp hr]
        have hport : ⟨.output, g.channels, g.valid⟩ ∈ g.ports .output :=
          List.mem_append_right _ (by simp)
        exact drivable_output (mem_outer_output hg hport) rfl

omit hsub in
/-- The unit is connected to signals of the wrapper, as wholes. -/
theorem connection_ident {c : String × Option Expr}
    (hc : c ∈ (bundlingInstance inner ins outs).connections) :
    ∃ name, c.2 = some (.ident name) ∧
      (bundling inner ins outs layout).circuit.widths.Declares name := by
  rcases List.mem_append.mp hc with hc | hc
  · simp only [clockWires, List.mem_cons, List.not_mem_nil, or_false] at hc
    rcases hc with rfl | rfl
    · exact ⟨"clk", rfl, Module.declares_of_mem (h.mem_signals_clock (by simp))⟩
    · exact ⟨"rst", rfl, Module.declares_of_mem (h.mem_signals_clock (by simp))⟩
  · obtain ⟨g, hg, hc⟩ := List.mem_flatMap.mp hc
    simp only [List.mem_cons, List.not_mem_nil, or_false] at hc
    rcases hc with rfl | rfl | rfl
    · exact ⟨busOf g, rfl, Module.declares_of_mem (h.mem_signals_bus hg)⟩
    · exact ⟨g.valid, rfl, Module.declares_of_mem (h.mem_signals_valid hg)⟩
    · exact ⟨g.ready, rfl, Module.declares_of_mem (h.mem_signals_ready hg)⟩

/-- No port of the unit is connected twice. -/
theorem once_connections : ((bundlingInstance inner ins outs).connections.map Prod.fst).Nodup := by
  have hnames : (bundlingInstance inner ins outs).connections.map Prod.fst =
      (bundledPorts ins outs layout.total).map Port.name := by
    simp [bundlingInstance, bundledPorts, clockWires, clockPorts, sameName, wire, Port.input,
      List.map_flatMap, handshakePorts_eq h.total_pos, PortGroup.valid, PortGroup.ready]
  rw [hnames]
  exact (hsub.ports.map Port.name).nodup_iff.mp hsub.distinct

/-- **The wrapper connects the unit properly.** -/
theorem connected (houtside : ∀ name ∈ (bundling inner ins outs layout).signals.map Prod.fst,
      ¬ "inner__".toList <+: name.toList) :
    (bundling inner ins outs layout).Connected [(bundlingInstance inner ins outs, sub)] := by
  -- the fields of the structure, in order; the first ones are those of the groups
  refine ⟨h.distinct_signals, h.bounded, processesOf_concatBody _ _ _ _,
    List.pairwise_singleton _ _, ?_, ?_, ?_, ?_, ?_, ?_, h.apart_driven hsub, ?_⟩
  · exact List.forall_mem_singleton.mpr houtside
  · intro a ha
    rcases mem_drives.mp ha with ⟨g, hg, c, hc, s, hs, rfl⟩ | ⟨g, hg, c, hc, s, hs, rfl⟩
    · exact (h.isTarget_field (List.mem_append_left _ hg) hc hs).typed
    · exact (h.isTarget_bus (List.mem_append_right _ hg) hc hs).typed
  · intro a ha
    rcases mem_drives.mp ha with ⟨g, hg, c, hc, s, hs, rfl⟩ | ⟨g, hg, c, hc, s, hs, rfl⟩
    · exact h.isTarget_bus (List.mem_append_left _ hg) hc hs
    · exact h.isTarget_field (List.mem_append_right _ hg) hc hs
  · refine List.forall_mem_singleton.mpr fun c hc e he => ?_
    obtain ⟨name, hname, hdeclared⟩ := h.connection_ident hc
    rw [hname, Option.mem_some_iff] at he
    exact he ▸ hdeclared
  · refine List.forall_mem_singleton.mpr fun c hc e he => ?_
    obtain ⟨name, hname, hdeclared⟩ := h.connection_ident hc
    -- whatever the direction of the port, what it drives is the signal at it
    have hmem : e = .ident name := by
      unfold Part.drivenBy at he
      rw [hname] at he
      split at he
      · rename_i port value _ hvalue
        cases hvalue
        split at he
        · exact absurd he List.not_mem_nil
        · exact List.mem_singleton.mp he
      · exact absurd he List.not_mem_nil
    exact hmem ▸ hdeclared
  · exact List.forall_mem_singleton.mpr (h.once_connections hsub)
  · intro name hname r hr
    exact Module.input_ne_drivable h.distinct_signals hname (h.drivable_driven hsub hr)

/-! ### The order in which signals settle -/

omit h hsub in
theorem input_outer {p : Port} (hp : p ∈ outerPorts ins outs) (hin : p.direction = .input) :
    p.name ∈ (bundling inner ins outs layout).inputs :=
  List.mem_map.mpr ⟨p, List.mem_filter.mpr ⟨hp, by simpa using hin⟩, rfl⟩

omit hsub in
theorem input_field {g : PortGroup} (hg : g ∈ ins) {s : Slice} (hs : s ∈ layout.slices) :
    g.fieldName s.field ∈ (bundling inner ins outs layout).inputs :=
  input_outer (mem_outer_input hg (h.field_port (List.mem_append_left _ hg) hs .input)) rfl

/--
The ranks of the wrapper's signals: inputs, the buses that enter the unit, those
that leave it, outputs.
-/
def ownRank (inner : String) (ins outs : List PortGroup) (layout : Layout) (depth : Nat)
    (name : String) : Nat :=
  if name ∈ (bundling inner ins outs layout).inputs then 0
  else if name ∈ ins.map busOf then 1
  else if name ∈ outs.map busOf then depth
  else depth + 1

omit h hsub in
theorem rank_input {name : String} (hname : name ∈ (bundling inner ins outs layout).inputs)
    (depth : Nat) : ownRank inner ins outs layout depth name = 0 :=
  if_pos hname

omit hsub in
theorem rank_busIn {g : PortGroup} (hg : g ∈ ins) (depth : Nat) :
    ownRank inner ins outs layout depth (busOf g) = 1 := by
  have hdrivable : busOf g ∈ (bundling inner ins outs layout).drivable :=
    h.drivable_bus (List.mem_append_left _ hg)
  unfold ownRank
  rw [if_neg fun hmem => Module.input_ne_drivable h.distinct_signals hmem hdrivable rfl,
    if_pos (List.mem_map.mpr ⟨g, hg, rfl⟩)]

omit hsub in
theorem rank_busOut {g : PortGroup} (hg : g ∈ outs) (depth : Nat) :
    ownRank inner ins outs layout depth (busOf g) = depth := by
  have hdrivable : busOf g ∈ (bundling inner ins outs layout).drivable :=
    h.drivable_bus (List.mem_append_right _ hg)
  have hother : busOf g ∉ ins.map busOf := by
    intro hmem
    have hbuses := (List.nodup_append.mp h.distinct).2.1
    rw [List.map_append] at hbuses
    exact (List.nodup_append.mp hbuses).2.2 _ hmem _ (List.mem_map.mpr ⟨g, hg, rfl⟩) rfl
  unfold ownRank
  rw [if_neg fun hmem => Module.input_ne_drivable h.distinct_signals hmem hdrivable rfl,
    if_neg hother, if_pos (List.mem_map.mpr ⟨g, hg, rfl⟩)]

omit hsub in
/-- An output of the wrapper comes after everything else. -/
theorem rank_output {p : Port} (hp : p ∈ outerPorts ins outs) (hout : p.direction = .output)
    (depth : Nat) : ownRank inner ins outs layout depth p.name = depth + 1 := by
  have hdrivable : p.name ∈ (bundling inner ins outs layout).drivable := drivable_output hp hout
  have hbus : ∀ groups : List PortGroup, (∀ g ∈ groups, g ∈ ins ++ outs) →
      p.name ∉ groups.map busOf := by
    intro groups hgroups hmem
    obtain ⟨g, hg, heq⟩ := List.mem_map.mp hmem
    exact (List.nodup_append.mp h.distinct).2.2 _ (List.mem_map.mpr ⟨p, hp, rfl⟩) _
      (List.mem_map.mpr ⟨g, hgroups g hg, rfl⟩) heq.symm
  unfold ownRank
  rw [if_neg fun hmem => Module.input_ne_drivable h.distinct_signals hmem hdrivable rfl,
    if_neg (hbus ins fun _ => List.mem_append_left _),
      if_neg (hbus outs fun _ => List.mem_append_right _)]

/--
What an input of the unit is connected to settles early; what an output is
connected to settles late.
-/
theorem rank_connection {c : String × Option Expr}
    (hc : c ∈ (bundlingInstance inner ins outs).connections) (depth : Nat) :
    ∃ name q, c.2 = some (.ident name) ∧ sub.port? c.1 = some q ∧
      match q.direction with
      | .input => ownRank inner ins outs layout depth name ≤ 1
      | .output => depth ≤ ownRank inner ins outs layout depth name := by
  have hclock : ∀ name ∈ ["clk", "rst"], ownRank inner ins outs layout depth name = 0 := by
    intro name hname
    refine rank_input
      (input_outer (p := ⟨.input, 1, name⟩)
        (List.mem_append_left _ (List.mem_append_left _ ?_)) rfl) _
    simpa [clockPorts, Port.input] using hname
  rcases List.mem_append.mp hc with hc | hc
  · simp only [clockWires, List.mem_cons, List.not_mem_nil, or_false] at hc
    rcases hc with rfl | rfl
    · exact ⟨"clk", _, rfl, hsub.port_clock "clk" (by simp), by simp [hclock]⟩
    · exact ⟨"rst", _, rfl, hsub.port_clock "rst" (by simp), by simp [hclock]⟩
  · obtain ⟨g, hg, hc⟩ := List.mem_flatMap.mp hc
    simp only [List.mem_cons, List.not_mem_nil, or_false] at hc
    rcases List.mem_append.mp hg with hg | hg
    · -- an input: the bus and the valid bits enter the unit, the ready bits leave it
      obtain ⟨hname, hvalid, hready⟩ := h.port_input hsub hg
      rcases hc with rfl | rfl | rfl
      · exact ⟨_, _, rfl, hname, by simp [h.rank_busIn hg]⟩
      · have hport : ⟨.input, g.channels, g.valid⟩ ∈ g.ports .input :=
          List.mem_append_right _ (by simp)
        exact ⟨_, _, rfl, hvalid, by simp [rank_input (input_outer (mem_outer_input hg hport) rfl)]⟩
      · have hport : ⟨.output, g.channels, g.ready⟩ ∈ g.ports .input :=
          List.mem_append_right _ (by simp [Direction.flip])
        have hrank : ownRank inner ins outs layout depth g.ready = depth + 1 :=
          h.rank_output (mem_outer_input hg hport) rfl depth
        exact ⟨_, _, rfl, hready, by simp [hrank]⟩
    · -- an output: the other way round
      obtain ⟨hname, hvalid, hready⟩ := h.port_output hsub hg
      rcases hc with rfl | rfl | rfl
      · exact ⟨_, _, rfl, hname, by simp [h.rank_busOut hg]⟩
      · have hport : ⟨.output, g.channels, g.valid⟩ ∈ g.ports .output :=
          List.mem_append_right _ (by simp)
        have hrank : ownRank inner ins outs layout depth g.valid = depth + 1 :=
          h.rank_output (mem_outer_output hg hport) rfl depth
        exact ⟨_, _, rfl, hvalid, by simp [hrank]⟩
      · have hport : ⟨.input, g.channels, g.ready⟩ ∈ g.ports .output :=
          List.mem_append_right _ (by simp [Direction.flip])
        exact ⟨_, _, rfl, hready,
          by simp [rank_input (input_outer (mem_outer_output hg hport) rfl)]⟩

/-- **Signals of the wrapper settle one after the other,** if those of the unit do. -/
theorem ranked (hdistinct : (sub.signals.map Prod.fst).Nodup) {rank : String → Nat}
    (hrank : sub.circuit.Acyclic rank) :
    ∃ own inner', (bundling inner ins outs layout).Ranked [(bundlingInstance inner ins outs, sub)]
      own inner' := by
  -- all ranks of the unit's ports lie between those of the buses
  obtain ⟨depth, hdepth⟩ : ∃ depth, ∀ q ∈ sub.ports, rank q.name + 2 < depth := by
    refine ⟨(sub.ports.map fun q => rank q.name).foldr max 0 + 3, fun q hq => ?_⟩
    have hmem : rank q.name ∈ sub.ports.map fun q => rank q.name := List.mem_map.mpr ⟨q, hq, rfl⟩
    have hle := Circuit.foldr_max_le.mp (Nat.le_refl _) _ hmem
    omega
  refine ⟨ownRank inner ins outs layout depth, fun _ name => rank name + 2, ⟨?_, ?_, ?_⟩⟩
  · intro a ha
    rcases mem_drives.mp ha with ⟨g, hg, c, hc, s, hs, rfl⟩ | ⟨g, hg, c, hc, s, hs, rfl⟩
    · unfold Assign.Ascends busSlice fieldSlice
      rw [Expr.reads_select, Expr.reads_select, List.forall_mem_singleton,
        List.forall_mem_singleton, rank_input (h.input_field hg hs), h.rank_busIn hg]
      exact Nat.one_pos
    · unfold Assign.Ascends busSlice fieldSlice
      have hport : ⟨.output, g.channels * s.width, g.fieldName s.field⟩ ∈ outerPorts ins outs :=
        mem_outer_output hg (h.field_port (List.mem_append_right _ hg) hs .output)
      rw [Expr.reads_select, Expr.reads_select, List.forall_mem_singleton,
        List.forall_mem_singleton, h.rank_busOut hg, h.rank_output hport rfl]
      exact Nat.lt_succ_self _
  · refine List.forall_mem_singleton.mpr fun a ha name hname target htarget => ?_
    exact Nat.add_lt_add_right (hrank a ha name hname target htarget) 2
  · refine List.forall_mem_singleton.mpr
      (Part.ranked_of_ports hdistinct fun c hc e he q hq name hname => ?_)
    obtain ⟨own, q', hown, hq', hranks⟩ := h.rank_connection hsub hc depth
    rw [hown, Option.mem_some_iff] at he
    subst he
    rw [List.mem_singleton.mp hname]
    obtain rfl : q' = q := Option.some.inj (hq'.symm.trans hq)
    have hport := hdepth q' (List.mem_of_find?_eq_some hq')
    have hsame : q'.name = c.1 := by simpa using List.find?_some hq'
    rw [hsame] at hport
    cases hdirection : q'.direction with
    | input =>
        rw [hdirection] at hranks
        dsimp only at hranks ⊢
        omega
    | output =>
        rw [hdirection] at hranks
        dsimp only at hranks ⊢
        omega

end Inner

/-! ### What the buses hold -/

/-- Each channel of the bus of a group holds the fields of that channel. -/
def Carried (layout : Layout) (x : State) (g : PortGroup) : Prop :=
  ∀ c < g.channels, ∀ s ∈ layout.slices,
    (((x (busOf g)).channel layout.total c).down s.lo).low s.width =
      (x (g.fieldName s.field)).channel s.width c

/-- **Where the assigns hold, the buses hold the fields,** on inputs and outputs alike. -/
theorem carried {x : State}
    (hholds : ∀ a ∈ Item.drivesOf (bundling inner ins outs layout).items,
      a.Holds (bundling inner ins outs layout).circuit.widths.width x)
    (hfits : ∀ s ∈ (bundling inner ins outs layout).signals, (x s.1).low s.2 = x s.1)
    {g : PortGroup} (hg : g ∈ ins ++ outs) : Carried layout x g := by
  intro c hc s hs
  obtain ⟨hpos, hreach⟩ := Layout.slice_reach h.layout_of hs
  have hbus : (busOf g, g.channels * layout.total) ∈ (bundling inner ins outs layout).signals :=
    h.mem_signals_bus hg
  have hfield : (g.fieldName s.field, g.channels * s.width) ∈
      (bundling inner ins outs layout).signals :=
    h.mem_signals_field hg hs
  unfold Word.channel
  rw [Word.low_down_low _ hreach, Word.down_down]
  rcases List.mem_append.mp hg with hgroup | hgroup
  · have hspread := hholds _ (mem_drives.mpr (Or.inl ⟨g, hgroup, c, hc, s, hs, rfl⟩))
    unfold Assign.Holds at hspread
    rw [h.regions_bus hg hc hs (Module.width_eq h.distinct_signals hbus), fieldSlice,
      Expr.value_select hpos (reach_field hc s) (h.field_le hg hs) (hfits _ hfield)] at hspread
    rw [hspread.part, Word.low_low]
  · have hspread := hholds _ (mem_drives.mpr (Or.inr ⟨g, hgroup, c, hc, s, hs, rfl⟩))
    unfold Assign.Holds at hspread
    rw [h.regions_field hg hc hs (Module.width_eq h.distinct_signals hfield), busSlice,
      Expr.value_select hpos (h.reach_bus hc hs) (h.buses_le g hg) (hfits _ hbus)] at hspread
    rw [hspread.part, Word.low_low]

/-- A channel of the bus is what packing its fields gives. -/
theorem packed {x : State} {g : PortGroup} (hg : g ∈ ins ++ outs)
    (hcarried : Carried layout x g) {c : Nat} (hc : c < g.channels) :
    layout.pack (layout.slices.map fun s => (x (g.fieldName s.field)).channel s.width c) =
      some ((x (busOf g)).channel layout.total c) := by
  rw [← List.map_congr_left (hcarried c hc), Layout.pack_slices h.layout_of (h.total_le hg)]
  unfold Word.channel
  rw [Word.low_low]

/-- Unpacking a channel of the bus gives its fields back. -/
theorem unpacked {x : State} {g : PortGroup} (hg : g ∈ ins ++ outs)
    (hcarried : Carried layout x g) {c : Nat} (hc : c < g.channels) :
    layout.unpack ((x (busOf g)).channel layout.total c) =
      some (layout.slices.map fun s => (x (g.fieldName s.field)).channel s.width c) := by
  rw [← List.map_congr_left (hcarried c hc), ← Layout.unpack_slices h.layout_of (h.total_le hg)]
  unfold Word.channel
  rw [Word.low_low]

end Bundles

end Manager

end Handshake
