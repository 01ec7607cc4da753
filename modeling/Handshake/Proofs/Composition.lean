import Handshake.Proofs.Behaviour
import Handshake.Proofs.Inlining

/-!
# Modules made of modules

A module that only connects other modules is well formed once flattened, if its
parts are and it connects them properly (`Assembled`): every bit of its own
signals has one driver, an assign or an output of a part; every input of a part
is connected once at most; and no name of its own could be taken for a name
inside a part.

The flattened module contains its parts (`Includes`). So the signals of a part,
taken out of a behaviour of the whole, are a behaviour of the part
(`Behaves.restrict`): what is known of a part on its own remains true inside any
module.

What the whole adds to its parts are its connections. In a settled state a
connected input has the value of what it is connected to (`input_eq`), an output
is spread over its target (`output_spread`), and between ports and signals of
equal widths both are plain equations (`wire_eq`). Ranks compose in the same
manner: ranks inside of the parts and ranks of the module's own signals, fitting
together at the connections, rank the flattened module (`exists_rank`).
-/

namespace Handshake

theorem lookup_map_injective {f : String → String} (hf : Function.Injective f)
    (entries : List (String × Nat)) (name : String) :
    (entries.map fun s => (f s.1, s.2)).lookup (f name) = entries.lookup name := by
  induction entries with
  | nil => rfl
  | cons entry rest ih =>
      obtain ⟨key, width⟩ := entry
      rw [List.map_cons, lookup_cons, lookup_cons, ih]
      simp only [hf.eq_iff]

namespace Part

/-- What the names of the part's signals begin with. -/
def start (p : Part) : List Char := (p.1.name ++ "__").toList

/-- A name inside of a part begins with the name of the part. -/
theorem start_rename (p : Part) (name : String) : p.start <+: (p.rename name).toList := by
  rw [rename, Instance.signalName, String.toList_append]
  exact List.prefix_append _ _

/-- Different signals of a part keep different names. -/
theorem rename_injective (p : Part) : Function.Injective p.rename := by
  intro a b h
  simpa [rename, Instance.signalName] using h

theorem lookup_signals (p : Part) (name : String) :
    p.signals.reverse.lookup (p.rename name) = p.2.circuit.widths.entries.lookup name := by
  unfold signals
  rw [← List.map_reverse]
  exact lookup_map_injective p.rename_injective _ name

/-- The names of the part and of another one cannot be confused. -/
def Separate (p q : Part) : Prop := ¬ p.start <+: q.start ∧ ¬ q.start <+: p.start

instance : Std.Symm Separate := ⟨fun _ _ h => ⟨h.2, h.1⟩⟩

/-- Separate parts have no name in common. -/
theorem Separate.rename_ne {p q : Part} (h : p.Separate q) (a b : String) :
    p.rename a ≠ q.rename b := by
  intro heq
  have hp := p.start_rename a
  rw [heq] at hp
  exact (List.prefix_or_prefix_of_prefix hp (q.start_rename b)).elim h.1 h.2

/-- What a connection drives outside of the part. -/
def drivenBy (p : Part) (c : String × Option Expr) : List Expr :=
  match p.2.port? c.1, c.2 with
  | some port, some e =>
    match port.direction with
    | .input => []
    | .output => [e]
  | _, _ => []

/-- A connection drives an input of the part, or is driven by an output of the part. -/
theorem connection_cases {p : Part} {c : String × Option Expr} {a : Assign}
    (h : a ∈ p.connection c) :
    (∃ e, c.2 = some e ∧ c.1 ∈ p.2.inputs ∧ a = ⟨.ident (p.rename c.1), e⟩ ∧ p.drivenBy c = []) ∨
      ∃ e port, c.2 = some e ∧ p.2.port? c.1 = some port ∧ a = ⟨e, .ident (p.rename c.1)⟩ ∧
        p.drivenBy c = [e] := by
  obtain ⟨name, value⟩ := c
  unfold connection at h
  dsimp only at h
  split at h
  · rename_i port e hport
    have hname : port.name = name := by simpa using List.find?_some hport
    cases hd : port.direction with
    | input =>
        rw [hd] at h
        refine Or.inl ⟨e, rfl, ?_, List.mem_singleton.mp h, by simp [drivenBy, hport, hd]⟩
        rw [← hname]
        exact List.mem_map_of_mem
          (List.mem_filter.mpr ⟨List.mem_of_find?_eq_some hport, by simp [hd]⟩)
    | output =>
        rw [hd] at h
        exact Or.inr ⟨e, port, rfl, hport, List.mem_singleton.mp h, by simp [drivenBy, hport, hd]⟩
  · exact absurd h List.not_mem_nil

theorem mem_signals_of_port {p : Part} {name : String} {port : Port}
    (h : p.2.port? name = some port) : p.2.circuit.widths.Declares name := by
  have hname : port.name = name := by simpa using List.find?_some h
  rw [Module.declares_iff, ← hname]
  refine List.mem_map.mpr ⟨(port.name, port.width), List.mem_append_left _ ?_, rfl⟩
  exact List.mem_map_of_mem (List.mem_of_find?_eq_some h)

end Part

namespace Module

/--
The own signals of a module, or parts of them, that are driven: by its assigns,
or by its parts.
-/
def drivenWith (m : Module) (parts : List Part) : List Region :=
  (Item.drivesOf m.items).flatMap (fun a => a.target.regions m.circuit.widths.width) ++
    parts.flatMap fun p => p.1.connections.flatMap fun c =>
      (p.drivenBy c).flatMap (Expr.regions m.circuit.widths.width)

/-- A module that connects parts properly, and has no processes of its own. -/
structure Connected (m : Module) (parts : List Part) : Prop where
  distinct : (m.signals.map Prod.fst).Nodup
  bounded : ∀ s ∈ m.signals, s.2 ≤ wordBits
  stateless : Item.processesOf m.items = []
  separate : parts.Pairwise Part.Separate
  outside : ∀ p ∈ parts, ∀ name ∈ m.signals.map Prod.fst, ¬ p.start <+: name.toList
  values : ∀ a ∈ Item.drivesOf m.items, a.value.Typed m.circuit.widths
  targets : ∀ a ∈ Item.drivesOf m.items, a.target.IsTarget m.circuit.widths
  connected : ∀ p ∈ parts, ∀ c ∈ p.1.connections, ∀ e ∈ c.2, e.Typed m.circuit.widths
  outputs : ∀ p ∈ parts, ∀ c ∈ p.1.connections, ∀ e ∈ p.drivenBy c, e.IsTarget m.circuit.widths
  once : ∀ p ∈ parts, (p.1.connections.map Prod.fst).Nodup
  apart : (m.drivenWith parts).Pairwise Region.Apart
  undriven : ∀ name ∈ m.inputs, ∀ r ∈ m.drivenWith parts, r.name ≠ name

theorem Connected.named {m : Module} {parts : List Part} (h : m.Connected parts) (name : String) :
    ({ m with name } : Module).Connected parts :=
  ⟨h.distinct, h.bounded, h.stateless, h.separate, h.outside, h.values, h.targets, h.connected,
    h.outputs, h.once, h.apart, h.undriven⟩

/-- A module that connects well-formed parts properly. -/
structure Assembled (m : Module) (parts : List Part) : Prop extends Connected m parts where
  parts_wellFormed : ∀ p ∈ parts, p.2.WellFormed

end Module

/-! ## Names and widths -/

namespace Widths.Embeds

variable {inner outer : Widths} {e : Expr}

theorem typed (h : inner.Embeds id outer) (he : e.Typed inner) : e.Typed outer := by
  rw [← Expr.renamed_id e]
  exact Expr.typed_renamed h he

theorem isTarget (h : inner.Embeds id outer) (he : e.IsTarget inner) : e.IsTarget outer := by
  rw [← Expr.renamed_id e]
  exact Expr.isTarget_renamed h he

theorem regions (h : inner.Embeds id outer) (he : e.Typed inner) :
    e.regions outer.width = e.regions inner.width := by
  have hregions := Expr.regions_renamed (Expr.reads_embed h he)
  rw [Expr.renamed_id] at hregions
  have hid : Region.renamed id = id := rfl
  rw [hregions, hid, List.map_id]

theorem value (h : inner.Embeds id outer) (he : e.Typed inner) (x : State) :
    e.value outer.width x = e.value inner.width x := by
  have hvalue : (e.renamed id).value outer.width x = e.value inner.width x :=
    Expr.value_renamed (Expr.reads_embed h he)
  rwa [Expr.renamed_id] at hvalue

end Widths.Embeds

section

variable {m flat : Module} {parts : List Part}

/-- No signal of the module is named like one inside of a part. -/
theorem Module.Assembled.rename_ne (h : m.Assembled parts) {p : Part} (hp : p ∈ parts)
    {name : String} (hname : m.circuit.widths.Declares name) (inner : String) :
    p.rename inner ≠ name := by
  intro heq
  exact h.outside p hp name (Module.declares_iff.mp hname) (heq ▸ p.start_rename inner)

/-- Names remain distinct after flattening. -/
theorem Flattens.distinct (hf : Flattens m parts flat) (h : m.Assembled parts) :
    (flat.signals.map Prod.fst).Nodup := by
  rw [(hf.signals.map Prod.fst).nodup_iff, List.map_append, List.nodup_append, List.map_flatMap,
    List.nodup_flatMap]
  refine ⟨h.distinct, ⟨fun p hp => ?_, ?_⟩, ?_⟩
  · have hnames : p.signals.map Prod.fst = (p.2.signals.map Prod.fst).map p.rename := by
      simp [Part.signals, Function.comp_def]
    rw [hnames]
    exact (h.parts_wellFormed p hp).distinct.map p.rename_injective
  · refine h.separate.imp fun {p q} hpq => ?_
    intro name hp hq
    simp only [Part.signals, List.map_map, List.mem_map, Function.comp_apply] at hp hq
    obtain ⟨s, -, rfl⟩ := hp
    obtain ⟨t, -, heq⟩ := hq
    exact hpq.rename_ne s.1 t.1 heq.symm
  · intro name hname other hother heq
    obtain ⟨p, hp, hin⟩ := List.mem_flatMap.mp hother
    simp only [Part.signals, List.map_map, List.mem_map, Function.comp_apply] at hin
    obtain ⟨s, -, hs⟩ := hin
    exact h.rename_ne hp (Module.declares_iff.mpr hname) s.1 (hs.trans heq.symm)

/-- The signals of the module keep their widths. -/
theorem Flattens.embeds_own (hf : Flattens m parts flat) (h : m.Assembled parts) :
    m.circuit.widths.Embeds id flat.circuit.widths := by
  intro name hname
  have hmem : (name, m.circuit.widths.width name) ∈ flat.signals :=
    hf.signals.mem_iff.mpr (List.mem_append_left _ (Module.declares_width h.distinct hname))
  exact ⟨Module.declares_iff.mpr (List.mem_map_of_mem hmem), Module.width_eq (hf.distinct h) hmem⟩

/-- The signals of a part keep their widths under their new names. -/
theorem Flattens.embeds_part (hf : Flattens m parts flat) (h : m.Assembled parts) {p : Part}
    (hp : p ∈ parts) : p.2.circuit.widths.Embeds p.rename flat.circuit.widths := by
  intro name hname
  have hinner := Module.declares_width (h.parts_wellFormed p hp).distinct hname
  have hmem : (p.rename name, p.2.circuit.widths.width name) ∈ flat.signals :=
    hf.signals.mem_iff.mpr
      (List.mem_append_right _ (List.mem_flatMap.mpr ⟨p, hp, List.mem_map.mpr ⟨_, hinner, rfl⟩⟩))
  exact ⟨Module.declares_iff.mpr (List.mem_map_of_mem hmem), Module.width_eq (hf.distinct h) hmem⟩

theorem Flattens.typed_own (hf : Flattens m parts flat) (h : m.Assembled parts) {e : Expr}
    (he : e.Typed m.circuit.widths) : e.Typed flat.circuit.widths :=
  (hf.embeds_own h).typed he

theorem Flattens.isTarget_own (hf : Flattens m parts flat) (h : m.Assembled parts) {e : Expr}
    (he : e.IsTarget m.circuit.widths) : e.IsTarget flat.circuit.widths :=
  (hf.embeds_own h).isTarget he

theorem Flattens.regions_own (hf : Flattens m parts flat) (h : m.Assembled parts) {e : Expr}
    (he : e.Typed m.circuit.widths) :
    e.regions flat.circuit.widths.width = e.regions m.circuit.widths.width :=
  (hf.embeds_own h).regions he

theorem Flattens.bounded (hf : Flattens m parts flat) (h : m.Assembled parts) (name : String) :
    flat.circuit.widths.width name ≤ wordBits := by
  refine Module.width_le (hf.distinct h) (fun s hs => ?_) name
  rcases List.mem_append.mp (hf.signals.mem_iff.mp hs) with hs | hs
  · exact h.bounded _ hs
  · obtain ⟨p, hp, hs⟩ := List.mem_flatMap.mp hs
    obtain ⟨t, ht, rfl⟩ := List.mem_map.mp hs
    have hpart := h.parts_wellFormed p hp
    rw [← Module.width_eq hpart.distinct ht]
    exact hpart.wired.bounded t.1

/-! ## Drivers -/

/--
What an assign of a flattened module is: one of the module itself, one of a
part, or a connection.
-/
theorem Flattens.assign_cases (hf : Flattens m parts flat) {a : Assign}
    (ha : a ∈ flat.circuit.assigns) :
    a ∈ Item.drivesOf m.items ∨
      (∃ p ∈ parts, ∃ b ∈ p.2.circuit.assigns, a = b.renamed p.rename) ∨
        ∃ p ∈ parts, ∃ c ∈ p.1.connections, a ∈ p.connection c := by
  rcases List.mem_append.mp (hf.assigns.mem_iff.mp ha) with ha | ha
  · exact Or.inl ha
  · obtain ⟨p, hp, ha⟩ := List.mem_flatMap.mp ha
    rcases List.mem_append.mp ha with ha | ha
    · obtain ⟨b, hb, rfl⟩ := List.mem_map.mp ha
      exact Or.inr (Or.inl ⟨p, hp, b, hb, rfl⟩)
    · obtain ⟨c, hc, ha⟩ := List.mem_flatMap.mp ha
      exact Or.inr (Or.inr ⟨p, hp, c, hc, ha⟩)

theorem Module.Assembled.mem_drivenBy (h : m.Assembled parts) {p : Part} (hp : p ∈ parts)
    {c : String × Option Expr} (hc : c ∈ p.1.connections) {e : Expr} (he : e ∈ p.drivenBy c)
    {r : Region} (hr : r ∈ e.regions m.circuit.widths.width) : m.circuit.widths.Declares r.name :=
  Expr.declares_reads (h.outputs p hp c hc e he).typed r.name (Expr.mem_reads_of_region r hr)

/-- The regions of a connection: an input of the part, or what the module has the part drive. -/
theorem Flattens.connection_regions (hf : Flattens m parts flat) (h : m.Assembled parts) {p : Part}
    (hp : p ∈ parts) {c : String × Option Expr} (hc : c ∈ p.1.connections) {a : Assign}
    (ha : a ∈ p.connection c) {r : Region} (hr : r ∈ a.target.regions flat.circuit.widths.width) :
    (c.1 ∈ p.2.inputs ∧ r.name = p.rename c.1) ∨
      r ∈ (p.drivenBy c).flatMap (Expr.regions m.circuit.widths.width) := by
  rcases Part.connection_cases ha with ⟨e, -, hin, rfl, -⟩ | ⟨e, port, -, -, rfl, hdriven⟩
  · exact Or.inl ⟨hin, by rw [List.mem_singleton.mp hr]⟩
  · have he : e ∈ p.drivenBy c := by rw [hdriven]; exact List.mem_singleton_self e
    rw [hf.regions_own h (h.outputs p hp c hc e he).typed] at hr
    exact Or.inr (List.mem_flatMap.mpr ⟨e, he, hr⟩)

theorem Flattens.part_regions (hf : Flattens m parts flat) (h : m.Assembled parts) {p : Part}
    (hp : p ∈ parts) {b : Assign} (hb : b ∈ p.2.circuit.assigns) :
    (b.renamed p.rename).target.regions flat.circuit.widths.width =
      (b.target.regions p.2.circuit.widths.width).map (Region.renamed p.rename) :=
  Expr.regions_renamed
    (Expr.reads_embed (hf.embeds_part h hp) ((h.parts_wellFormed p hp).wired.targets b hb).typed)

/-- What a part drives in the module around it. -/
def Part.outside (p : Part) (m : Module) : List Region :=
  p.1.connections.flatMap fun c => (p.drivenBy c).flatMap (Expr.regions m.circuit.widths.width)

theorem Region.apart_of_ne {r s : Region} (h : r.name ≠ s.name) : r.Apart s :=
  fun heq => absurd heq h

/-- A region that a part contributes lies inside the part, or is one that it drives outside. -/
theorem Flattens.region_cases (hf : Flattens m parts flat) (h : m.Assembled parts) {p : Part}
    (hp : p ∈ parts) {r : Region}
    (hr : r ∈ p.assigns.flatMap fun a => a.target.regions flat.circuit.widths.width) :
    (∃ name, r.name = p.rename name) ∨ (r ∈ p.outside m ∧ m.circuit.widths.Declares r.name) := by
  obtain ⟨a, ha, hr⟩ := List.mem_flatMap.mp hr
  rcases List.mem_append.mp ha with ha | ha
  · obtain ⟨b, hb, rfl⟩ := List.mem_map.mp ha
    rw [hf.part_regions h hp hb] at hr
    obtain ⟨q, -, rfl⟩ := List.mem_map.mp hr
    exact Or.inl ⟨q.name, rfl⟩
  · obtain ⟨c, hc, ha⟩ := List.mem_flatMap.mp ha
    rcases hf.connection_regions h hp hc ha hr with ⟨-, hname⟩ | hr
    · exact Or.inl ⟨c.1, hname⟩
    · obtain ⟨e, he, hre⟩ := List.mem_flatMap.mp hr
      exact Or.inr ⟨List.mem_flatMap.mpr ⟨c, hc, hr⟩, h.mem_drivenBy hp hc he hre⟩

/-- The connections of a part drive different bits. -/
theorem Flattens.apart_connections (hf : Flattens m parts flat) (h : m.Assembled parts) {p : Part}
    (hp : p ∈ parts) :
    ((p.1.connections.flatMap p.connection).flatMap
      fun a => a.target.regions flat.circuit.widths.width).Pairwise
      Region.Apart := by
  have hout : (p.outside m).Pairwise Region.Apart :=
    (List.pairwise_flatMap.mp (List.pairwise_append.mp h.apart).2.1).1 p hp
  obtain ⟨heach, hcross⟩ := List.pairwise_flatMap.mp hout
  have honce : p.1.connections.Pairwise fun c d => c.1 ≠ d.1 := List.pairwise_map.mp (h.once p hp)
  rw [List.flatMap_assoc, List.pairwise_flatMap]
  constructor
  · intro c hc
    rw [List.pairwise_flatMap]
    constructor
    · intro a ha
      rcases Part.connection_cases ha with ⟨e, -, -, rfl, -⟩ | ⟨e, port, -, -, rfl, hdriven⟩
      · exact List.pairwise_singleton _ _
      · have he : e ∈ p.drivenBy c := by rw [hdriven]; exact List.mem_singleton_self e
        dsimp only
        rw [hf.regions_own h (h.outputs p hp c hc e he).typed]
        exact (List.pairwise_flatMap.mp (heach c hc)).1 e he
    · -- a connection makes one assign at most
      unfold Part.connection
      split
      · split <;> exact List.pairwise_singleton _ _
      · exact List.Pairwise.nil
  · refine (honce.and hcross).imp_of_mem fun {c d} hc hd hcd r hr s hs => ?_
    obtain ⟨a, ha, hr⟩ := List.mem_flatMap.mp hr
    obtain ⟨b, hb, hs⟩ := List.mem_flatMap.mp hs
    -- inputs are driven inside the part and outputs outside of it, so only regions on
    -- one side can meet
    rcases hf.connection_regions h hp hc ha hr with ⟨-, hrname⟩ | hr <;>
      rcases hf.connection_regions h hp hd hb hs with ⟨-, hsname⟩ | hs
    · refine Region.apart_of_ne fun heq => hcd.1 (p.rename_injective ?_)
      rw [← hrname, ← hsname, heq]
    · obtain ⟨e, he, hse⟩ := List.mem_flatMap.mp hs
      exact Region.apart_of_ne (hrname ▸ h.rename_ne hp (h.mem_drivenBy hp hd he hse) c.1)
    · obtain ⟨e, he, hre⟩ := List.mem_flatMap.mp hr
      exact Region.apart_of_ne (hsname ▸ (h.rename_ne hp (h.mem_drivenBy hp hc he hre) d.1).symm)
    · exact hcd.2 r hr s hs

/-- The assigns that a part contributes drive different bits. -/
theorem Flattens.apart_part (hf : Flattens m parts flat) (h : m.Assembled parts) {p : Part}
    (hp : p ∈ parts) :
    (p.assigns.flatMap fun a => a.target.regions flat.circuit.widths.width).Pairwise
      Region.Apart := by
  have hpart := h.parts_wellFormed p hp
  -- the copied assigns drive copies of what the assigns of the part drive
  have hcopies : ((Item.drivesOf p.2.items).map (Assign.renamed p.rename)).flatMap
      (fun a => a.target.regions flat.circuit.widths.width) =
        p.2.circuit.driven.map (Region.renamed p.rename) := by
    rw [Circuit.driven, List.map_flatMap, List.flatMap_map]
    exact List.flatMap_congr fun b hb => hf.part_regions h hp hb
  unfold Part.assigns
  rw [List.flatMap_append, hcopies]
  refine List.pairwise_append.mpr ⟨?_, hf.apart_connections h hp, ?_⟩
  · refine List.pairwise_map.mpr (hpart.wired.apart.imp fun {r s} hrs heq => ?_)
    exact hrs (p.rename_injective heq)
  · intro r hr s hs
    obtain ⟨q, hq, rfl⟩ := List.mem_map.mp hr
    obtain ⟨a, ha, hs⟩ := List.mem_flatMap.mp hs
    obtain ⟨c, hc, ha⟩ := List.mem_flatMap.mp ha
    rcases hf.connection_regions h hp hc ha hs with ⟨hin, hname⟩ | hs
    · refine Region.apart_of_ne fun heq => hpart.undriven c.1 hin q hq (p.rename_injective ?_)
      rw [← hname, ← heq]
      rfl
    · obtain ⟨e, he, hse⟩ := List.mem_flatMap.mp hs
      exact Region.apart_of_ne (h.rename_ne hp (h.mem_drivenBy hp hc he hse) q.name)

/-- What is driven after flattening: by the module's assigns, and by those that came from parts. -/
theorem Flattens.driven_perm (hf : Flattens m parts flat) (h : m.Assembled parts) :
    flat.circuit.driven.Perm
      ((Item.drivesOf m.items).flatMap (fun a => a.target.regions m.circuit.widths.width) ++
        parts.flatMap fun p => p.assigns.flatMap fun a =>
          a.target.regions flat.circuit.widths.width) := by
  have hown : (Item.drivesOf m.items).flatMap
      (fun a => a.target.regions flat.circuit.widths.width) =
      (Item.drivesOf m.items).flatMap (fun a => a.target.regions m.circuit.widths.width) :=
    List.flatMap_congr fun a ha => hf.regions_own h (h.targets a ha).typed
  rw [← hown, ← List.flatMap_assoc, ← List.flatMap_append]
  exact hf.assigns.flatMap_right _

theorem Module.Assembled.declares_own (h : m.Assembled parts) {r : Region}
    (hr : r ∈ (Item.drivesOf m.items).flatMap fun a => a.target.regions m.circuit.widths.width) :
    m.circuit.widths.Declares r.name := by
  obtain ⟨a, ha, hr⟩ := List.mem_flatMap.mp hr
  exact Expr.declares_reads (h.targets a ha).typed r.name (Expr.mem_reads_of_region r hr)

/-- No two assigns of the flattened module drive the same bit. -/
theorem Flattens.apart (hf : Flattens m parts flat) (h : m.Assembled parts) :
    flat.circuit.driven.Pairwise Region.Apart := by
  rw [(hf.driven_perm h).pairwise_iff Region.Apart.symm, List.pairwise_append]
  obtain ⟨hown, hparts, hcross⟩ := List.pairwise_append.mp h.apart
  refine ⟨hown, List.pairwise_flatMap.mpr ⟨fun p hp => hf.apart_part h hp, ?_⟩, ?_⟩
  · refine (h.separate.and (List.pairwise_flatMap.mp hparts).2).imp_of_mem
      fun {p q} hp hq hpq r hr s hs => ?_
    -- two parts share no names inside, and outside the module keeps their regions apart
    rcases hf.region_cases h hp hr with ⟨a, hrname⟩ | ⟨hr, hrname⟩ <;>
      rcases hf.region_cases h hq hs with ⟨b, hsname⟩ | ⟨hs, hsname⟩
    · exact Region.apart_of_ne (by rw [hrname, hsname]; exact hpq.1.rename_ne a b)
    · exact Region.apart_of_ne (hrname ▸ h.rename_ne hp hsname a)
    · exact Region.apart_of_ne (hsname ▸ (h.rename_ne hq hrname b).symm)
    · exact hpq.2 r hr s hs
  · intro r hr s hs
    obtain ⟨p, hp, hs⟩ := List.mem_flatMap.mp hs
    rcases hf.region_cases h hp hs with ⟨b, hsname⟩ | ⟨hs, -⟩
    · exact Region.apart_of_ne (hsname ▸ (h.rename_ne hp (h.declares_own hr) b).symm)
    · exact hcross r hr s (List.mem_flatMap.mpr ⟨p, hp, hs⟩)

/-- The assigns of the flattened module can be evaluated and do not get in each other's way. -/
theorem Flattens.wired (hf : Flattens m parts flat) (h : m.Assembled parts) :
    flat.circuit.Wired where
  bounded := hf.bounded h
  values a ha := by
    rcases hf.assign_cases ha with ha | ⟨p, hp, b, hb, rfl⟩ | ⟨p, hp, c, hc, ha⟩
    · exact hf.typed_own h (h.values a ha)
    · exact Expr.typed_renamed (hf.embeds_part h hp) ((h.parts_wellFormed p hp).wired.values b hb)
    · rcases Part.connection_cases ha with ⟨e, he, -, rfl, -⟩ | ⟨e, port, -, hport, rfl, -⟩
      · exact hf.typed_own h (h.connected p hp c hc e he)
      · exact (hf.embeds_part h hp c.1 (Part.mem_signals_of_port hport)).1
  targets a ha := by
    rcases hf.assign_cases ha with ha | ⟨p, hp, b, hb, rfl⟩ | ⟨p, hp, c, hc, ha⟩
    · exact hf.isTarget_own h (h.targets a ha)
    · exact Expr.isTarget_renamed (hf.embeds_part h hp)
        ((h.parts_wellFormed p hp).wired.targets b hb)
    · rcases Part.connection_cases ha with ⟨e, -, hin, rfl, -⟩ | ⟨e, port, -, -, rfl, hdriven⟩
      · exact (hf.embeds_part h hp c.1 (Module.declares_input hin)).1
      · exact hf.isTarget_own h
          (h.outputs p hp c hc e (by rw [hdriven]; exact List.mem_singleton_self e))
  apart := hf.apart h

/-! ## Registers -/

/-- Every process of the flattened module came from a part. -/
theorem Flattens.process_cases (hf : Flattens m parts flat) (h : m.Assembled parts)
    {q : List Statement} (hq : q ∈ flat.circuit.processes) :
    ∃ p ∈ parts, ∃ s ∈ p.2.circuit.processes, q = Statement.renamedAll p.rename s := by
  have hmem := hf.processes.mem_iff.mp hq
  rw [h.stateless, List.nil_append] at hmem
  obtain ⟨p, hp, hq⟩ := List.mem_flatMap.mp hmem
  obtain ⟨s, hs, rfl⟩ := List.mem_map.mp hq
  exact ⟨p, hp, s, hs, rfl⟩

theorem Flattens.register_cases (hf : Flattens m parts flat) (h : m.Assembled parts) {name : String}
    (hname : name ∈ flat.circuit.registers) :
    ∃ p ∈ parts, ∃ inner ∈ p.2.circuit.registers, name = p.rename inner := by
  obtain ⟨q, hq, hname⟩ := List.mem_flatMap.mp hname
  obtain ⟨p, hp, s, hs, rfl⟩ := hf.process_cases h hq
  rw [Statement.assignedAll_renamed] at hname
  obtain ⟨inner, hinner, rfl⟩ := List.mem_map.mp hname
  exact ⟨p, hp, inner, List.mem_flatMap.mpr ⟨s, hs, hinner⟩, rfl⟩

/-- Different parts have different positions in the list, and so cannot be confused. -/
theorem Module.Assembled.eq_of_rename_eq (h : m.Assembled parts) {p q : Part} (hp : p ∈ parts)
    (hq : q ∈ parts) {a b : String} (heq : p.rename a = q.rename b) : p = q := by
  by_contra hne
  have hsep : p.Separate q := h.separate.forall hp hq hne
  exact hsep.rename_ne a b heq

/-- No assign drives a register, not even through a connection. -/
theorem Flattens.undriven_register (hf : Flattens m parts flat) (h : m.Assembled parts)
    {name : String} (hname : name ∈ flat.circuit.registers) : flat.circuit.Undriven name := by
  obtain ⟨p, hp, inner, hinner, rfl⟩ := hf.register_cases h hname
  have hpart := h.parts_wellFormed p hp
  intro r hr heq
  -- a register lies inside a part, where neither copied assigns nor connections drive it
  rcases List.mem_append.mp ((hf.driven_perm h).mem_iff.mp hr) with hr | hr
  · exact h.rename_ne hp (h.declares_own hr) inner heq.symm
  obtain ⟨q, hq, hr⟩ := List.mem_flatMap.mp hr
  obtain ⟨a, ha, hra⟩ := List.mem_flatMap.mp hr
  rcases List.mem_append.mp ha with ha | ha
  · obtain ⟨b, hb, rfl⟩ := List.mem_map.mp ha
    rw [hf.part_regions h hq hb] at hra
    obtain ⟨s, hs, rfl⟩ := List.mem_map.mp hra
    obtain rfl : q = p := h.eq_of_rename_eq hq hp heq
    exact hpart.clocked.undriven inner hinner s (List.mem_flatMap.mpr ⟨b, hb, hs⟩)
      (q.rename_injective heq)
  · obtain ⟨c, hc, ha⟩ := List.mem_flatMap.mp ha
    rcases hf.connection_regions h hq hc ha hra with ⟨hin, hrname⟩ | hr
    · obtain rfl : q = p := h.eq_of_rename_eq hq hp (hrname.symm.trans heq)
      have hport : c.1 = inner := q.rename_injective (hrname.symm.trans heq)
      exact hpart.unassigned c.1 hin (hport ▸ hinner)
    · obtain ⟨e, he, hre⟩ := List.mem_flatMap.mp hr
      exact h.rename_ne hp (h.mem_drivenBy hq hc he hre) inner heq.symm

/-- The processes of the flattened module can be run, and do not write each other's registers. -/
theorem Flattens.clocked (hf : Flattens m parts flat) (h : m.Assembled parts) :
    flat.circuit.Clocked where
  statements q hq := by
    obtain ⟨p, hp, s, hs, rfl⟩ := hf.process_cases h hq
    exact Statement.typedAll_renamed (hf.embeds_part h hp)
      ((h.parts_wellFormed p hp).clocked.statements s hs)
  exclusive := by
    have hperm : flat.circuit.processes.Perm (parts.flatMap Part.processes) := by
      have hprocesses := hf.processes
      rwa [h.stateless, List.nil_append] at hprocesses
    rw [hperm.pairwise_iff fun hxy name hy hx => hxy name hx hy, List.pairwise_flatMap]
    constructor
    · -- two processes of one part
      intro p hp
      refine List.pairwise_map.mpr
        ((h.parts_wellFormed p hp).clocked.exclusive.imp fun {s t} hst name hs ht => ?_)
      rw [Statement.assignedAll_renamed] at hs ht
      obtain ⟨a, ha, rfl⟩ := List.mem_map.mp hs
      obtain ⟨b, hb, heq⟩ := List.mem_map.mp ht
      exact hst a ha (p.rename_injective heq ▸ hb)
    · -- processes of two parts, whose names are kept apart
      refine h.separate.imp fun {p q} hpq s hs t ht name hname hname' => ?_
      obtain ⟨s, -, rfl⟩ := List.mem_map.mp hs
      obtain ⟨t, -, rfl⟩ := List.mem_map.mp ht
      rw [Statement.assignedAll_renamed] at hname hname'
      obtain ⟨a, -, rfl⟩ := List.mem_map.mp hname
      obtain ⟨b, -, heq⟩ := List.mem_map.mp hname'
      exact hpq.rename_ne a b heq.symm
  undriven _ hname := hf.undriven_register h hname

theorem Flattens.inputs_eq (hf : Flattens m parts flat) : flat.inputs = m.inputs := by
  rw [Module.inputs, hf.ports, Module.inputs]

/-- **A module assembled from well-formed parts is well formed once flattened.** -/
theorem Flattens.wellFormed (hf : Flattens m parts flat) (h : m.Assembled parts) :
    flat.WellFormed where
  distinct := hf.distinct h
  wired := hf.wired h
  clocked := hf.clocked h
  undriven name hname r hr heq := by
    rw [hf.inputs_eq] at hname
    rcases List.mem_append.mp ((hf.driven_perm h).mem_iff.mp hr) with hr | hr
    · exact h.undriven name hname r (List.mem_append_left _ hr) heq
    · obtain ⟨p, hp, hr⟩ := List.mem_flatMap.mp hr
      rcases hf.region_cases h hp hr with ⟨inner, hin⟩ | ⟨hr, -⟩
      · exact h.rename_ne hp (Module.declares_input hname) inner (hin.symm.trans heq)
      · exact h.undriven name hname r
          (List.mem_append_right _ (List.mem_flatMap.mpr ⟨p, hp, hr⟩)) heq
  unassigned name hname hregister := by
    rw [hf.inputs_eq] at hname
    obtain ⟨p, hp, inner, -, heq⟩ := hf.register_cases h hregister
    exact h.rename_ne hp (Module.declares_input hname) inner heq.symm

/-! ## Ranks -/

/-- Ranks outside and inside of a part fit together at its connections. -/
def Part.Ranked (p : Part) (own inner : String → Nat) : Prop :=
  (∀ c ∈ p.1.connections, c.1 ∈ p.2.inputs → ∀ e ∈ c.2, ∀ name ∈ e.reads, own name < inner c.1) ∧
    ∀ c ∈ p.1.connections, ∀ e ∈ p.drivenBy c, ∀ name ∈ e.reads, inner c.1 < own name

instance (p : Part) (own inner : String → Nat) : Decidable (p.Ranked own inner) :=
  inferInstanceAs (Decidable (_ ∧ _))

/-- Ranks that rise into inputs and out of outputs fit together. -/
theorem Part.ranked_of_ports {p : Part} (hd : (p.2.signals.map Prod.fst).Nodup)
    {own inner : String → Nat}
    (h : ∀ c ∈ p.1.connections, ∀ e ∈ c.2, ∀ q, p.2.port? c.1 = some q → ∀ name ∈ e.reads,
      match q.direction with
      | .input => own name < inner c.1
      | .output => inner c.1 < own name) : p.Ranked own inner := by
  constructor
  · intro c hc hin e he name hname
    obtain ⟨q, hq, hqname⟩ := List.mem_map.mp hin
    obtain ⟨hq, hdirection⟩ := List.mem_filter.mp hq
    have hport : p.2.port? c.1 = some q := by
      rw [← hqname]
      exact Module.port?_of_mem hd hq
    have hrank := h c hc e he q hport name hname
    rwa [of_decide_eq_true hdirection] at hrank
  · intro c hc e he name hname
    unfold Part.drivenBy at he
    split at he
    · rename_i q f hport hf
      cases hdirection : q.direction with
      | input => simp [hdirection] at he
      | output =>
          rw [hdirection, List.mem_singleton] at he
          have hrank := h c hc e (by rw [hf, he]; rfl) q hport name hname
          rwa [hdirection] at hrank
    · exact absurd he List.not_mem_nil

/-- Ranks of a module's own names and ranks inside of its parts ascend, and fit together. -/
structure Module.Ranked (m : Module) (parts : List Part) (own : String → Nat)
    (inner : Part → String → Nat) :
    Prop where
  assigns : ∀ a ∈ Item.drivesOf m.items, a.Ascends own
  within : ∀ p ∈ parts, p.2.circuit.Acyclic (inner p)
  connections : ∀ p ∈ parts, p.Ranked own (inner p)

open Classical in
/-- The rank of a name in the flattened module: that of the part it lies in, or the module's own. -/
noncomputable def Module.rankWith (parts : List Part) (own : String → Nat)
    (inner : Part → String → Nat) (name : String) : Nat :=
  if h : ∃ q : Part × String, q.1 ∈ parts ∧ q.1.rename q.2 = name then inner h.choose.1 h.choose.2
  else own name

/-- A signal inside of a part has the rank it has there. -/
theorem Module.Assembled.rankWith_part (h : m.Assembled parts) (own : String → Nat)
    (inner : Part → String → Nat) {p : Part} (hp : p ∈ parts) (name : String) :
    rankWith parts own inner (p.rename name) = inner p name := by
  have hex : ∃ q : Part × String, q.1 ∈ parts ∧ q.1.rename q.2 = p.rename name :=
    ⟨(p, name), hp, rfl⟩
  obtain ⟨hq, heq⟩ := hex.choose_spec
  -- no name lies in two parts, so the part that was chosen is this one
  have hpart : hex.choose.1 = p := h.eq_of_rename_eq hq hp heq
  rw [hpart] at heq
  rw [rankWith, dif_pos hex, hpart, p.rename_injective heq]

theorem Module.Assembled.rankWith_own (h : m.Assembled parts) (own : String → Nat)
    (inner : Part → String → Nat) {name : String} (hname : m.circuit.widths.Declares name) :
    rankWith parts own inner name = own name := by
  rw [rankWith, dif_neg]
  rintro ⟨q, hq, heq⟩
  exact h.rename_ne hq hname q.2 heq

/-- A flattened module does not depend on itself if ranks fit together. -/
theorem Flattens.exists_rank (hf : Flattens m parts flat) (h : m.Assembled parts)
    {own : String → Nat} {inner : Part → String → Nat} (hr : m.Ranked parts own inner) :
    ∃ rank, flat.circuit.Acyclic rank ∧ ∀ name, m.circuit.widths.Declares name →
      rank name = own name := by
  refine ⟨Module.rankWith parts own inner, fun a ha => ?_,
    fun name hname => h.rankWith_own own inner hname⟩
  -- the module's own assigns and copied ones ascend already; connections go between the
  -- two rankings
  rcases hf.assign_cases ha with ha | ⟨p, hp, b, hb, rfl⟩ | ⟨p, hp, c, hc, ha⟩
  · intro name hname target htarget
    rw [h.rankWith_own own inner (Expr.declares_reads (h.values a ha) name hname),
      h.rankWith_own own inner (Expr.declares_reads (h.targets a ha).typed target htarget)]
    exact hr.assigns a ha name hname target htarget
  · intro name hname target htarget
    rw [Assign.renamed, Expr.reads_renamed] at hname htarget
    obtain ⟨source, hsource, rfl⟩ := List.mem_map.mp hname
    obtain ⟨driven, hdriven, rfl⟩ := List.mem_map.mp htarget
    rw [h.rankWith_part own inner hp, h.rankWith_part own inner hp]
    exact hr.within p hp b hb source hsource driven hdriven
  · rcases Part.connection_cases ha with ⟨e, he, hin, rfl, -⟩ | ⟨e, port, he, -, rfl, hdriven⟩
    · intro name hname target htarget
      obtain rfl := List.mem_singleton.mp htarget
      rw [h.rankWith_part own inner hp,
        h.rankWith_own own inner (Expr.declares_reads (h.connected p hp c hc e he) name hname)]
      exact (hr.connections p hp).1 c hc hin e he name hname
    · intro name hname target htarget
      obtain rfl := List.mem_singleton.mp hname
      rw [h.rankWith_part own inner hp,
        h.rankWith_own own inner (Expr.declares_reads (h.connected p hp c hc e he) target htarget)]
      exact (hr.connections p hp).2 c hc e (by rw [hdriven]; exact List.mem_singleton_self e)
        target htarget

end

/-! ## Parts in behaviours -/

/-- The circuit contains a copy of another one, with signals renamed. -/
structure Circuit.Includes (c : Circuit) (f : String → String) (s : Circuit) : Prop where
  injective : Function.Injective f
  embeds : s.widths.Embeds f c.widths
  assigns : ∀ a ∈ s.assigns, a.renamed f ∈ c.assigns
  processes : ∀ p ∈ s.processes, Statement.renamedAll f p ∈ c.processes

namespace Circuit.Includes

variable {c s : Circuit} {f : String → String}

/-- Where a circuit has settled, so have the circuits in it. -/
theorem settled (hi : c.Includes f s) (hw : s.Wired) {x : State} (hx : c.Settled x) :
    s.Settled (x ∘ f) := by
  intro a ha
  have hholds := hx _ (hi.assigns a ha)
  unfold Assign.Holds Assign.renamed at hholds
  rw [Expr.value_renamed (Expr.reads_embed hi.embeds (hw.values a ha)),
    Expr.regions_renamed (Expr.reads_embed hi.embeds (hw.targets a ha).typed),
      Spread.renamed] at hholds
  exact hholds

theorem fits (hi : c.Includes f s) {x : State} (hx : c.widths.Fits x) : s.widths.Fits (x ∘ f) := by
  intro name hname
  obtain ⟨hdeclared, hwidth⟩ := hi.embeds name hname
  rw [← hwidth]
  exact hx (f name) hdeclared

theorem mem_registers (hi : c.Includes f s) {name : String} (hname : name ∈ s.registers) :
    f name ∈ c.registers := by
  obtain ⟨p, hp, hname⟩ := List.mem_flatMap.mp hname
  refine List.mem_flatMap.mpr ⟨_, hi.processes p hp, ?_⟩
  rw [Statement.assignedAll_renamed]
  exact List.mem_map_of_mem hname

/-- A register in an included circuit is scheduled to hold what it would hold there. -/
theorem next_eq (hi : c.Includes f s) (hs : s.Clocked) (hc : c.Clocked) {x : State} {name : String}
    (hname : name ∈ s.registers) : c.next x (f name) = s.next (x ∘ f) name := by
  obtain ⟨p, hp, hname⟩ := List.mem_flatMap.mp hname
  have hrenamed : f name ∈ Statement.assignedAll (Statement.renamedAll f p) := by
    rw [Statement.assignedAll_renamed]
    exact List.mem_map_of_mem hname
  rw [Circuit.next, Circuit.next,
    Statement.nextAll_flatten hc.exclusive (hi.processes p hp) hrenamed,
    Statement.nextAll_flatten hs.exclusive hp hname,
    Statement.nextAll_renamed hi.embeds hi.injective (hs.statements p hp)]
  rfl

/-- **The signals of a part show a behaviour of the part.** -/
theorem restrict (hi : c.Includes f s) (hw : s.Wired) (hs : s.Clocked) (hc : c.Clocked)
    {held : State} {states : List State} (h : c.Behaves held states) :
    s.Behaves (held ∘ f) (states.map (· ∘ f)) where
  settled := by
    intro y hy
    obtain ⟨x, hx, rfl⟩ := List.mem_map.mp hy
    exact hi.settled hw (h.settled x hx)
  fits := by
    intro y hy
    obtain ⟨x, hx, rfl⟩ := List.mem_map.mp hy
    exact hi.fits (h.fits x hx)
  start := by
    intro y hy name hname
    rw [List.head?_map] at hy
    obtain ⟨x, hx, rfl⟩ := Option.map_eq_some_iff.mp hy
    exact h.start x hx (f name) (hi.mem_registers hname)
  steps := by
    refine (List.isChain_map _).mpr (h.steps.imp fun x y hxy name hname => ?_)
    rw [← hi.next_eq hs hc hname]
    exact hxy (f name) (hi.mem_registers hname)

end Circuit.Includes

section

variable {m flat : Module} {parts : List Part}

/-- The flattened module contains each of its parts. -/
theorem Flattens.includes (hf : Flattens m parts flat) (h : m.Assembled parts) {p : Part}
    (hp : p ∈ parts) :
    flat.circuit.Includes p.rename p.2.circuit where
  injective := p.rename_injective
  embeds := hf.embeds_part h hp
  assigns a ha := by
    refine hf.assigns.mem_iff.mpr (List.mem_append_right _ (List.mem_flatMap.mpr ⟨p, hp, ?_⟩))
    exact List.mem_append_left _ (List.mem_map_of_mem ha)
  processes q hq := by
    refine hf.processes.mem_iff.mpr (List.mem_append_right _ (List.mem_flatMap.mpr ⟨p, hp, ?_⟩))
    exact List.mem_map_of_mem hq

/-- A behaviour of the whole is a behaviour of each part, seen through its names. -/
theorem Flattens.restrict (hf : Flattens m parts flat) (h : m.Assembled parts) {p : Part}
    (hp : p ∈ parts) {held : State} {states : List State} (hb : flat.circuit.Behaves held states) :
    p.2.circuit.Behaves (held ∘ p.rename) (states.map (· ∘ p.rename)) := by
  have hpart := h.parts_wellFormed p hp
  exact (hf.includes h hp).restrict hpart.wired hpart.clocked (hf.clocked h) hb

theorem Flattens.settled_part (hf : Flattens m parts flat) (h : m.Assembled parts) {p : Part}
    (hp : p ∈ parts) {x : State} (hx : flat.circuit.Settled x) :
    p.2.circuit.Settled (x ∘ p.rename) :=
  (hf.includes h hp).settled (h.parts_wellFormed p hp).wired hx

theorem Flattens.fits_part (hf : Flattens m parts flat) (h : m.Assembled parts) {p : Part}
    (hp : p ∈ parts) {x : State} (hx : flat.circuit.widths.Fits x) :
    p.2.circuit.widths.Fits (x ∘ p.rename) :=
  (hf.includes h hp).fits hx

/-- A step of the whole is a step of each part. -/
theorem Flattens.step_part (hf : Flattens m parts flat) (h : m.Assembled parts) {p : Part}
    (hp : p ∈ parts) {x y : State} (hxy : flat.circuit.Step x y) :
    p.2.circuit.Step (x ∘ p.rename) (y ∘ p.rename) where
  settled := hf.settled_part h hp hxy.settled
  fits := hf.fits_part h hp hxy.fits
  registers name hname := by
    have hi := hf.includes h hp
    rw [← hi.next_eq (h.parts_wellFormed p hp).clocked (hf.clocked h) hname]
    exact hxy.registers (p.rename name) (hi.mem_registers hname)

/-! ## Connections -/

theorem Flattens.value_own (hf : Flattens m parts flat) (h : m.Assembled parts) {e : Expr}
    (he : e.Typed m.circuit.widths) (x : State) :
    e.value flat.circuit.widths.width x = e.value m.circuit.widths.width x :=
  (hf.embeds_own h).value he x

/-- The assigns of the module itself hold in a settled state of the flattened one. -/
theorem Flattens.holds_own (hf : Flattens m parts flat) (h : m.Assembled parts) {x : State}
    (hx : flat.circuit.Settled x) {a : Assign} (ha : a ∈ Item.drivesOf m.items) :
    a.Holds m.circuit.widths.width x := by
  have hholds := hx a (hf.assigns.mem_iff.mpr (List.mem_append_left _ ha))
  unfold Assign.Holds at hholds ⊢
  rwa [hf.regions_own h (h.targets a ha).typed, hf.value_own h (h.values a ha)] at hholds

theorem Flattens.holds_connection (hf : Flattens m parts flat) {x : State}
    (hx : flat.circuit.Settled x) {p : Part} (hp : p ∈ parts) {c : String × Option Expr}
    (hc : c ∈ p.1.connections) {a : Assign} (ha : a ∈ p.connection c) :
    a.Holds flat.circuit.widths.width x := by
  refine hx a (hf.assigns.mem_iff.mpr (List.mem_append_right _ (List.mem_flatMap.mpr ⟨p, hp, ?_⟩)))
  exact List.mem_append_right _ (List.mem_flatMap.mpr ⟨c, hc, ha⟩)

theorem Spread.whole {state : State} {value : Word} {name : String} {width : Nat}
    (h : Spread state value 0 [⟨name, 0, width⟩]) : (state name).low width = value.low width := by
  refine BitVec.eq_of_getLsbD_eq fun i _ => ?_
  rw [Word.getLsbD_low, Word.getLsbD_low]
  by_cases hi : i < width
  · have hbit := h.1 i hi
    rw [Nat.zero_add] at hbit
    rw [hbit]
  · simp [hi]

theorem Flattens.port_width (h : m.Assembled parts) {p : Part} (hp : p ∈ parts) {port : String}
    {q : Port} (hq : p.2.port? port = some q) : p.2.circuit.widths.width port = q.width := by
  have hname : q.name = port := by simpa using List.find?_some hq
  refine Module.width_eq (h.parts_wellFormed p hp).distinct (List.mem_append_left _ ?_)
  rw [← hname]
  exact List.mem_map_of_mem (List.mem_of_find?_eq_some hq)

variable {x : State}

theorem Flattens.low_own (hf : Flattens m parts flat) (h : m.Assembled parts)
    (hfits : flat.circuit.widths.Fits x) {name : String} {width : Nat}
    (hmem : (name, width) ∈ m.signals) : (x name).low width = x name :=
  Module.low_of_fits (hf.distinct h) hfits (hf.signals.mem_iff.mpr (List.mem_append_left _ hmem))

/-- An input of a part has the value of what it is connected to. -/
theorem Flattens.input_eq (hf : Flattens m parts flat) (h : m.Assembled parts)
    (hx : flat.circuit.Settled x) (hfits : flat.circuit.widths.Fits x) {p : Part} (hp : p ∈ parts)
    {port : String} {e : Expr} (hc : (port, some e) ∈ p.1.connections) {q : Port}
    (hq : p.2.port? port = some q) (hin : q.direction = .input) :
    x (p.rename port) = (e.value m.circuit.widths.width x).low q.width := by
  have hassign : (⟨.ident (p.rename port), e⟩ : Assign) ∈ p.connection (port, some e) := by
    simp [Part.connection, hq, hin]
  obtain ⟨hdeclared, hwidth⟩ := hf.embeds_part h hp port (Part.mem_signals_of_port hq)
  have hholds := Spread.whole (hf.holds_connection hx hp hc hassign)
  dsimp only at hholds
  rwa [hfits _ hdeclared, hf.value_own h (h.connected p hp _ hc e rfl), hwidth,
    Flattens.port_width h hp hq] at hholds

/-- An input that is connected to a signal of its width has the value of that signal. -/
theorem Flattens.input_ident (hf : Flattens m parts flat) (h : m.Assembled parts)
    (hx : flat.circuit.Settled x) (hfits : flat.circuit.widths.Fits x) {p : Part} (hp : p ∈ parts)
    (port name : String) (hc : (port, some (.ident name)) ∈ p.1.connections) {q : Port}
    (hq : p.2.port? port = some q) (hin : q.direction = .input)
    (hwidth : m.circuit.widths.width name = q.width) :
    x (p.rename port) = x name := by
  have hname : m.circuit.widths.Declares name := h.connected p hp _ hc _ rfl
  obtain ⟨hdeclared, hflat⟩ := hf.embeds_own h name hname
  rw [hf.input_eq h hx hfits hp hc hq hin, ← hwidth, ← hflat]
  exact hfits name hdeclared

/-- What an output of a part is connected to has the value of the output. -/
theorem Flattens.output_spread (hf : Flattens m parts flat) (h : m.Assembled parts)
    (hx : flat.circuit.Settled x) {p : Part} (hp : p ∈ parts) {port : String} {e : Expr}
    (hc : (port, some e) ∈ p.1.connections) {q : Port} (hq : p.2.port? port = some q)
    (hout : q.direction = .output) :
    Spread x (x (p.rename port)) 0 (e.regions m.circuit.widths.width) := by
  have hassign : (⟨e, .ident (p.rename port)⟩ : Assign) ∈ p.connection (port, some e) := by
    simp [Part.connection, hq, hout]
  have hholds := hf.holds_connection hx hp hc hassign
  unfold Assign.Holds at hholds
  dsimp only at hholds
  rwa [hf.regions_own h (h.connected p hp _ hc e rfl)] at hholds

/-- A signal that an output of its width is connected to has the value of the output. -/
theorem Flattens.output_ident (hf : Flattens m parts flat) (h : m.Assembled parts)
    (hx : flat.circuit.Settled x) (hfits : flat.circuit.widths.Fits x) {p : Part} (hp : p ∈ parts)
    (port name : String) (hc : (port, some (.ident name)) ∈ p.1.connections) {q : Port}
    (hq : p.2.port? port = some q) (hout : q.direction = .output)
    (hwidth : m.circuit.widths.width name = q.width) :
    x name = x (p.rename port) := by
  have hname : m.circuit.widths.Declares name := h.connected p hp _ hc _ rfl
  obtain ⟨hdeclared, hflat⟩ := hf.embeds_own h name hname
  obtain ⟨hport, hpart⟩ := hf.embeds_part h hp port (Part.mem_signals_of_port hq)
  have hspread := Spread.whole (hf.output_spread h hx hp hc hq hout)
  rw [← hflat] at hspread
  rw [← hfits name hdeclared, ← hfits _ hport, hpart, Flattens.port_width h hp hq,
    ← hwidth, ← hflat]
  exact hspread

/-- A port and the whole signal at it are worth the same, whichever drives the other. -/
theorem Flattens.wire_eq (hf : Flattens m parts flat) (h : m.Assembled parts)
    (hx : flat.circuit.Settled x) (hfits : flat.circuit.widths.Fits x) {p : Part} (hp : p ∈ parts)
    {port name : String} (hc : (port, some (.ident name)) ∈ p.1.connections) {q : Port}
    (hq : p.2.port? port = some q) (hmem : (name, q.width) ∈ m.signals) :
    x (p.rename port) = x name := by
  have hwidth := Module.width_eq h.distinct hmem
  cases hdirection : q.direction with
  | input => exact hf.input_ident h hx hfits hp _ _ hc hq hdirection hwidth
  | output => exact (hf.output_ident h hx hfits hp _ _ hc hq hdirection hwidth).symm

end

/-! ## Assemblies given by lists of names -/

/-- Signals that are driven as a whole, each once, are driven apart. -/
theorem Region.apart_of_nodup {names : List String} (h : names.Nodup) (width : String → Nat) :
    (names.map fun name => (⟨name, 0, width name⟩ : Region)).Pairwise Region.Apart := by
  refine List.pairwise_map.mpr (h.imp fun hne heq => ?_)
  exact absurd heq hne

/-- Names inside of instances cannot be confused with each other, nor with names outside. -/
def KeptApart (instances names : List String) : Prop :=
  (instances.Pairwise fun a b =>
    ¬ (a ++ "__").toList <+: (b ++ "__").toList ∧ ¬ (b ++ "__").toList <+: (a ++ "__").toList) ∧
    ∀ i ∈ instances, ∀ name ∈ names, ¬ (i ++ "__").toList <+: name.toList

instance (instances names : List String) : Decidable (KeptApart instances names) :=
  inferInstanceAs (Decidable (_ ∧ _))

/-- Names that are kept apart make parts separate. -/
theorem KeptApart.separate {parts : List Part} {names : List String}
    (h : KeptApart (parts.map fun p => p.1.name) names) : parts.Pairwise Part.Separate :=
  (List.pairwise_map (f := fun p : Part => p.1.name)).mp h.1

theorem KeptApart.outside {parts : List Part} {names : List String}
    (h : KeptApart (parts.map fun p => p.1.name) names) :
    ∀ p ∈ parts, ∀ name ∈ names, ¬ p.start <+: name.toList :=
  fun _ hp name hname => h.2 _ (List.mem_map_of_mem hp) name hname

/-- A rank given by a table; names that are not in it have the lowest rank. -/
def rankIn (table : List (String × Nat)) (name : String) : Nat := (table.lookup name).getD 0

end Handshake
