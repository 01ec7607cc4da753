import Handshake.Proofs.Composition
import Handshake.Proofs.Quiescence

/-!
# A module around an unknown part

A module has one instance, which stands after all its assigns, and connects it
properly; of what is inside the instance, only the ports are known. The
flattened module may then do anything inside of the instance: drive a bit twice,
or drive what should be an input. In a quiet state the module's own assigns hold
all the same, and so do the connections, since they come last: inputs of the
instance have the values of what they are connected to, and what the outputs are
connected to has theirs.
-/

namespace Handshake

/-- Items without instances come out in front as they are. -/
theorem Item.inlinedAll_append_leaf {flat : FlatModules} {self : String} {xs ys items : List Item}
    (hleaf : Item.instancesOf xs = []) (h : Item.inlinedAll flat self (xs ++ ys) = .ok items) :
    ∃ later, Item.inlinedAll flat self ys = .ok later ∧ items = xs ++ later := by
  induction xs generalizing items with
  | nil => exact ⟨items, h, rfl⟩
  | cons x xs ih =>
      obtain ⟨hx, hxs⟩ := List.append_eq_nil_iff.mp hleaf
      rw [List.cons_append, Item.inlinedAll, Item.inlined_of_leaf x hx, ok_bind] at h
      obtain ⟨rest, hrest, h⟩ := bind_ok h
      cases h
      obtain ⟨later, hlater, rfl⟩ := ih hxs hrest
      exact ⟨later, hlater, rfl⟩

/-- The flattened form of a module with one part, of which the assigns come last. -/
structure Encloses (m : Module) (p : Part) (flat : Module) : Prop where
  assigns : flat.circuit.assigns = Item.drivesOf m.items ++ p.assigns
  signals : flat.signals = m.signals ++ p.signals

/-- A module whose only instance comes last is flattened around that instance. -/
theorem Module.encloses {flat : FlatModules} {m m' : Module} {p : Part} {own : List Item}
    (hitems : m.items = own ++ [.inst p.1]) (hleaf : Item.instancesOf own = [])
    (hself : p.1.moduleName ≠ m.name) (hlookup : flat.lookup p.1.moduleName = some (.ok p.2))
    (hports : ∀ c ∈ p.1.connections, (p.2.port? c.1).isSome = true) (h : m.flatten flat = .ok m') :
    Encloses m p m' := by
  obtain ⟨items, hitems', h⟩ := bind_ok h
  cases h
  rw [hitems] at hitems'
  obtain ⟨later, hlater, rfl⟩ := Item.inlinedAll_append_leaf hleaf hitems'
  obtain ⟨inlined, hinlined, hdecls, hdrives, -⟩ := p.inline_ok hports
  have hone : later = inlined := by
    rw [Item.inlinedAll, Item.inlined, if_neg hself, hlookup] at hlater
    dsimp only at hlater
    rw [ok_bind, hinlined, ok_bind, Item.inlinedAll, ok_bind, List.append_nil] at hlater
    exact (Except.ok.inj hlater).symm
  subst hone
  constructor
  · show Item.drivesOf (own ++ later) = _
    rw [Item.drivesOf_append, hdrives, hitems, Item.drivesOf_append]
    simp [Item.drivesOf, Item.drives]
  · unfold Module.signals
    rw [Item.declsOf_append, List.map_append, hdecls, hitems, Item.declsOf_append]
    simp [Item.declsOf, Item.decls]

namespace Encloses

variable {m flat : Module} {p : Part} (h : Encloses m p flat)
include h

/-! ## Widths -/

theorem entries : flat.circuit.widths.entries = p.signals.reverse ++ m.signals.reverse := by
  show flat.signals.reverse = _
  rw [h.signals, List.reverse_append]

/-- The signals of the part keep their widths. -/
theorem embeds_part : p.2.circuit.widths.Embeds p.rename flat.circuit.widths := by
  intro name hname
  obtain ⟨width, hwidth⟩ := Option.isSome_iff_exists.mp hname
  unfold Widths.Declares Widths.width
  rw [h.entries, List.lookup_append, p.lookup_signals, hwidth]
  exact ⟨rfl, rfl⟩

variable (hc : m.Connected [p])
include hc

omit h in
theorem not_own {name : String} : ¬ m.circuit.widths.Declares (p.rename name) := fun hname =>
  hc.outside p List.mem_cons_self _ (Module.declares_iff.mp hname) (p.start_rename name)

/-- The signals of the module keep their widths, as the part has other names. -/
theorem embeds_own : m.circuit.widths.Embeds id flat.circuit.widths := by
  intro name hname
  have hnone : p.signals.reverse.lookup name = none := by
    refine List.lookup_eq_none_iff.mpr fun s hs => ?_
    obtain ⟨t, -, rfl⟩ := List.mem_map.mp (List.mem_reverse.mp hs)
    have hne : name ≠ p.rename t.1 := by
      rintro rfl
      exact not_own hc hname
    simpa using hne
  unfold Widths.Declares Widths.width
  rw [id, h.entries, List.lookup_append, hnone, Option.none_or]
  exact ⟨hname, rfl⟩

theorem width_own {name : String} (hname : m.circuit.widths.Declares name) :
    flat.circuit.widths.width name ≤ wordBits := by
  have hwidth : flat.circuit.widths.width name = m.circuit.widths.width name :=
    (h.embeds_own hc name hname).2
  rw [hwidth]
  exact Module.width_le hc.distinct hc.bounded name

/-! ## Drivers -/

omit h hc in
theorem region_own {e : Expr} (he : e.Typed m.circuit.widths) {width : String → Nat} {r : Region}
    (hr : r ∈ e.regions width) : m.circuit.widths.Declares r.name :=
  Expr.declares_reads he r.name (Expr.mem_reads_of_region r hr)

theorem spares_own {b : Assign} (hb : b.target.IsTarget m.circuit.widths) {r : Region}
    (hapart : ∀ s ∈ b.target.regions m.circuit.widths.width, r.Apart s) :
    b.Spares flat.circuit.widths r := by
  refine Or.inr ⟨hb.isRange, ?_⟩
  rwa [(h.embeds_own hc).regions hb.typed]

omit h in
/-- A connection drives an input of the part, or what the module connects to an output. -/
theorem connection_own {c : String × Option Expr} (hmem : c ∈ p.1.connections) {a : Assign}
    (ha : a ∈ p.connection c) :
    (∃ e, c.2 = some e ∧ a = ⟨.ident (p.rename c.1), e⟩) ∨
      (a.target.IsTarget m.circuit.widths ∧ ∀ r, r ∈ a.target.regions m.circuit.widths.width ↔
        r ∈ (p.drivenBy c).flatMap (Expr.regions m.circuit.widths.width)) := by
  rcases Part.connection_cases ha with ⟨e, he, -, rfl, -⟩ | ⟨e, port, he, -, rfl, hdriven⟩
  · exact Or.inl ⟨e, he, rfl⟩
  · refine Or.inr
      ⟨hc.outputs p List.mem_cons_self c hmem e
        (by rw [hdriven]; exact List.mem_singleton_self e), ?_⟩
    intro r
    rw [hdriven, List.flatMap_cons, List.flatMap_nil, List.append_nil]

omit h hc in
theorem connection_pairwise (c : String × Option Expr) (Q : Assign → Assign → Prop) :
    (p.connection c).Pairwise Q := by
  unfold Part.connection
  split
  · split
    · exact List.pairwise_singleton _ _
    · exact List.pairwise_singleton _ _
  · exact List.Pairwise.nil

omit h hc in
/-- What came from inside of the part writes to its own names only. -/
theorem renamed_reads {b : Assign}
    (hb : b ∈ (Item.drivesOf p.2.items).map (Assign.renamed p.rename)) :
    ∀ name ∈ b.target.reads, ∃ inner, name = p.rename inner := by
  obtain ⟨d, -, rfl⟩ := List.mem_map.mp hb
  intro name hname
  rw [show (d.renamed p.rename).target = d.target.renamed p.rename from rfl,
    Expr.reads_renamed] at hname
  obtain ⟨inner, -, rfl⟩ := List.mem_map.mp hname
  exact ⟨inner, rfl⟩

omit h in
/-- The regions that the module's assigns drive, then those that the part drives from outside. -/
theorem apart_own :
    ((Item.drivesOf m.items).flatMap (fun a => a.target.regions m.circuit.widths.width) ++
      p.1.connections.flatMap fun c =>
        (p.drivenBy c).flatMap (Expr.regions m.circuit.widths.width)).Pairwise Region.Apart := by
  have hapart := hc.apart
  rwa [Module.drivenWith, List.flatMap_cons, List.flatMap_nil, List.append_nil] at hapart

/-- Whatever drives a bit of the module's own signals, nothing after it does. -/
theorem clear : flat.circuit.assigns.Pairwise fun a b =>
    ∀ r ∈ a.target.regions flat.circuit.widths.width, m.circuit.widths.Declares r.name →
      b.Spares flat.circuit.widths r := by
  obtain ⟨hdrives, hconnections, hcross⟩ := List.pairwise_append.mp (apart_own hc)
  -- what writes inside of the part leaves the module's signals alone
  have hforeign : ∀ {b : Assign} {r : Region},
      (∀ name ∈ b.target.reads, ∃ inner, name = p.rename inner) →
      m.circuit.widths.Declares r.name → b.Spares flat.circuit.widths r := by
    intro b r hb hr
    refine Or.inl fun hmem => ?_
    obtain ⟨inner, heq⟩ := hb _ hmem
    exact not_own hc (heq ▸ hr)
  have hinput : ∀ (name : String) (e : Expr),
      ∀ other ∈ (⟨.ident (p.rename name), e⟩ : Assign).target.reads,
      ∃ inner, other = p.rename inner :=
        fun name e other hother => ⟨name, List.mem_singleton.mp hother⟩
  -- and drives none of them
  have hmissed : ∀ {a : Assign} {r : Region},
      (∀ name ∈ a.target.reads, ∃ inner, name = p.rename inner) →
      r ∈ a.target.regions flat.circuit.widths.width → ¬ m.circuit.widths.Declares r.name := by
    intro a r ha hr
    obtain ⟨inner, heq⟩ := ha _ (Expr.mem_reads_of_region r hr)
    rw [heq]
    exact not_own hc
  -- own assigns, then those from inside, then connections: all pairs of the three
  rw [h.assigns, Part.assigns]
  refine List.pairwise_append.mpr ⟨?_, List.pairwise_append.mpr ⟨?_, ?_, ?_⟩, ?_⟩
  · refine (List.pairwise_flatMap.mp hdrives).2.imp_of_mem fun {a b} ha hb hab r hr _ => ?_
    rw [(h.embeds_own hc).regions (hc.targets a ha).typed] at hr
    exact h.spares_own hc (hc.targets b hb) (hab r hr)
  · refine List.pairwise_of_forall_mem_list fun a ha b _ r hr hown => ?_
    exact absurd hown (hmissed (renamed_reads ha) hr)
  · refine List.pairwise_flatMap.mpr ⟨fun c _ => connection_pairwise c _, ?_⟩
    refine (List.pairwise_flatMap.mp hconnections).2.imp_of_mem
      fun {c c'} hmem hmem' hapart a ha b hb r hr hown => ?_
    rcases connection_own hc hmem ha with ⟨e, -, rfl⟩ | ⟨htarget, hregions⟩
    · exact absurd hown (hmissed (hinput _ e) hr)
    · rcases connection_own hc hmem' hb with ⟨e, -, rfl⟩ | ⟨htarget', hregions'⟩
      · exact hforeign (hinput _ e) hown
      · rw [(h.embeds_own hc).regions htarget.typed] at hr
        exact h.spares_own hc htarget' fun s hs =>
          hapart r ((hregions r).mp hr) s ((hregions' s).mp hs)
  · intro a ha b _ r hr hown
    exact absurd hown (hmissed (renamed_reads ha) hr)
  · intro a ha b hb r hr hown
    rcases List.mem_append.mp hb with hb | hb
    · exact hforeign (renamed_reads hb) hown
    · obtain ⟨c, hmem, hb⟩ := List.mem_flatMap.mp hb
      rcases connection_own hc hmem hb with ⟨e, -, rfl⟩ | ⟨htarget, hregions⟩
      · exact hforeign (hinput _ e) hown
      · rw [(h.embeds_own hc).regions (hc.targets a ha).typed] at hr
        refine h.spares_own hc htarget fun s hs => ?_
        exact hcross r (List.mem_flatMap.mpr ⟨a, ha, hr⟩) s
          (List.mem_flatMap.mpr ⟨c, hmem, (hregions s).mp hs⟩)

theorem clean : ∀ a ∈ flat.circuit.assigns,
    (∀ name ∈ a.target.reads, ¬ m.circuit.widths.Declares name) ∨
    a.target.IsRange := by
  intro a ha
  rw [h.assigns] at ha
  rcases List.mem_append.mp ha with ha | ha
  · exact Or.inr (hc.targets a ha).isRange
  · rcases List.mem_append.mp ha with ha | ha
    · refine Or.inl fun name hname => ?_
      obtain ⟨inner, rfl⟩ := renamed_reads ha name hname
      exact not_own hc
    · obtain ⟨c, hmem, ha⟩ := List.mem_flatMap.mp ha
      rcases connection_own hc hmem ha with ⟨e, -, rfl⟩ | ⟨htarget, -⟩
      · refine Or.inl fun name hname => ?_
        rw [List.mem_singleton.mp hname]
        exact not_own hc
      · exact Or.inr htarget.isRange

/-! ## Quiet states -/

section Quiet

variable {v : Valuation} (hv : v.Tidy flat.circuit.widths) (hpass : flat.circuit.pass v = .ok v)
include hv hpass

/-- Halfway through a quiet pass, what the module's own expressions read is as it was before. -/
theorem steady {before after : List Assign} (hsplit : flat.circuit.assigns = before ++ after)
    {e : Expr} (he : e.Typed m.circuit.widths) (u : Valuation)
    (hu : before.foldlM flat.circuit.assign v = .ok u) :
    ∀ name ∈ e.reads, u.get name = v.get name := fun name hname =>
  Circuit.steady_of_quiet hv hpass (h.clear hc) (h.clean hc) hsplit hu name
    (Expr.declares_reads he name hname)

/-- **The module's own assigns hold.** -/
theorem holds_own {a : Assign} (ha : a ∈ Item.drivesOf m.items) :
    a.Holds m.circuit.widths.width v.get := by
  obtain ⟨before, after, hsplit⟩ := List.append_of_mem ha
  have hassigns : flat.circuit.assigns = before ++ a :: (after ++ p.assigns) := by
    rw [h.assigns, hsplit, List.append_assoc, List.cons_append]
  have htarget := hc.targets a ha
  have hclear := h.clear hc
  rw [hassigns] at hclear
  have hspares := (List.pairwise_cons.mp (List.pairwise_append.mp hclear).2.1).1
  have hregions := (h.embeds_own hc).regions htarget.typed
  have hholds : a.Holds flat.circuit.widths.width v.get := by
    refine Circuit.holds_of_quiet hassigns hv hpass ((h.embeds_own hc).typed (hc.values a ha))
      ((h.embeds_own hc).isTarget htarget) ?_ ?_ (h.steady hc hv hpass hassigns (hc.values a ha)) ?_
    · exact fun name hname => h.width_own hc (Expr.declares_reads htarget.typed name hname)
    · rw [hregions]
      exact (List.pairwise_flatMap.mp (List.pairwise_append.mp (apart_own hc)).1).1 a ha
    · exact fun r hr b hb => hspares b hb r hr (region_own htarget.typed hr)
  unfold Assign.Holds at hholds ⊢
  rwa [hregions, (h.embeds_own hc).value (hc.values a ha)] at hholds

omit hv hpass h in
/-- The connections after that of a port write neither to it nor to anything else of that name. -/
theorem later_connections {before after : List (String × Option Expr)} {port : String} {e : Expr}
    (hsplit : p.1.connections = before ++ (port, some e) :: after) :
    ∀ b ∈ after.flatMap p.connection, p.rename port ∉ b.target.reads := by
  have honce := hc.once p List.mem_cons_self
  rw [hsplit, List.map_append, List.map_cons] at honce
  have hlater := (List.nodup_cons.mp (List.nodup_append.mp honce).2.1).1
  intro b hb hmem
  obtain ⟨c, hafter, hb⟩ := List.mem_flatMap.mp hb
  have hconnection : c ∈ p.1.connections := by
    rw [hsplit]
    exact List.mem_append_right _ (List.mem_cons_of_mem _ hafter)
  rcases connection_own hc hconnection hb with ⟨e', -, rfl⟩ | ⟨htarget, -⟩
  · have hsame := p.rename_injective (List.mem_singleton.mp hmem)
    exact hlater (List.mem_map.mpr ⟨c, hafter, hsame.symm⟩)
  · exact not_own hc (Expr.declares_reads htarget.typed _ hmem)

omit hc hv hpass in
theorem split_connection {before after : List (String × Option Expr)} {c : String × Option Expr}
    (hsplit : p.1.connections = before ++ c :: after) {a : Assign} (ha : p.connection c = [a]) :
    flat.circuit.assigns =
      (Item.drivesOf m.items ++ ((Item.drivesOf p.2.items).map (Assign.renamed p.rename) ++
        before.flatMap p.connection)) ++ a :: after.flatMap p.connection := by
  rw [h.assigns, Part.assigns, hsplit, List.flatMap_append, List.flatMap_cons, ha]
  simp

variable {port : String} {e : Expr} {q : Port}

/-- **An input of the part has the value that it is connected to,** cut to its width. -/
theorem input_value (hmem : (port, some e) ∈ p.1.connections) (hq : p.2.port? port = some q)
    (hin : q.direction = .input) (hwidth : p.2.circuit.widths.width port ≤ wordBits) :
    v.get (p.rename port) = (e.value m.circuit.widths.width v.get).low
      (p.2.circuit.widths.width port) := by
  obtain ⟨before, after, hsplit⟩ := List.append_of_mem hmem
  have hconnection : p.connection (port, some e) = [⟨.ident (p.rename port), e⟩] := by
    unfold Part.connection
    simp [hq, hin]
  have hassigns := h.split_connection hsplit hconnection
  have htyped : e.Typed m.circuit.widths := hc.connected p List.mem_cons_self _ hmem e rfl
  obtain ⟨hdeclared, hport⟩ := h.embeds_part port (Part.mem_signals_of_port hq)
  have hholds : (⟨.ident (p.rename port), e⟩ : Assign).Holds flat.circuit.widths.width v.get := by
    refine Circuit.holds_of_quiet hassigns hv hpass ((h.embeds_own hc).typed htyped) hdeclared ?_
      (List.pairwise_singleton _ _) (h.steady hc hv hpass hassigns htyped) ?_
    · intro name hname
      rw [List.mem_singleton.mp hname, hport]
      exact hwidth
    · intro r hr b hb
      rw [List.mem_singleton.mp hr]
      exact Or.inl (later_connections hc hsplit b hb)
  have hspread := Spread.whole hholds
  rw [hv.fits, hport, (h.embeds_own hc).value htyped] at hspread
  exact hspread

/-- **What an output of the part is connected to has the value of the output.** -/
theorem output_spread (hmem : (port, some e) ∈ p.1.connections) (hq : p.2.port? port = some q)
    (hout : q.direction = .output) :
    Spread v.get (v.get (p.rename port)) 0 (e.regions m.circuit.widths.width) := by
  obtain ⟨before, after, hsplit⟩ := List.append_of_mem hmem
  have hconnection : p.connection (port, some e) = [⟨e, .ident (p.rename port)⟩] := by
    unfold Part.connection
    simp [hq, hout]
  have hdriven : p.drivenBy (port, some e) = [e] := by
    unfold Part.drivenBy
    simp [hq, hout]
  have hassigns := h.split_connection hsplit hconnection
  have htarget : e.IsTarget m.circuit.widths :=
    hc.outputs p List.mem_cons_self _ hmem e (by rw [hdriven]; exact List.mem_singleton_self e)
  have hclear := h.clear hc
  rw [hassigns] at hclear
  have hspares := (List.pairwise_cons.mp (List.pairwise_append.mp hclear).2.1).1
  have hholds : (⟨e, .ident (p.rename port)⟩ : Assign).Holds flat.circuit.widths.width v.get := by
    refine Circuit.holds_of_quiet hassigns hv hpass
      (h.embeds_part port (Part.mem_signals_of_port hq)).1
      ((h.embeds_own hc).isTarget htarget) ?_ ?_ ?_ ?_
    · exact fun name hname => h.width_own hc (Expr.declares_reads htarget.typed name hname)
    · have hconnections := (List.pairwise_append.mp (apart_own hc)).2.1
      have hone := (List.pairwise_flatMap.mp hconnections).1 _ hmem
      rw [hdriven, List.flatMap_cons, List.flatMap_nil, List.append_nil] at hone
      rwa [(h.embeds_own hc).regions htarget.typed]
    · -- the output was written inside the part, before any connection
      intro u hu name hname
      rw [List.mem_singleton.mp hname]
      refine Circuit.stable_of_quiet hassigns hpass (fun hwritten => ?_) hu
      rcases List.mem_append.mp hwritten with hwritten | hwritten
      · exact not_own hc (Expr.declares_reads htarget.typed _ hwritten)
      · obtain ⟨b, hb, hwritten⟩ := List.mem_flatMap.mp hwritten
        exact later_connections hc hsplit b hb hwritten
    · exact fun r hr b hb => hspares b hb r hr (region_own htarget.typed hr)
  unfold Assign.Holds at hholds
  dsimp only at hholds
  rwa [(h.embeds_own hc).regions htarget.typed] at hholds

/-- An input of the part has the value of the signal it is connected to. -/
theorem input_ident {name : String} (hmem : (port, some (.ident name)) ∈ p.1.connections)
    (hq : p.2.port? port = some q) (hin : q.direction = .input)
    (hport : p.2.circuit.widths.width port = m.circuit.widths.width name) :
    v.get (p.rename port) = v.get name := by
  have hname : m.circuit.widths.Declares name := hc.connected p List.mem_cons_self _ hmem _ rfl
  have hwidth : flat.circuit.widths.width name = m.circuit.widths.width name :=
    (h.embeds_own hc name hname).2
  rw [h.input_value hc hv hpass hmem hq hin (hport ▸ Module.width_le hc.distinct hc.bounded name),
    hport, ← hwidth]
  exact hv.fits name

/-- A signal that an output of the part is connected to has the value of the output. -/
theorem output_ident {name : String} (hmem : (port, some (.ident name)) ∈ p.1.connections)
    (hq : p.2.port? port = some q) (hout : q.direction = .output)
    (hport : p.2.circuit.widths.width port = m.circuit.widths.width name) :
    v.get name = v.get (p.rename port) := by
  have hname : m.circuit.widths.Declares name := hc.connected p List.mem_cons_self _ hmem _ rfl
  have hown : flat.circuit.widths.width name = m.circuit.widths.width name :=
    (h.embeds_own hc name hname).2
  have hpart := (h.embeds_part port (Part.mem_signals_of_port hq)).2
  have hspread := Spread.whole (h.output_spread hc hv hpass hmem hq hout)
  rw [← hown, hv.fits, hown, ← hport, ← hpart, hv.fits] at hspread
  exact hspread

end Quiet

end Encloses

end Handshake
