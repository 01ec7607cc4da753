import Mathlib.Data.List.Induction
import Handshake.Proofs.Closure
import Handshake.Proofs.Items
import Handshake.Proofs.Outcome
import Handshake.Simulation.Flatten
import Handshake.Simulation.Simulator

/-!
# What a flattened module consists of

Flattening a module replaces each instance by a copy of the instantiated module,
with its signals renamed, and an assign for each connection. So, up to the order
in which things stand, a flattened module consists of what the module has itself
and of what its parts contribute (`Flattens`). Order does not matter to the laws
of a circuit, so this is all that needs to be known about flattening.

An artifact is flattened block by block, each with the flattened blocks before
it at hand. The second half of this module is about that: a block is found under
its name, since names are distinct, and blocks without instances are found as
they are (`Coherent.flatten_leaves`). External modules are not found at all, and
their instances are left out.
-/

namespace Handshake

/-- An assign with its signals renamed. -/
def Assign.renamed (f : String → String) (a : Assign) : Assign :=
  ⟨a.target.renamed f, a.value.renamed f⟩

/-! ## Renamed items -/

namespace Item

variable {f : String → String}

mutual
/-- A renamed item declares what it declared, under new names. -/
theorem decls_renamed : ∀ item : Item,
    (renamed f item).decls = item.decls.map fun d => { d with name := f d.name }
  | .declarations _ => rfl
  | .assigns _ | .inst _ | .always _ _ => rfl
  | .commented _ items => declsOf_renamed items
theorem declsOf_renamed : ∀ items : List Item,
    declsOf (renamedAll f items) = (declsOf items).map fun d => { d with name := f d.name }
  | [] => rfl
  | item :: rest => by simp [renamedAll, declsOf, decls_renamed item, declsOf_renamed rest]
end

mutual
theorem drives_renamed : ∀ item : Item, (renamed f item).drives = item.drives.map (Assign.renamed f)
  | .assigns _ => rfl
  | .declarations _ | .inst _ | .always _ _ => rfl
  | .commented _ items => drivesOf_renamed items
theorem drivesOf_renamed :
    ∀ items : List Item, drivesOf (renamedAll f items) = (drivesOf items).map (Assign.renamed f)
  | [] => rfl
  | item :: rest => by simp [renamedAll, drivesOf, drives_renamed item, drivesOf_renamed rest]
end

mutual
theorem processes_renamed : ∀ item : Item,
    (renamed f item).processes = item.processes.map (Statement.renamedAll f)
  | .always _ _ => rfl
  | .declarations _ | .inst _ | .assigns _ => rfl
  | .commented _ items => processesOf_renamed items
theorem processesOf_renamed : ∀ items : List Item,
    processesOf (renamedAll f items) = (processesOf items).map (Statement.renamedAll f)
  | [] => rfl
  | item :: rest => by
      simp [renamedAll, processesOf, processes_renamed item, processesOf_renamed rest]
end

end Item

/-! ## One instance -/

/-- A part of a module: an instance, and the flattened module that it stands for. -/
abbrev Part : Type := Instance × Module

namespace Part

/-- The name that a signal of the part gets. -/
def rename (p : Part) (signal : String) : String := p.1.signalName signal

/-- The assign of one connection; none for a port that is left open. -/
def connection (p : Part) (connection : String × Option Expr) : List Assign :=
  match p.2.port? connection.1, connection.2 with
  | some port, some value =>
    match port.direction with
    | .input => [⟨.ident (p.rename connection.1), value⟩]
    | .output => [⟨value, .ident (p.rename connection.1)⟩]
  | _, _ => []

/-- The signals that the part contributes. -/
def signals (p : Part) : List (String × Nat) := p.2.signals.map fun s => (p.rename s.1, s.2)

/-- The assigns that the part contributes: its own, and those of its connections. -/
def assigns (p : Part) : List Assign :=
  (Item.drivesOf p.2.items).map (Assign.renamed p.rename) ++ p.1.connections.flatMap p.connection

/-- The processes that the part contributes. -/
def processes (p : Part) : List (List Statement) :=
  (Item.processesOf p.2.items).map (Statement.renamedAll p.rename)

/-- A connection to a port that exists becomes an assign, in the direction of the port. -/
theorem connect_ok (p : Part) {c : String × Option Expr} (h : (p.2.port? c.1).isSome = true) :
    p.1.connect p.2 c = .ok (p.connection c) := by
  obtain ⟨port, hport⟩ := Option.isSome_iff_exists.mp h
  obtain ⟨name, value⟩ := c
  unfold Instance.connect connection
  rw [hport]
  cases value with
  | none => rfl
  | some e => cases hd : port.direction <;> simp [hd, rename]

theorem mapM_connect (p : Part) {cs : List (String × Option Expr)}
    (h : ∀ c ∈ cs, (p.2.port? c.1).isSome = true) :
    cs.mapM (p.1.connect p.2) = .ok (cs.map p.connection) := by
  induction cs with
  | nil => rfl
  | cons c rest ih =>
      obtain ⟨hc, hrest⟩ := List.forall_mem_cons.mp h
      rw [List.mapM_cons, p.connect_ok hc, ok_bind, ih hrest, ok_bind]
      rfl

/-- Inlining a part gives its contributions. -/
theorem inline_ok (p : Part) (h : ∀ c ∈ p.1.connections, (p.2.port? c.1).isSome = true) :
    ∃ items, p.1.inline p.2 = .ok items ∧
      (Item.declsOf items).map (fun d => (d.name, d.width)) = p.signals ∧
      Item.drivesOf items = p.assigns ∧ Item.processesOf items = p.processes := by
  refine ⟨Item.declarations (p.2.ports.map fun q => Decl.net q.width (p.1.signalName q.name)) ::
    Item.renamedAll p.1.signalName p.2.items ++
      [.assigns (p.1.connections.map p.connection).flatten], ?_, ?_, ?_, ?_⟩
  · rw [Instance.inline, p.mapM_connect h]
    rfl
  · simp [Item.declsOf, Item.decls, Item.declsOf_renamed, signals, Module.signals, Decl.net, rename,
      Function.comp_def]
  · simp only [List.cons_append, Item.drivesOf, Item.drives, Item.drivesOf_append,
      Item.drivesOf_renamed, assigns, List.nil_append, List.append_nil, List.flatMap_def]
    rfl
  · simp only [List.cons_append, Item.processesOf, Item.processes, Item.processesOf_append,
      Item.processesOf_renamed, processes, List.nil_append, List.append_nil]
    rfl

end Part

/-! ## All instances -/

/-- The parts among some instances: those whose module is in the table. -/
def partsOf (flat : FlatModules) (instances : List Instance) : List Part :=
  instances.filterMap fun i => ((flat.lookup i.moduleName).bind Except.toOption).map
    fun sub => (i, sub)

/--
An instance that flattening can deal with: its module is external, or it is in
the table and has the ports.
-/
def Resolvable (flat : FlatModules) (self : String) (i : Instance) : Prop :=
  i.moduleName ≠ self ∧
    (flat.lookup i.moduleName = none ∨
      ∃ sub, flat.lookup i.moduleName = some (.ok sub) ∧
        ∀ c ∈ i.connections, (sub.port? c.1).isSome = true)

/-- A flattened module, as far as circuits are concerned: the module itself and its parts. -/
structure Flattens (m : Module) (parts : List Part) (flat : Module) : Prop where
  ports : flat.ports = m.ports
  signals : flat.signals.Perm (m.signals ++ parts.flatMap Part.signals)
  assigns : (Item.drivesOf flat.items).Perm (Item.drivesOf m.items ++ parts.flatMap Part.assigns)
  processes : (Item.processesOf flat.items).Perm
    (Item.processesOf m.items ++ parts.flatMap Part.processes)

theorem perm_interleave {α : Type} {xs ys a b c d : List α} (hx : xs.Perm (a ++ b))
    (hy : ys.Perm (c ++ d)) : (xs ++ ys).Perm ((a ++ c) ++ (b ++ d)) := by
  refine (hx.append hy).trans ?_
  simp only [List.append_assoc]
  refine List.Perm.append_left a ?_
  rw [← List.append_assoc, ← List.append_assoc]
  exact List.Perm.append_right d List.perm_append_comm

namespace Item

/-- Items with their instances inlined, up to order. -/
structure Inlines (items : List Item) (parts : List Part) (inlined : List Item) : Prop where
  decls : ((declsOf inlined).map fun d => (d.name, d.width)).Perm
    ((declsOf items).map (fun d => (d.name, d.width)) ++ parts.flatMap Part.signals)
  drives : (drivesOf inlined).Perm (drivesOf items ++ parts.flatMap Part.assigns)
  processes : (processesOf inlined).Perm (processesOf items ++ parts.flatMap Part.processes)

variable {flat : FlatModules} {self : String}

mutual
/--
An item can be inlined if its instances can be resolved, and gives what it has
itself and what its parts contribute.
-/
theorem inlined_ok : ∀ item : Item, (∀ i ∈ item.instances, Resolvable flat self i) →
    ∃ items, inlined flat self item = .ok items ∧ Inlines [item] (partsOf flat item.instances) items
  | .declarations ds, _ => ⟨_, rfl, by constructor <;> simp [instances, partsOf]⟩
  | .assigns as, _ => ⟨_, rfl, by constructor <;> simp [instances, partsOf]⟩
  | .always event body, _ => ⟨_, rfl, by constructor <;> simp [instances, partsOf]⟩
  | .inst i, h => by
      obtain ⟨hself, hcases⟩ := h i (List.mem_singleton_self i)
      -- an instance of an external module stays, any other is replaced by its part
      rcases hcases with hnone | ⟨sub, hsub, hports⟩
      · refine ⟨[.inst i], by simp [inlined, hself, hnone], ?_⟩
        constructor <;> simp [instances, partsOf, hnone]
      · obtain ⟨items, hitems, hdecls, hdrives, hprocesses⟩ := Part.inline_ok (i, sub) hports
        refine ⟨items, ?_, ?_⟩
        · simp only [inlined, hself, if_false, hsub, ok_bind]
          exact hitems
        · constructor <;>
            simp [instances, partsOf, hsub, Except.toOption, hdecls, hdrives, hprocesses, declsOf,
              decls, drivesOf, drives, processesOf, processes]
  | .commented comment items, h => by
      obtain ⟨inner, hinner, hinlines⟩ := inlinedAll_ok items h
      refine ⟨[.commented comment inner], by simp [inlined, hinner], ?_⟩
      constructor
      · simpa [declsOf, Item.decls, instances] using hinlines.decls
      · simpa [drivesOf, Item.drives, instances] using hinlines.drives
      · simpa [processesOf, Item.processes, instances] using hinlines.processes
theorem inlinedAll_ok : ∀ items : List Item, (∀ i ∈ instancesOf items, Resolvable flat self i) →
    ∃ inlined, inlinedAll flat self items = .ok inlined ∧
      Inlines items (partsOf flat (instancesOf items)) inlined
  | [], _ => ⟨[], rfl, by constructor <;> simp [instancesOf, partsOf]⟩
  | item :: rest, h => by
      obtain ⟨first, hfirst, hfirst'⟩ := inlined_ok item fun i hi => h i (List.mem_append_left _ hi)
      obtain ⟨later, hlater, hlater'⟩ :=
        inlinedAll_ok rest fun i hi => h i (List.mem_append_right _ hi)
      refine ⟨first ++ later, by simp [inlinedAll, hfirst, hlater], ?_⟩
      have hparts : partsOf flat (instancesOf (item :: rest)) =
          partsOf flat item.instances ++ partsOf flat (instancesOf rest) := by
        simp [instancesOf, partsOf]
      -- on both sides the parts come last, so joining the two lists interleaves them
      rw [hparts]
      constructor
      · simpa [declsOf] using perm_interleave hfirst'.decls hlater'.decls
      · simpa [drivesOf] using perm_interleave hfirst'.drives hlater'.drives
      · simpa [processesOf] using perm_interleave hfirst'.processes hlater'.processes
end

end Item

/--
**Flattening a module whose instances can be resolved gives the module together
with its parts.**
-/
theorem Module.flatten_ok {flat : FlatModules} {m : Module}
    (h : ∀ i ∈ Item.instancesOf m.items, Resolvable flat m.name i) :
    ∃ m', m.flatten flat = .ok m' ∧ m'.name = m.name ∧
      Flattens m (partsOf flat (Item.instancesOf m.items)) m' := by
  obtain ⟨items, hitems, hinlines⟩ := Item.inlinedAll_ok m.items h
  refine ⟨{ m with items }, by simp [Module.flatten, hitems], rfl, rfl, ?_, hinlines.drives,
    hinlines.processes⟩
  simp only [Module.signals, List.append_assoc]
  exact List.Perm.append_left _ hinlines.decls

/-- The parts of a module are its instances of known modules, not those of external ones. -/
theorem partsOf_append {flat : FlatModules} {parts : List Part} {external : List Instance}
    (hparts : ∀ p ∈ parts, flat.lookup p.1.moduleName = some (.ok p.2))
    (hexternal : ∀ i ∈ external, flat.lookup i.moduleName = none) :
    partsOf flat (parts.map Prod.fst ++ external) = parts := by
  have hnone : partsOf flat external = [] := by
    refine List.filterMap_eq_nil_iff.mpr fun i hi => ?_
    rw [hexternal i hi]
    rfl
  have hsome : partsOf flat (parts.map Prod.fst) = parts := by
    induction parts with
    | nil => rfl
    | cons p rest ih =>
        obtain ⟨hp, hrest⟩ := List.forall_mem_cons.mp hparts
        have hfirst : ((flat.lookup p.1.moduleName).bind Except.toOption).map
            (fun sub => (p.1, sub)) = some p := by
          rw [hp]
          rfl
        rw [partsOf, List.map_cons, List.filterMap_cons, hfirst]
        exact congrArg (p :: ·) (ih hrest)
  rw [partsOf, List.filterMap_append]
  exact (congrArg₂ (· ++ ·) hsome hnone).trans (List.append_nil parts)

/--
Flattening a module whose instances are parts that stand in the table, and
instances of external modules.
-/
theorem Module.flatten_parts {flat : FlatModules} {m : Module} {parts : List Part}
    {external : List Instance}
    (hinstances : Item.instancesOf m.items = parts.map Prod.fst ++ external)
    (hself : ∀ i ∈ Item.instancesOf m.items, i.moduleName ≠ m.name)
    (hparts : ∀ p ∈ parts, flat.lookup p.1.moduleName = some (.ok p.2))
    (hports : ∀ p ∈ parts, ∀ c ∈ p.1.connections, (p.2.port? c.1).isSome = true)
    (hexternal : ∀ i ∈ external, flat.lookup i.moduleName = none) :
    ∃ m', m.flatten flat = .ok m' ∧ Flattens m parts m' := by
  have hresolvable : ∀ i ∈ Item.instancesOf m.items, Resolvable flat m.name i := by
    intro i hi
    refine ⟨hself i hi, ?_⟩
    rw [hinstances] at hi
    rcases List.mem_append.mp hi with hi | hi
    · obtain ⟨p, hp, rfl⟩ := List.mem_map.mp hi
      exact Or.inr ⟨p.2, hparts p hp, hports p hp⟩
    · exact Or.inl (hexternal i hi)
  obtain ⟨m', hflatten, -, hflattens⟩ := Module.flatten_ok hresolvable
  rw [hinstances, partsOf_append hparts hexternal] at hflattens
  exact ⟨m', hflatten, hflattens⟩

/-! ## Tables of flattened modules -/

namespace Item

variable {flat : FlatModules} {self : String}

mutual
theorem inlined_of_leaf : ∀ item : Item, item.instances = [] → inlined flat self item = .ok [item]
  | .declarations _, _ | .assigns _, _ | .always _ _, _ => rfl
  | .inst _, h => absurd h (List.cons_ne_nil _ _)
  | .commented comment items, h => by
      have hinner : inlinedAll flat self items = .ok items := inlinedAll_of_leaf items h
      simp [inlined, hinner]
/-- Without instances there is nothing to inline. -/
theorem inlinedAll_of_leaf :
    ∀ items : List Item, instancesOf items = [] → inlinedAll flat self items = .ok items
  | [], _ => rfl
  | item :: rest, h => by
      obtain ⟨hitem, hrest⟩ := List.append_eq_nil_iff.mp h
      simp [inlinedAll, inlined_of_leaf item hitem, inlinedAll_of_leaf rest hrest]
end

end Item

/-- A module without instances is its own flattening. -/
theorem Module.flatten_leaf {m : Module} (flat : FlatModules) (h : Item.instancesOf m.items = []) :
    m.flatten flat = .ok m := by
  rw [Module.flatten, Item.inlinedAll_of_leaf m.items h]
  rfl

namespace Artifact

/-- A block is flattened with all blocks before it. -/
theorem flatModules_concat (blocks : List Block) (b : Block) :
    flatModules (blocks ++ [b]) =
      flatModules blocks ++ [(b.identity, b.content.flatten (flatModules blocks))] := by
  rw [flatModules, List.foldl_append]
  rfl

theorem map_fst_flatModules (blocks : List Block) :
    (flatModules blocks).map Prod.fst = blocks.map Block.identity := by
  induction blocks using List.reverseRecOn with
  | nil => rfl
  | append_singleton blocks b ih =>
      rw [flatModules_concat, List.map_append, ih, List.map_append]; rfl

/-- No flattened module is found under the name of no block. -/
theorem lookup_flatModules_eq_none {blocks : List Block} {name : String}
    (h : name ∉ blocks.map Block.identity) : (flatModules blocks).lookup name = none := by
  rw [← map_fst_flatModules] at h
  refine List.lookup_eq_none_iff.mpr fun entry hentry => ?_
  simpa using fun heq : name = entry.1 => h (heq ▸ List.mem_map_of_mem hentry)

/--
In the table of distinct blocks, each block stands with its flattening over the
blocks before it.
-/
theorem lookup_flatModules {before after : List Block} {b : Block}
    (h : ((before ++ b :: after).map Block.identity).Nodup) :
    (flatModules (before ++ b :: after)).lookup b.identity =
      some (b.content.flatten (flatModules before)) := by
  induction after using List.reverseRecOn with
  | nil =>
      -- a lookup finds the first entry, so the name must not occur before it
      have hnew : b.identity ∉ before.map Block.identity := by
        rw [List.map_append, List.nodup_append] at h
        exact fun hmem => h.2.2 _ hmem b.identity (by simp) rfl
      rw [flatModules_concat, List.lookup_append, lookup_flatModules_eq_none hnew]
      simp
  | append_singleton after c ih =>
      have hsplit : before ++ b :: (after ++ [c]) = (before ++ b :: after) ++ [c] := by simp
      rw [hsplit, List.map_append, List.nodup_append] at h
      rw [hsplit, flatModules_concat, List.lookup_append, ih h.1]
      rfl

/-- A block without instances is found as it stands. -/
theorem lookup_leaf {blocks : List Block} (h : (blocks.map Block.identity).Nodup) {b : Block}
    (hb : b ∈ blocks) (hleaf : Item.instancesOf b.content.items = []) :
    (flatModules blocks).lookup b.identity = some (.ok b.content) := by
  obtain ⟨before, after, rfl⟩ := List.append_of_mem hb
  rw [lookup_flatModules h, Module.flatten_leaf _ hleaf]

theorem flatten_concat {a : Artifact} {before : List Block} {top : Block}
    (h : a.blocks = before ++ [top]) : a.flatten = top.content.flatten (flatModules before) := by
  rw [flatten, h, flatModules_concat, List.getLast?_concat]

/-- The top of an artifact stands in larger tables with the flattening of the artifact. -/
theorem lookup_top {sub : Artifact} {before after : List Block} {top : Block}
    (hsub : sub.blocks = before ++ [top]) (h : ((sub.blocks ++ after).map Block.identity).Nodup) :
    (flatModules (sub.blocks ++ after)).lookup top.identity = some sub.flatten := by
  rw [flatten_concat hsub]
  rw [hsub, List.append_assoc] at h ⊢
  exact lookup_flatModules h

/--
Flattening an artifact whose top only has parts without instances, and instances
of external modules.
-/
theorem Coherent.flatten_leaves {a : Artifact} (h : a.Coherent) {before : List Block} {m : Module}
    {latency : Nat} (hblocks : a.blocks = before ++ [⟨m, latency⟩]) {parts : List Part}
    {external : List Instance}
    (hinstances : Item.instancesOf m.items = parts.map Prod.fst ++ external)
    (hlisted : ∀ p ∈ parts, p.2 ∈ before.map Block.content)
    (hleaves : ∀ p ∈ parts, p.1.moduleName = p.2.name ∧ Item.instancesOf p.2.items = [])
    (hports : ∀ p ∈ parts, ∀ c ∈ p.1.connections, (p.2.port? c.1).isSome = true)
    (hexternal : ∀ i ∈ external, i.moduleName ∈ a.externals) :
    ∃ flat, a.flatten = .ok flat ∧ Flattens m parts flat := by
  have hdistinct := h.distinct
  rw [hblocks, List.map_append, List.nodup_append] at hdistinct
  obtain ⟨hbefore, -, hcross⟩ := hdistinct
  have hnew : ∀ i ∈ external, i.moduleName ∉ a.blocks.map Block.identity := by
    intro i hi hmem
    obtain ⟨b, hb, hname⟩ := List.mem_map.mp hmem
    exact h.apart b hb (hname ▸ hexternal i hi)
  rw [hblocks, List.map_append] at hnew
  have hfound : ∀ p ∈ parts, (flatModules before).lookup p.1.moduleName = some (.ok p.2) := by
    intro p hp
    obtain ⟨b, hb, hcontent⟩ := List.mem_map.mp (hlisted p hp)
    obtain ⟨hname, hleaf⟩ := hleaves p hp
    rw [hname, ← hcontent]
    exact lookup_leaf hbefore hb (hcontent ▸ hleaf)
  rw [flatten_concat hblocks]
  refine Module.flatten_parts hinstances (fun i hi => ?_) hfound hports fun i hi =>
    lookup_flatModules_eq_none fun hmem => hnew i hi (List.mem_append_left _ hmem)
  -- the top does not instantiate itself: its name is new, and no external
  rw [hinstances] at hi
  rcases List.mem_append.mp hi with hi | hi
  · obtain ⟨p, hp, rfl⟩ := List.mem_map.mp hi
    obtain ⟨b, hb, hcontent⟩ := List.mem_map.mp (hlisted p hp)
    have hname : b.identity = p.1.moduleName :=
      (congrArg Module.name hcontent).trans (hleaves p hp).1.symm
    exact hcross _ (List.mem_map.mpr ⟨b, hb, hname⟩) m.name (by simp [Block.identity])
  · exact fun heq => hnew i hi (List.mem_append_right _ (by simp [Block.identity, heq]))

end Artifact

end Handshake
