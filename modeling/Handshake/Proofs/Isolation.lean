import Handshake.Proofs.Composition
import Handshake.Proofs.Hosting

/-!
# An instance in a flattened module

Flattening puts a copy of the instantiated module where the instance stood, with
the instance's name in front of every signal. If no other name of the flattened
module begins like that, then nothing but the connections of the instance
reaches into the copy, and these write to its inputs only: the flattened module
hosts the part (`Module.flatten_hosts`), and the instance behaves as its module
does alone.

This holds of any module that can be flattened, not just of generated ones. The
proof follows the flattening: items are inlined one after the other, one of them
is the instance in question, and all the others declare and write names that do
not begin like those of the copy (`Within`). What is left is the copy in the
middle, and on both sides items that stay out of it (`Surrounds`).

The condition on names is needed. At the end there is a module whose port is
named like a signal inside of its instance, and which thereby changes what the
instance does.
-/

namespace Handshake

/-! ## Names -/

namespace Statement

mutual
/-- The names that occur in a statement. -/
def names : Statement → List String
  | .branch test onTrue onFalse => test.names ++ (namesAll onTrue ++ namesAll onFalse)
  | .nonblocking target value => target.names ++ value.names
/-- The names that occur in some statements. -/
def namesAll : List Statement → List String
  | [] => []
  | s :: rest => names s ++ namesAll rest
end

mutual
/-- What a statement may write to is among its names. -/
theorem assigned_subset_names : ∀ (s : Statement), ∀ name ∈ s.assigned, name ∈ s.names
  | .branch _ onTrue onFalse, name, h => by
      refine List.mem_append_right _ (List.mem_append.mpr ?_)
      exact (List.mem_append.mp h).imp (assignedAll_subset_names onTrue name)
        (assignedAll_subset_names onFalse name)
  | .nonblocking target _, name, h => List.mem_append_left _ (target.reads_subset_names name h)
theorem assignedAll_subset_names :
    ∀ (ss : List Statement), ∀ name ∈ assignedAll ss, name ∈ namesAll ss
  | [], _, h => h
  | s :: rest, name, h => by
      refine List.mem_append.mpr ?_
      exact (List.mem_append.mp h).imp (assigned_subset_names s name)
        (assignedAll_subset_names rest name)
end

end Statement

/-- The names that occur in what an instance is connected to. -/
def Instance.names (i : Instance) : List String :=
  i.connections.flatMap fun c => c.2.elim [] Expr.names

namespace Item

mutual
/-- The names of signals that occur in an item. -/
def names : Item → List String
  | .declarations ds => ds.map Decl.name
  | .assigns xs => xs.flatMap fun a => a.target.names ++ a.value.names
  | .inst i => i.names
  | .always _ body => Statement.namesAll body
  | .commented _ items => namesOf items
/-- The names of signals that occur in some items. -/
def namesOf : List Item → List String
  | [] => []
  | item :: rest => item.names ++ namesOf rest
end

mutual
/-- The names of an instance are names of the item it stands in. -/
theorem names_of_instance :
    ∀ {item : Item}, ∀ i ∈ item.instances, ∀ name ∈ i.names, name ∈ item.names
  | .inst _, _, hi, _, hname => List.mem_singleton.mp hi ▸ hname
  | .commented _ items, i, hi, name, hname => show name ∈ namesOf items
      from namesOf_instance i hi name hname
  | .declarations _, _, hi, _, _ | .assigns _, _, hi, _, _ | .always _ _, _, hi, _, _ =>
      absurd hi List.not_mem_nil
theorem namesOf_instance :
    ∀ {items : List Item}, ∀ i ∈ instancesOf items, ∀ name ∈ i.names, name ∈ namesOf items
  | [], _, hi, _, _ => absurd hi List.not_mem_nil
  | item :: rest, i, hi, name, hname => by
      refine List.mem_append.mpr ((List.mem_append.mp hi).imp ?_ ?_)
      · exact fun hi => names_of_instance i hi name hname
      · exact fun hi => namesOf_instance i hi name hname
end

/-- Items that declare and write to signals of certain names only. -/
structure Within (P : String → Prop) (items : List Item) : Prop where
  decls : ∀ d ∈ declsOf items, P d.name
  drives : ∀ a ∈ drivesOf items, ∀ name ∈ a.target.reads, P name
  processes : ∀ body ∈ processesOf items, ∀ name ∈ Statement.assignedAll body, P name

variable {P : String → Prop}

theorem Within.nil : Within P [] where
  decls := by simp [declsOf]
  drives := by simp [drivesOf]
  processes := by simp [processesOf]

theorem Within.append {xs ys : List Item} (hx : Within P xs) (hy : Within P ys) :
    Within P (xs ++ ys) where
  decls d h := by
    rw [declsOf_append] at h
    exact (List.mem_append.mp h).elim (hx.decls d) (hy.decls d)
  drives a h := by
    rw [drivesOf_append] at h
    exact (List.mem_append.mp h).elim (hx.drives a) (hy.drives a)
  processes body h := by
    rw [processesOf_append] at h
    exact (List.mem_append.mp h).elim (hx.processes body) (hy.processes body)

theorem Within.commented {comment : String} {items : List Item} (h : Within P items) :
    Within P [.commented comment items] where
  decls d hd := h.decls d (by simpa [declsOf, Item.decls] using hd)
  drives a ha := h.drives a (by simpa [drivesOf, Item.drives] using ha)
  processes body hb := h.processes body (by simpa [processesOf, Item.processes] using hb)

mutual
/-- Items keep to the names that occur in them. -/
theorem within_names : ∀ item : Item, (∀ name ∈ item.names, P name) → Within P [item]
  | .declarations ds, h =>
      { decls := fun d hd => h d.name (List.mem_map_of_mem (by simpa [declsOf, decls] using hd))
        drives := by simp [drivesOf, drives]
        processes := by simp [processesOf, processes] }
  | .assigns xs, h =>
      { decls := by simp [declsOf, decls]
        drives := by
          intro a ha name hname
          have hmem : a ∈ xs := by simpa [drivesOf, drives] using ha
          exact h name (List.mem_flatMap.mpr
            ⟨a, hmem, List.mem_append_left _ (a.target.reads_subset_names name hname)⟩)
        processes := by simp [processesOf, processes] }
  | .inst i, h =>
      { decls := by simp [declsOf, decls]
        drives := by simp [drivesOf, drives]
        processes := by simp [processesOf, processes] }
  | .always event body, h =>
      { decls := by simp [declsOf, decls]
        drives := by simp [drivesOf, drives]
        processes := by
          intro body' hbody name hname
          have hsame : body' = body := by simpa [processesOf, processes] using hbody
          exact h name (Statement.assignedAll_subset_names body name (hsame ▸ hname)) }
  | .commented comment items, h => (withinAll_names items h).commented
theorem withinAll_names : ∀ items : List Item, (∀ name ∈ namesOf items, P name) → Within P items
  | [], _ => .nil
  | item :: rest, h =>
      (within_names item fun name hname => h name (List.mem_append_left _ hname)).append
        (withinAll_names rest fun name hname => h name (List.mem_append_right _ hname))
end

end Item

/-- The names of signals that occur in a module. -/
def Module.names (m : Module) : List String := m.ports.map Port.name ++ Item.namesOf m.items

/-! ## Parts -/

namespace Part

variable {p : Part}

/-- An instance can only be inlined if the ports that it connects are there. -/
theorem ports_of_inline {block : List Item} (h : p.1.inline p.2 = .ok block) :
    ∀ c ∈ p.1.connections, (p.2.port? c.1).isSome = true := by
  obtain ⟨connected, hconnected, -⟩ := bind_ok h
  generalize p.1.connections = cs at hconnected
  induction cs generalizing connected with
  | nil => simp
  | cons c rest ih =>
      rw [List.mapM_cons] at hconnected
      obtain ⟨first, hfirst, hconnected⟩ := bind_ok hconnected
      obtain ⟨later, hlater, -⟩ := bind_ok hconnected
      refine List.forall_mem_cons.mpr ⟨?_, ih later hlater⟩
      cases hport : p.2.port? c.1 with
      | none =>
          rw [Instance.connect, hport] at hfirst
          exact absurd hfirst (by simp)
      | some port => rfl

/--
Inlining a part gives its signals, its assigns together with its connections,
and its processes.
-/
theorem inline_eq {block : List Item} (h : p.1.inline p.2 = .ok block) :
    (Item.declsOf block).map (fun d => (d.name, d.width)) = p.signals ∧
      Item.drivesOf block = p.assigns ∧
      Item.processesOf block = p.processes := by
  obtain ⟨items, hitems, hcontributed⟩ := p.inline_ok (ports_of_inline h)
  obtain rfl : items = block := Except.ok.inj (hitems.symm.trans h)
  exact hcontributed

theorem mem_names_of_input {name : String} (h : name ∈ p.2.inputs) : name ∈ p.2.names := by
  obtain ⟨port, hport, rfl⟩ := List.mem_map.mp h
  exact List.mem_append_left _ (List.mem_map_of_mem (List.mem_filter.mp hport).1)

/-- What an inlined part declares and writes to are its own signals and what it is connected to. -/
theorem within_inline {P : String → Prop} {block : List Item} (h : p.1.inline p.2 = .ok block)
    (hconnected : ∀ name ∈ p.1.names, P name) (hown : ∀ name ∈ p.2.names, P (p.rename name)) :
    Item.Within P block := by
  obtain ⟨hdecls, hdrives, hprocesses⟩ := inline_eq h
  have hitems : Item.Within (fun name => P (p.rename name)) p.2.items :=
    Item.withinAll_names _ fun name hname => hown name (List.mem_append_right _ hname)
  constructor
  · -- ports and signals are declared under their new names
    intro d hd
    have hmem : (d.name, d.width) ∈ p.signals := hdecls ▸ List.mem_map.mpr ⟨d, hd, rfl⟩
    obtain ⟨s, hs, heq⟩ := List.mem_map.mp hmem
    have hname : p.rename s.1 = d.name := congrArg Prod.fst heq
    rw [← hname]
    rcases List.mem_append.mp hs with hs | hs
    · obtain ⟨port, hport, rfl⟩ := List.mem_map.mp hs
      exact hown _ (List.mem_append_left _ (List.mem_map_of_mem hport))
    · obtain ⟨inner, hinner, rfl⟩ := List.mem_map.mp hs
      exact hitems.decls inner hinner
  · -- own assigns write to own signals, and connections to an input or to what an output is at
    intro a ha name hname
    rw [hdrives] at ha
    rcases List.mem_append.mp ha with ha | ha
    · obtain ⟨b, hb, rfl⟩ := List.mem_map.mp ha
      rw [Assign.renamed, Expr.reads_renamed] at hname
      obtain ⟨inner, hinner, rfl⟩ := List.mem_map.mp hname
      exact hitems.drives b hb inner hinner
    · obtain ⟨c, hc, ha⟩ := List.mem_flatMap.mp ha
      rcases connection_cases ha with ⟨e, -, hinput, rfl, -⟩ | ⟨e, port, he, -, rfl, -⟩
      · rw [List.mem_singleton.mp hname]
        exact hown _ (mem_names_of_input hinput)
      · refine hconnected name (List.mem_flatMap.mpr ⟨c, hc, ?_⟩)
        rw [he]
        exact e.reads_subset_names name hname
  · intro body hbody name hname
    rw [hprocesses] at hbody
    obtain ⟨inner, hinner, rfl⟩ := List.mem_map.mp hbody
    rw [Statement.assignedAll_renamed] at hname
    obtain ⟨inner', hinner', rfl⟩ := List.mem_map.mp hname
    exact hitems.processes inner hinner inner' hinner'

end Part

/-! ## Inlined items -/

namespace Item

variable {P : String → Prop} {flat : FlatModules} {self : String}

mutual
/-- Inlining keeps to names that hold both of the items and of all copies put into them. -/
theorem within_inlined : ∀ (item : Item) {out : List Item}, inlined flat self item = .ok out →
    (∀ name ∈ item.names, P name) →
    (∀ q : Part, q.1 ∈ item.instances → flat.lookup q.1.moduleName = some (.ok q.2) →
      ∀ name ∈ q.2.names, P (q.rename name)) → Within P out
  | .declarations ds, out, h, hnames, _ => by
      cases h
      exact within_names _ hnames
  | .assigns xs, out, h, hnames, _ => by
      cases h
      exact within_names _ hnames
  | .always event body, out, h, hnames, _ => by
      cases h
      exact within_names _ hnames
  | .commented comment items, out, h, hnames, hparts => by
      obtain ⟨inner, hinner, h⟩ := bind_ok h
      cases h
      exact (withinAll_inlined items hinner hnames hparts).commented
  | .inst i, out, h, hnames, hparts => by
      rw [inlined] at h
      split at h
      · exact absurd h (by simp)
      · split at h
        · rename_i sub hsub
          obtain ⟨m, rfl, h⟩ := bind_ok h
          exact Part.within_inline (p := (i, m)) h hnames
            (hparts (i, m) (List.mem_singleton_self i) hsub)
        · cases h
          exact within_names _ hnames
theorem withinAll_inlined :
    ∀ (items : List Item) {out : List Item}, inlinedAll flat self items = .ok out →
    (∀ name ∈ namesOf items, P name) →
    (∀ q : Part, q.1 ∈ instancesOf items → flat.lookup q.1.moduleName = some (.ok q.2) →
      ∀ name ∈ q.2.names, P (q.rename name)) → Within P out
  | [], out, h, _, _ => by
      cases h
      exact .nil
  | item :: rest, out, h, hnames, hparts => by
      obtain ⟨first, hfirst, h⟩ := bind_ok h
      obtain ⟨later, hlater, h⟩ := bind_ok h
      cases h
      refine (within_inlined item hfirst ?_ ?_).append (withinAll_inlined rest hlater ?_ ?_)
      · exact fun name hname => hnames name (List.mem_append_left _ hname)
      · exact fun q hq => hparts q (List.mem_append_left _ hq)
      · exact fun name hname => hnames name (List.mem_append_right _ hname)
      · exact fun q hq => hparts q (List.mem_append_right _ hq)
end

mutual
/-- Only an item that does not instantiate its own module can be inlined. -/
theorem not_self_of_inlined : ∀ {item : Item} {out : List Item}, inlined flat self item = .ok out →
    ∀ i ∈ item.instances, i.moduleName ≠ self
  | .inst j, _, h, i, hi => by
      obtain rfl := List.mem_singleton.mp hi
      intro hself
      rw [inlined, if_pos hself] at h
      exact absurd h (by simp)
  | .commented _ items, _, h, i, hi => by
      obtain ⟨inner, hinner, -⟩ := bind_ok h
      exact not_self_of_inlinedAll hinner i hi
  | .declarations _, _, _, _, hi | .assigns _, _, _, _, hi | .always _ _, _, _, _, hi =>
      absurd hi List.not_mem_nil
theorem not_self_of_inlinedAll : ∀ {items out : List Item}, inlinedAll flat self items = .ok out →
    ∀ i ∈ instancesOf items, i.moduleName ≠ self
  | [], _, _, _, hi => absurd hi List.not_mem_nil
  | item :: rest, _, h, i, hi => by
      obtain ⟨first, hfirst, h⟩ := bind_ok h
      obtain ⟨later, hlater, -⟩ := bind_ok h
      exact (List.mem_append.mp hi).elim (not_self_of_inlined hfirst i)
        (not_self_of_inlinedAll hlater i)
end

/-- Items that stand for the same circuit. -/
structure Alike (xs ys : List Item) : Prop where
  decls : declsOf xs = declsOf ys
  drives : drivesOf xs = drivesOf ys
  processes : processesOf xs = processesOf ys

/--
Inlined items, taken apart around one inlined instance: what stands before and
after it keeps to certain names.
-/
def Surrounds (P : String → Prop) (p : Part) (out : List Item) : Prop :=
  ∃ pre block post, p.1.inline p.2 = .ok block ∧ Alike out (pre ++ (block ++ post)) ∧ Within P pre ∧
    Within P post

/-- Items that stay out of the copy may be put in front. -/
theorem Surrounds.append_left {p : Part} {xs out : List Item} (h : Surrounds P p out)
    (hx : Within P xs) : Surrounds P p (xs ++ out) := by
  obtain ⟨pre, block, post, hblock, hsame, hpre, hpost⟩ := h
  refine ⟨xs ++ pre, block, post, hblock, ⟨?_, ?_, ?_⟩, hx.append hpre, hpost⟩
  · rw [declsOf_append, hsame.decls, ← declsOf_append, List.append_assoc]
  · rw [drivesOf_append, hsame.drives, ← drivesOf_append, List.append_assoc]
  · rw [processesOf_append, hsame.processes, ← processesOf_append, List.append_assoc]

theorem Surrounds.append_right {p : Part} {xs out : List Item} (h : Surrounds P p out)
    (hx : Within P xs) : Surrounds P p (out ++ xs) := by
  obtain ⟨pre, block, post, hblock, hsame, hpre, hpost⟩ := h
  refine ⟨pre, block, post ++ xs, hblock, ⟨?_, ?_, ?_⟩, hpre, hpost.append hx⟩
  · rw [declsOf_append, hsame.decls, ← declsOf_append, List.append_assoc, List.append_assoc]
  · rw [drivesOf_append, hsame.drives, ← drivesOf_append, List.append_assoc, List.append_assoc]
  · rw [processesOf_append, hsame.processes, ← processesOf_append, List.append_assoc,
      List.append_assoc]

theorem Surrounds.commented {p : Part} {comment : String} {items : List Item}
    (h : Surrounds P p items) : Surrounds P p [.commented comment items] := by
  obtain ⟨pre, block, post, hblock, hsame, hpre, hpost⟩ := h
  refine ⟨pre, block, post, hblock, ⟨?_, ?_, ?_⟩, hpre, hpost⟩
  · rw [declsOf, decls, declsOf, List.append_nil, hsame.decls]
  · rw [drivesOf, drives, drivesOf, List.append_nil, hsame.drives]
  · rw [processesOf, processes, processesOf, List.append_nil, hsame.processes]

mutual
/-- Inlining an item takes it apart around the copy of any one of its instances. -/
theorem surrounds_inlined {p : Part} (hlookup : flat.lookup p.1.moduleName = some (.ok p.2)) :
    ∀ (item : Item) {before after : List Instance} {out : List Item},
    item.instances = before ++ p.1 :: after →
    inlined flat self item = .ok out → (∀ name ∈ item.names, P name) →
    (∀ q : Part, q.1 ∈ before ++ after → flat.lookup q.1.moduleName = some (.ok q.2) →
      ∀ name ∈ q.2.names, P (q.rename name)) → Surrounds P p out
  | .declarations _, _, _, _, hsplit, _, _, _ => absurd hsplit (by simp [instances])
  | .assigns _, _, _, _, hsplit, _, _, _ => absurd hsplit (by simp [instances])
  | .always _ _, _, _, _, hsplit, _, _, _ => absurd hsplit (by simp [instances])
  | .commented comment items, before, after, out, hsplit, h, hnames, hparts => by
      obtain ⟨inner, hinner, h⟩ := bind_ok h
      cases h
      exact (surroundsAll_inlined hlookup items hsplit hinner hnames hparts).commented
  | .inst i, before, after, out, hsplit, h, _, _ => by
      obtain ⟨hi, -⟩ : i = p.1 ∧ after = [] := by
        cases before with
        | nil => simpa [instances, eq_comm] using hsplit
        | cons b rest => simp [instances] at hsplit
      subst hi
      rw [inlined] at h
      split at h
      · exact absurd h (by simp)
      · rw [hlookup] at h
        refine ⟨[], out, [], h, ⟨?_, ?_, ?_⟩, .nil, .nil⟩ <;> rw [List.nil_append, List.append_nil]
theorem surroundsAll_inlined {p : Part} (hlookup : flat.lookup p.1.moduleName = some (.ok p.2)) :
    ∀ (items : List Item) {before after : List Instance} {out : List Item},
    instancesOf items = before ++ p.1 :: after → inlinedAll flat self items = .ok out →
    (∀ name ∈ namesOf items, P name) →
    (∀ q : Part, q.1 ∈ before ++ after → flat.lookup q.1.moduleName = some (.ok q.2) →
      ∀ name ∈ q.2.names, P (q.rename name)) → Surrounds P p out
  | [], _, _, _, hsplit, _, _, _ => absurd hsplit (by simp [instancesOf])
  | item :: rest, before, after, out, hsplit, h, hnames, hparts => by
      obtain ⟨first, hfirst, h⟩ := bind_ok h
      obtain ⟨later, hlater, h⟩ := bind_ok h
      cases h
      have hitem : ∀ name ∈ item.names, P name :=
        fun name hname => hnames name (List.mem_append_left _ hname)
      have hrest : ∀ name ∈ namesOf rest, P name :=
        fun name hname => hnames name (List.mem_append_right _ hname)
      rw [instancesOf] at hsplit
      -- the instance stands in the first item or in one after it
      rcases List.append_eq_append_iff.mp hsplit with ⟨mid, rfl, hlast⟩ | ⟨mid, hstart, hlast⟩
      · refine (surroundsAll_inlined hlookup rest hlast hlater hrest
          fun q hq => hparts q ?_).append_left
          (within_inlined item hfirst hitem fun q hq => hparts q ?_)
        · rw [List.append_assoc]
          exact List.mem_append_right _ hq
        · rw [List.append_assoc]
          exact List.mem_append_left _ hq
      · cases mid with
        | nil =>
            rw [List.append_nil] at hstart
            rw [List.nil_append] at hlast
            subst hstart
            have hsplit' : instancesOf rest = [] ++ p.1 :: after := hlast.symm
            exact (surroundsAll_inlined hlookup rest hsplit' hlater hrest
              fun q hq => hparts q (List.mem_append_right _ hq)).append_left
              (within_inlined item hfirst hitem fun q hq => hparts q (List.mem_append_left _ hq))
        | cons i mid =>
            obtain ⟨rfl, hafter⟩ := List.cons.inj hlast
            refine (surrounds_inlined hlookup item hstart hfirst hitem
              fun q hq => hparts q ?_).append_right
              (withinAll_inlined rest hlater hrest fun q hq => hparts q ?_)
            · rw [hafter, List.append_eq, ← List.append_assoc]
              exact List.mem_append_left _ hq
            · rw [hafter, List.append_eq, ← List.append_assoc]
              exact List.mem_append_right _ hq
end

end Item

/-! ## Hosts -/

/-- Flattening keeps the ports. -/
theorem Module.ports_flatten {flat : FlatModules} {m m' : Module} (h : m.flatten flat = .ok m') :
    m'.ports = m.ports := by
  obtain ⟨items, -, h⟩ := bind_ok h
  cases h
  rfl

theorem Module.not_self_of_flatten {flat : FlatModules} {m m' : Module}
    (h : m.flatten flat = .ok m') {i : Instance} (hi : i ∈ Item.instancesOf m.items) :
    i.moduleName ≠ m.name := by
  obtain ⟨items, hitems, -⟩ := bind_ok h
  exact Item.not_self_of_inlinedAll hitems i hi

/-- A flattened module hosts its parts, as long as their names are theirs alone. -/
theorem Module.flatten_hosts {flat : FlatModules} {m m' : Module} {p : Part}
    {before after : List Instance} (h : m.flatten flat = .ok m')
    (hlookup : flat.lookup p.1.moduleName = some (.ok p.2))
    (hinstances : Item.instancesOf m.items = before ++ p.1 :: after)
    (hown : ∀ name ∈ m.names, ¬ p.start <+: name.toList)
    (hothers : ∀ q : Part, q.1 ∈ before ++ after → flat.lookup q.1.moduleName = some (.ok q.2) →
      ∀ name ∈ q.2.names, ¬ p.start <+: (q.rename name).toList) :
    m'.circuit.Hosts p.2.circuit p.rename p.2.inputs := by
  obtain ⟨out, hout, h⟩ := bind_ok h
  cases h
  obtain ⟨pre, block, post, hblock, hsame, hpre, hpost⟩ := Item.surroundsAll_inlined
    (P := fun name => ¬ p.start <+: name.toList) hlookup m.items hinstances hout
    (fun name hname => hown name (List.mem_append_right _ hname)) hothers
  obtain ⟨hdecls, hdrives, hprocesses⟩ := Part.inline_eq hblock
  -- names that begin differently are not names of the copy
  have hforeign : ∀ {name other : String}, ¬ p.start <+: other.toList → other ≠ p.rename name := by
    rintro name _ hother rfl
    exact hother (p.start_rename name)
  constructor
  · exact p.rename_injective
  · -- a name of the copy is declared there, and nowhere else
    intro name
    have hports : (m.ports.map fun q => (q.name, q.width)).reverse.lookup (p.rename name) =
        none := by
      refine Module.lookup_eq_none_of_forall_ne fun s hs => ?_
      obtain ⟨q, hq, rfl⟩ := List.mem_map.mp (List.mem_reverse.mp hs)
      exact hforeign (hown _ (List.mem_append_left _ (List.mem_map_of_mem hq)))
    have hdeclared : ∀ {items : List Item},
        Item.Within (fun name => ¬ p.start <+: name.toList) items →
        ((Item.declsOf items).map fun d => (d.name, d.width)).reverse.lookup (p.rename name) =
          none := by
      intro items hitems
      refine Module.lookup_eq_none_of_forall_ne fun s hs => ?_
      obtain ⟨d, hd, rfl⟩ := List.mem_map.mp (List.mem_reverse.mp hs)
      exact hforeign (hitems.decls d hd)
    show (Module.signals { m with items := out }).reverse.lookup (p.rename name) = _
    unfold Module.signals
    rw [hsame.decls, Item.declsOf_append, Item.declsOf_append, List.map_append,
      List.map_append, hdecls, List.reverse_append, List.reverse_append, List.reverse_append,
      List.lookup_append, List.lookup_append, List.lookup_append, hports, hdeclared hpre,
      hdeclared hpost, p.lookup_signals, Option.or_none, Option.or_none, Option.none_or]
  · -- its assigns stand together, and of those around it only connections write into it
    refine ⟨Item.drivesOf pre, p.1.connections.flatMap p.connection ++ Item.drivesOf post,
      ?_, ?_, ?_⟩
    · show Item.drivesOf out = _
      rw [hsame.drives, Item.drivesOf_append, Item.drivesOf_append, hdrives, Part.assigns,
        List.append_assoc]
      rfl
    · intro name hname
      obtain ⟨a, ha, hread⟩ := List.mem_flatMap.mp hname
      exact hpre.drives a ha _ hread (p.start_rename name)
    · intro name hname
      obtain ⟨a, ha, hread⟩ := List.mem_flatMap.mp hname
      rcases List.mem_append.mp ha with ha | ha
      · -- a connection writes to an input of the part, or to a signal of the module around it
        obtain ⟨c, hc, ha⟩ := List.mem_flatMap.mp ha
        rcases Part.connection_cases ha with ⟨e, -, hinput, rfl, -⟩ | ⟨e, port, he, -, rfl, -⟩
        · rwa [p.rename_injective (List.mem_singleton.mp hread)]
        · have hmem : p.1 ∈ Item.instancesOf m.items := by rw [hinstances]; simp
          have hnames : p.rename name ∈ p.1.names := by
            refine List.mem_flatMap.mpr ⟨c, hc, ?_⟩
            rw [he]
            exact e.reads_subset_names _ hread
          have hused := hown _ (List.mem_append_right _ (Item.namesOf_instance p.1 hmem _ hnames))
          exact absurd (p.start_rename name) hused
      · exact absurd (p.start_rename name) (hpost.drives a ha _ hread)
  · -- and so do its processes
    refine ⟨Item.processesOf pre, Item.processesOf post, ?_, ?_, ?_⟩
    · show Item.processesOf out = _
      rw [hsame.processes, Item.processesOf_append, Item.processesOf_append, hprocesses]
      rfl
    · intro name hname
      obtain ⟨body, hbody, hassigned⟩ := Statement.mem_assignedAll_flatten hname
      exact hpre.processes body hbody _ hassigned (p.start_rename name)
    · intro name hname
      obtain ⟨body, hbody, hassigned⟩ := Statement.mem_assignedAll_flatten hname
      exact hpost.processes body hbody _ hassigned (p.start_rename name)

/--
**An inlined instance does what its module does alone.** Take an artifact that
can be flattened, an instance in its top module whose name stands before no
other signal of the flattened module, ports included, and a run of the flattened
module. If the assigns of the instantiated module are ordered and leave its
inputs alone, then a simulator of that module, given in each round the inputs
that the instance has in the run, has in each round the values that the signals
of the instance have. It may not get that far, but only if one of these assigns
selects at a computed position: such a position may lie beyond the word before
all signals have settled.
-/
theorem Artifact.inlined_instance_alone {a : Artifact} {block : Block} {top : Module} {p : Part}
    {before after : List Instance} (htop : a.top? = some block) (hflat : a.flatten = .ok top)
    (hinstances : Item.instancesOf block.content.items = before ++ p.1 :: after)
    (hlookup : (flatModules a.blocks).lookup p.1.moduleName = some (.ok p.2))
    (hown : ∀ name ∈ block.content.names, ¬ p.start <+: name.toList)
    (hothers : ∀ q : Part, q.1 ∈ before ++ after →
      (flatModules a.blocks).lookup q.1.moduleName = some (.ok q.2) →
      ∀ name ∈ q.2.names, ¬ p.start <+: (q.rename name).toList)
    {rank : Assign → Nat} (hordered : p.2.circuit.Ordered rank)
    (hfree : ∀ name ∈ p.2.inputs, ∀ i, p.2.circuit.Free name i)
    {cycles : List (List (String × Word))} (hin : ∀ inputs ∈ cycles, ∀ c ∈ inputs, c.1 ∈ top.inputs)
    {trace : List Simulator} (hrun : (Simulator.start top).run cycles = .ok trace) :
    (∃ trace', (Simulator.start p.2).run (trace.map (p.2.inputsSeen p.rename)) = .ok trace' ∧
      List.Forall₂ (fun s t => ∀ name, t.get name = s.get (p.rename name)) trace trace') ∨
    ¬ p.2.circuit.Static ∧
      ∃ n, (Simulator.start p.2).run (trace.map (p.2.inputsSeen p.rename)) =
        .error (.shiftTooFar n) := by
  obtain ⟨blocks, hblocks⟩ : ∃ blocks, a.blocks = blocks ++ [block] :=
    List.getLast?_eq_some_iff.mp htop
  rw [flatten_concat hblocks] at hflat
  rw [hblocks, flatModules_concat] at hlookup hothers
  have hself : p.1.moduleName ≠ block.identity :=
    Module.not_self_of_flatten hflat (by rw [hinstances]; simp)
  -- the top module itself is the only one that is not flattened before it
  have hfound : (flatModules blocks).lookup p.1.moduleName = some (.ok p.2) := by
    rw [List.lookup_append, lookup_cons, if_neg hself] at hlookup
    simpa using hlookup
  have hhosts : top.circuit.Hosts p.2.circuit p.rename p.2.inputs := by
    refine Module.flatten_hosts hflat hfound hinstances hown fun q hq hlookup' => hothers q hq ?_
    rw [List.lookup_append, hlookup', Option.some_or]
  have houtside : ∀ name, p.rename name ∉ top.inputs := by
    intro name hname
    rw [Module.inputs, Module.ports_flatten hflat] at hname
    obtain ⟨port, hport, hname⟩ := List.mem_map.mp hname
    have hused :=
      hown port.name (List.mem_append_left _ (List.mem_map_of_mem (List.mem_filter.mp hport).1))
    exact hused (hname ▸ p.start_rename name)
  have hstart : top.circuit.Tracks p.2.circuit p.rename p.2.inputs .zero .zero :=
    ⟨Valuation.tidy_zero _, Valuation.tidy_zero _, fun _ _ _ _ => rfl⟩
  exact hhosts.run_tracks hordered hfree houtside hin rfl rfl hstart hrun

/-!
The second case does occur. Alone, a part is ticked with the inputs of the round
before: here its register then differs from the input that follows it in the
host, and `y` and `z` hold a position beyond the word. In the host the input
follows at once, and `y` is right again before `z` has seen that it was not.
-/

example :
    let toggle : Module := ⟨"toggle", [.input 8 "p", .output 1 "q"],
      [.declarations [.reg 8 "r", .net 8 "y", .net 8 "z"],
        .assigns [⟨.ident "q", .index "r" (.binary .and (.ident "y") (.ident "z"))⟩,
          ⟨.ident "z", .ident "y"⟩, ⟨.ident "y", .binary .and (.ident "r") (.not (.ident "p"))⟩],
        .clocked [.nonblocking (.ident "r") (.not (.ident "r"))]]⟩
    let host : Module := ⟨"host", [.output 1 "q"],
      [.declarations [.reg 8 "s"],
        .inst ⟨"toggle", "i", [("p", some (.ident "s")), ("q", some (.ident "q"))]⟩,
        .clocked [.nonblocking (.ident "s") (.not (.ident "s"))]]⟩
    ((Artifact.flatten ⟨[⟨toggle, 0⟩, ⟨host, 0⟩], []⟩).toOption.bind fun top =>
      ((Simulator.start top).run [[], []]).toOption.map fun trace => trace.map (·.get "i__p")) =
        some [0, 255] ∧
    ((Simulator.start toggle).run [[("p", 0)], [("p", 255)]]).toOption.isNone = true := by
  constructor <;> decide +kernel

/-- A bit that stays set once it was. -/
def stickyBit : Module :=
  ⟨"u_inner", [.input 1 "d", .output 1 "q"],
    [.declarations [.reg 1 "r", .net 1 "n"],
      .assigns [⟨.ident "q", .ident "n"⟩, ⟨.ident "n", .binary .or (.ident "r") (.ident "d")⟩],
      .clocked [.nonblocking (.ident "r") (.ident "n")]]⟩

/-- Its assigns can be put in an order. -/
theorem stickyBit_ordered :
    stickyBit.circuit.Ordered fun a => if a.target = .ident "q" then 1 else 0 where
  ranges := by
    simp [stickyBit, Module.circuit, Item.drivesOf, Item.drives, Item.clocked, Expr.IsRange]
  ranked := by
    intro a ha b hb name hname i hdrives
    obtain ⟨r, hr, rfl, -⟩ := hdrives
    have hassigns : stickyBit.circuit.assigns =
      [⟨.ident "q", .ident "n"⟩, ⟨.ident "n", .binary .or (.ident "r") (.ident "d")⟩] := rfl
    rw [hassigns] at ha hb
    simp only [List.mem_cons, List.not_mem_nil, or_false] at ha hb
    rcases ha with rfl | rfl <;> rcases hb with rfl | rfl <;> simp_all [Expr.names, Expr.regions]

theorem stickyBit_free : ∀ name ∈ stickyBit.inputs, ∀ i, stickyBit.circuit.Free name i := by
  intro name hname i a ha hdrives
  obtain ⟨r, hr, rfl, -⟩ := hdrives
  have hinputs : stickyBit.inputs = ["d"] := rfl
  have hassigns : stickyBit.circuit.assigns =
    [⟨.ident "q", .ident "n"⟩, ⟨.ident "n", .binary .or (.ident "r") (.ident "d")⟩] := rfl
  rw [hassigns] at ha
  rw [hinputs] at hname
  simp only [List.mem_cons, List.not_mem_nil, or_false] at ha hname
  rcases ha with rfl | rfl <;> simp_all [Expr.regions]

/-- A module with two such bits in a row. -/
def stickyPair : Module :=
  ⟨"u", [.input 1 "x", .output 1 "y"],
    [.declarations [.net 1 "m"],
      .inst ⟨"u_inner", "i", [("d", some (.ident "x")), ("q", some (.ident "m"))]⟩,
      .commented
        "the second one"
        [.inst ⟨"u_inner", "j", [("d", some (.ident "m")), ("q", some (.ident "y"))]⟩]]⟩

/-- What is put where an instance of the bit stood. -/
def stickyCopy (name input output : String) : List Item :=
  [.declarations [.net 1 (name ++ "__d"), .net 1 (name ++ "__q")],
    .declarations [.reg 1 (name ++ "__r"), .net 1 (name ++ "__n")],
    .assigns [⟨.ident (name ++ "__q"), .ident (name ++ "__n")⟩,
      ⟨.ident (name ++ "__n"), .binary .or (.ident (name ++ "__r")) (.ident (name ++ "__d"))⟩],
    .clocked [.nonblocking (.ident (name ++ "__r")) (.ident (name ++ "__n"))],
    .assigns [⟨.ident (name ++ "__d"), .ident input⟩, ⟨.ident output, .ident (name ++ "__q")⟩]]

/-- The module with two bits, flattened. -/
def stickyFlat : Module :=
  ⟨"u", [.input 1 "x", .output 1 "y"],
    .declarations [.net 1 "m"] :: stickyCopy "i" "x" "m" ++
      [.commented "the second one" (stickyCopy "j" "m" "y")]⟩

/-- Its signals, in the order in which they are first written. -/
def stickyValues (values : List Word) : Valuation :=
  ⟨["x", "i__q", "i__n", "i__d", "m", "j__q", "j__n", "j__d", "y", "i__r", "j__r"].zip values⟩

/-- The flattened pair over three cycles: both bits rise with the input, and stay. -/
theorem stickyFlat_run :
    (Simulator.start stickyFlat).run [[("x", 0)], [("x", 1)], [("x", 0)]] =
      .ok [⟨stickyFlat.circuit, stickyValues [0, 0, 0, 0, 0, 0, 0, 0, 0]⟩,
        ⟨stickyFlat.circuit, stickyValues [1, 1, 1, 1, 1, 1, 1, 1, 1, 0, 0]⟩,
        ⟨stickyFlat.circuit, stickyValues [0, 1, 1, 0, 1, 1, 1, 1, 1, 1, 1]⟩] := by
  have hclear : stickyValues [0, 0, 0, 0, 0, 0, 0, 0, 0] ∈
        (stickyFlat.circuit.settle (stickyValues [0])).toOption ∧
      stickyValues [0, 0, 0, 0, 0, 0, 0, 0, 0, 0, 0] ∈
        (stickyFlat.circuit.tick (stickyValues [0, 0, 0, 0, 0, 0, 0, 0, 0])).toOption := by
    decide +kernel
  have hset : stickyValues [1, 1, 1, 1, 1, 1, 1, 1, 1, 0, 0] ∈
        (stickyFlat.circuit.settle (stickyValues [1, 0, 0, 0, 0, 0, 0, 0, 0, 0, 0])).toOption ∧
      stickyValues [1, 1, 1, 1, 1, 1, 1, 1, 1, 1, 1] ∈
        (stickyFlat.circuit.tick (stickyValues [1, 1, 1, 1, 1, 1, 1, 1, 1, 0, 0])).toOption := by
    decide +kernel
  have hkept : stickyValues [0, 1, 1, 0, 1, 1, 1, 1, 1, 1, 1] ∈
        (stickyFlat.circuit.settle (stickyValues [0, 1, 1, 1, 1, 1, 1, 1, 1, 1, 1])).toOption ∧
      stickyValues [0, 1, 1, 0, 1, 1, 1, 1, 1, 1, 1] ∈
        (stickyFlat.circuit.tick (stickyValues [0, 1, 1, 0, 1, 1, 1, 1, 1, 1, 1])).toOption := by
    decide +kernel
  exact Simulator.run_cons rfl hclear.1 hclear.2
    (Simulator.run_cons rfl hset.1 hset.2 (Simulator.run_cons rfl hkept.1 hkept.2 rfl))

/-- The second bit follows the first one in the round in which that is set, and both stay. -/
theorem inlined_instance_alone_second_bit :
    let a : Artifact := ⟨[⟨stickyBit, 0⟩, ⟨stickyPair, 0⟩], []⟩
    let p : Part :=
      (⟨"u_inner", "j", [("d", some (.ident "m")), ("q", some (.ident "y"))]⟩, stickyBit)
    ∃ top trace trace', a.flatten = .ok top ∧
      (Simulator.start top).run [[("x", 0)], [("x", 1)], [("x", 0)]] = .ok trace ∧
      trace.map (·.get (p.rename "q")) = [0, 1, 1] ∧
      (Simulator.start stickyBit).run (trace.map (stickyBit.inputsSeen p.rename)) = .ok trace' ∧
      List.Forall₂ (fun s t => ∀ name, t.get name = s.get (p.rename name)) trace trace' := by
  intro a p
  have htop : stickyFlat ∈ a.flatten.toOption := by decide +kernel
  have hinstances : Item.instancesOf stickyPair.items =
      [⟨"u_inner", "i", [("d", some (.ident "x")), ("q", some (.ident "m"))]⟩] ++ p.1 :: [] := rfl
  have hlookup : (Artifact.flatModules a.blocks).lookup "u_inner" = some (.ok stickyBit) := by
    decide +kernel
  have hown : ∀ name ∈ stickyPair.names, ¬ p.start <+: name.toList := by decide +kernel
  have hother : ∀ name ∈ stickyBit.names, ¬ p.start <+: ("i__" ++ name).toList := by decide +kernel
  have hothers : ∀ q : Part,
      q.1 ∈ [⟨"u_inner", "i", [("d", some (.ident "x")), ("q", some (.ident "m"))]⟩] ++ [] →
      (Artifact.flatModules a.blocks).lookup q.1.moduleName = some (.ok q.2) →
      ∀ name ∈ q.2.names, ¬ p.start <+: (q.rename name).toList := by
    rintro ⟨i, m⟩ hi hm
    rw [List.append_nil, List.mem_singleton] at hi
    subst hi
    obtain rfl : stickyBit = m := Except.ok.inj (Option.some.inj (hlookup.symm.trans hm))
    exact hother
  have hin : ∀ inputs ∈ [[("x", (0 : Word))], [("x", 1)], [("x", 0)]],
      ∀ c ∈ inputs, c.1 ∈ stickyFlat.inputs := by
    decide
  have hstatic : stickyBit.circuit.Static := by
    simp [Circuit.Static, stickyBit, Module.circuit, Item.drivesOf, Item.drives, Item.clocked,
      Expr.Fixed]
  rcases Artifact.inlined_instance_alone (p := p) rfl (eq_ok_of_mem_toOption htop) hinstances
    hlookup hown hothers
    stickyBit_ordered stickyBit_free hin stickyFlat_run with ⟨trace', htrace', hsame⟩ | ⟨hno, -⟩
  · exact ⟨stickyFlat, _, trace', eq_ok_of_mem_toOption htop, stickyFlat_run, rfl, htrace', hsame⟩
  · exact absurd hstatic hno

/--
A module with one such bit, and with a port that is called what the bit's
register is called inside.
-/
def stickyProbe : Module :=
  ⟨"u", [.input 1 "x", .input 1 "i__r", .output 1 "y"],
    [.inst ⟨"u_inner", "i", [("d", some (.ident "x")), ("q", some (.ident "y"))]⟩]⟩

/--
It is not enough that no item uses a name of the instance: a port of that name
reaches into it. Here the register is set from outside, while alone it would
stay clear.
-/
theorem port_reaches_into_instance :
    let a : Artifact := ⟨[⟨stickyBit, 0⟩, ⟨stickyProbe, 0⟩], []⟩
    let p : Part :=
      (⟨"u_inner", "i", [("d", some (.ident "x")), ("q", some (.ident "y"))]⟩, stickyBit)
    Obtained a ∧ Item.instancesOf stickyProbe.items = [p.1] ∧
    (Artifact.flatModules a.blocks).lookup p.1.moduleName = some (.ok p.2) ∧
    (∀ name ∈ Item.namesOf stickyProbe.items, ¬ p.start <+: name.toList) ∧
    (∃ rank, p.2.circuit.Ordered rank) ∧ (∀ name ∈ p.2.inputs, ∀ i, p.2.circuit.Free name i) ∧
    ∃ top trace trace', a.flatten = .ok top ∧ "i__r" ∈ top.inputs ∧
      (Simulator.start top).run [[("i__r", 1)]] = .ok trace ∧
      (Simulator.start stickyBit).run (trace.map (stickyBit.inputsSeen p.rename)) = .ok trace' ∧
      trace.map (·.get (p.rename "r")) = [1] ∧ trace'.map (·.get "r") = [0] := by
  intro a p
  have hobtained : Obtained a := by
    have hfinish : ((Accumulator.start ⟨"u", [], rfl⟩).tryRequire .inner fun id =>
        (Accumulator.start id).finish stickyBit 0).2.finish stickyProbe 0 = .ok a := by
      decide +kernel
    exact .finish (.require .inner _ (.start _) fun b hb _ => .finish (.start _) hb) hfinish
  have hrun : ((Artifact.flatten ⟨[⟨stickyBit, 0⟩, ⟨stickyProbe, 0⟩], []⟩).toOption.bind fun top =>
      ((Simulator.start top).run [[("i__r", 1)]]).toOption.bind fun trace =>
        ((Simulator.start stickyBit).run
          (trace.map (stickyBit.inputsSeen fun name => "i__" ++ name))).toOption.map
          fun trace' => (top.inputs, trace.map (·.get "i__r"), trace'.map (·.get "r"))) =
      some (["x", "i__r"], [1], [0]) := by
    decide +kernel
  obtain ⟨top, htop, hrun⟩ := Option.bind_eq_some_iff.mp hrun
  obtain ⟨trace, htrace, hrun⟩ := Option.bind_eq_some_iff.mp hrun
  obtain ⟨trace', htrace', hseen⟩ := Option.map_eq_some_iff.mp hrun
  obtain ⟨hinputs, hvalues⟩ := Prod.mk.inj hseen
  obtain ⟨hinside, halone⟩ := Prod.mk.inj hvalues
  refine ⟨hobtained, rfl, by decide +kernel, by decide +kernel, ⟨_, stickyBit_ordered⟩,
    stickyBit_free, top, trace, trace', eq_ok_of_mem_toOption htop, ?_,
    eq_ok_of_mem_toOption htrace, eq_ok_of_mem_toOption htrace', hinside, halone⟩
  rw [hinputs]
  decide

end Handshake
