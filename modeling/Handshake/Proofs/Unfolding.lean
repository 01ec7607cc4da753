import Handshake.Proofs.Inlining

/-!
# Flattening and unfolding by name

What an instance stands for is found by its name: the first block of the
artifact that defines it is unfolded in turn, and an instance whose name no
block defines stays. Put that way (`Unfolds`), nothing says that unfolding ends.
A module may lead back to itself, or a name may be looked up in a block that
stands later.

Flattening goes through the blocks once, in their order, and so ends without an
argument. What needs one is that it is unfolding. In a coherent artifact a block
instantiates blocks before it and externals, names are defined once, and no
external is a block. So what has been flattened before a block is what unfolding
would find for its instances, and what is left over in the end are externals.
-/

namespace Handshake

/-! ## What flattening leaves -/

namespace Item

variable {flat : FlatModules} {self : String} {P : String → Prop}

mutual
theorem moduleNames_renamed (f : String → String) : ∀ item : Item,
    (renamed f item).instances.map Instance.moduleName = item.instances.map Instance.moduleName
  | .inst _ => rfl
  | .commented _ items => moduleNamesOf_renamed f items
  | .declarations _ | .assigns _ | .always _ _ => rfl
theorem moduleNamesOf_renamed (f : String → String) : ∀ items : List Item,
    (instancesOf (renamedAll f items)).map Instance.moduleName =
      (instancesOf items).map Instance.moduleName
  | [] => rfl
  | item :: rest => by
      rw [renamedAll, instancesOf, instancesOf, List.map_append, List.map_append,
        moduleNames_renamed f item, moduleNamesOf_renamed f rest]
end

/-- Inlining brings along the instances that the flattened module still has. -/
theorem left_inline {i : Instance} {sub : Module} {out : List Item} (h : i.inline sub = .ok out)
    (hsub : ∀ j ∈ instancesOf sub.items, P j.moduleName) :
    ∀ j ∈ instancesOf out, P j.moduleName := by
  obtain ⟨connected, -, h⟩ := bind_ok h
  cases h
  intro j hj
  rw [List.cons_append, instancesOf, instancesOf_append] at hj
  have hmem : j.moduleName ∈
      (instancesOf (renamedAll i.signalName sub.items)).map Instance.moduleName := by
    refine List.mem_map_of_mem ?_
    simpa [instancesOf, instances] using hj
  rw [moduleNamesOf_renamed] at hmem
  obtain ⟨k, hk, hname⟩ := List.mem_map.mp hmem
  exact hname ▸ hsub k hk

mutual
/-- What inlining leaves of an item: instances of modules that are not in the table. -/
theorem left_inlined
    (hflat : ∀ name sub, flat.lookup name = some (.ok sub) →
      ∀ j ∈ instancesOf sub.items, P j.moduleName) :
    ∀ (item : Item) {out : List Item}, inlined flat self item = .ok out →
    (∀ i ∈ item.instances, i.moduleName ≠ self → flat.lookup i.moduleName = none → P i.moduleName) →
    ∀ i ∈ instancesOf out, P i.moduleName
  | .inst i, out, h, hout => by
      rw [inlined] at h
      split at h
      · exact absurd h (by simp)
      · rename_i hself
        cases hlookup : flat.lookup i.moduleName with
        | none =>
            rw [hlookup] at h
            cases h
            exact List.forall_mem_singleton.mpr (hout i (List.mem_singleton_self _) hself hlookup)
        | some found =>
            rw [hlookup] at h
            obtain ⟨sub, hfound, h⟩ := bind_ok h
            exact left_inline h (hflat i.moduleName sub (hlookup.trans (congrArg some hfound)))
  | .commented comment items, out, h, hout => by
      obtain ⟨inner, hinner, h⟩ := bind_ok h
      cases h
      intro i hi
      refine left_inlinedAll hflat items hinner hout i ?_
      simpa [instancesOf, instances] using hi
  | .declarations _, out, h, _ | .assigns _, out, h, _ | .always _ _, out, h, _ => by
      cases h
      exact fun i hi => absurd hi List.not_mem_nil
theorem left_inlinedAll
    (hflat : ∀ name sub, flat.lookup name = some (.ok sub) →
      ∀ j ∈ instancesOf sub.items, P j.moduleName) :
    ∀ (items : List Item) {out : List Item}, inlinedAll flat self items = .ok out →
    (∀ i ∈ instancesOf items, i.moduleName ≠ self → flat.lookup i.moduleName = none →
      P i.moduleName) →
    ∀ i ∈ instancesOf out, P i.moduleName
  | [], out, h, _ => by
      cases h
      exact fun i hi => absurd hi List.not_mem_nil
  | item :: rest, out, h, hout => by
      obtain ⟨first, hfirst, h⟩ := bind_ok h
      obtain ⟨later, hlater, h⟩ := bind_ok h
      cases h
      rw [instancesOf_append]
      refine List.forall_mem_append.mpr ⟨left_inlined hflat item hfirst fun i hi => ?_,
        left_inlinedAll hflat rest hlater fun i hi => ?_⟩
      · exact hout i (List.mem_append_left _ hi)
      · exact hout i (List.mem_append_right _ hi)
end

end Item

namespace Artifact

/-- Every flattened block of a coherent artifact has instances of externals only. -/
theorem Coherent.left_flatModules {a : Artifact} (h : a.Coherent) (before : List Block) :
    ∀ after, a.blocks = before ++ after → ∀ entry ∈ flatModules before, ∀ sub, entry.2 = .ok sub →
      ∀ i ∈ Item.instancesOf sub.items, i.moduleName ∈ a.externals := by
  induction before using List.reverseRecOn with
  | nil => exact fun _ _ entry hentry => absurd hentry List.not_mem_nil
  | append_singleton before b ih =>
      intro after hblocks entry hentry sub hsub
      have hsplit : a.blocks = before ++ b :: after := by rw [hblocks, List.append_assoc]; rfl
      have hearlier := ih _ hsplit
      rw [flatModules_concat] at hentry
      rcases List.mem_append.mp hentry with hentry | hentry
      · exact hearlier entry hentry sub hsub
      · rw [List.mem_singleton.mp hentry] at hsub
        obtain ⟨items, hitems, hsub⟩ := bind_ok hsub
        cases hsub
        refine Item.left_inlinedAll (fun name found hfound => ?_) _ hitems
          fun i hi hself hnone => ?_
        · obtain ⟨earlier, later, hlist, -⟩ := List.lookup_eq_some_iff.mp hfound
          exact hearlier (name, .ok found) (by rw [hlist]; simp) found rfl
        · -- what stands among the blocks before would have been found
          rcases h.resolved before b after hsplit i hi with heq | hmem | hext
          · exact absurd heq hself
          · rw [← map_fst_flatModules] at hmem
            obtain ⟨found, hfound, hname⟩ := List.mem_map.mp hmem
            have hdiffer := List.lookup_eq_none_iff.mp hnone found hfound
            exact absurd hname.symm (by simpa using hdiffer)
          · exact hext

/-- **Flattening leaves no instances but those of externals.** -/
theorem Coherent.left_flatten {a : Artifact} (h : a.Coherent) {m : Module}
    (hm : a.flatten = .ok m) : ∀ i ∈ Item.instancesOf m.items, i.moduleName ∈ a.externals := by
  unfold flatten at hm
  split at hm
  · rename_i name top htop
    exact h.left_flatModules a.blocks [] (by rw [List.append_nil]) _
      (List.mem_of_getLast? htop) m hm
  · exact absurd hm (by simp)

end Artifact

/-! ## Unfolding -/

namespace Artifact

mutual

/-- `a.Unfolds m m'`: with all instances of blocks of `a` unfolded, the module `m` becomes `m'`. -/
inductive Unfolds (a : Artifact) : Module → Module → Prop where
  | mk {m : Module} {items : List Item} : UnfoldsAll a m.items items → Unfolds a m { m with items }

/-- The same for some items of a module. -/
inductive UnfoldsAll (a : Artifact) : List Item → List Item → Prop where
  | nil : UnfoldsAll a [] []
  | block {i : Instance} {b : Block} {sub : Module} {inlined rest rest' : List Item} :
      a.get? i.moduleName = some b → Unfolds a b.content sub → i.inline sub = .ok inlined →
      UnfoldsAll a rest rest' →
      UnfoldsAll a (.inst i :: rest) (inlined ++ rest')
  | external {i : Instance} {rest rest' : List Item} :
      a.get? i.moduleName = none → UnfoldsAll a rest rest' →
        UnfoldsAll a (.inst i :: rest) (.inst i :: rest')
  | commented {comment : String} {items items' rest rest' : List Item} :
      UnfoldsAll a items items' → UnfoldsAll a rest rest' →
      UnfoldsAll a (.commented comment items :: rest) (.commented comment items' :: rest')
  | declarations {list : List Decl} {rest rest' : List Item} :
      UnfoldsAll a rest rest' →
        UnfoldsAll a (.declarations list :: rest) (.declarations list :: rest')
  | assigns {list : List Assign} {rest rest' : List Item} :
      UnfoldsAll a rest rest' → UnfoldsAll a (.assigns list :: rest) (.assigns list :: rest')
  | always {event : String} {body : List Statement} {rest rest' : List Item} :
      UnfoldsAll a rest rest' →
        UnfoldsAll a (.always event body :: rest) (.always event body :: rest')

end

variable {a : Artifact}

mutual
/-- There is at most one thing that a module unfolds to. -/
theorem Unfolds.unique : ∀ {m m₁ m₂ : Module}, a.Unfolds m m₁ → a.Unfolds m m₂ → m₁ = m₂
  | _, _, _, .mk h, .mk h' => by rw [h.unique h']
theorem UnfoldsAll.unique : ∀ {items items₁ items₂ : List Item}, a.UnfoldsAll items items₁ →
    a.UnfoldsAll items items₂ → items₁ = items₂
  | _, _, _, .nil, .nil => rfl
  | _, _, _, .block hget hsub hinline hrest, .block hget' hsub' hinline' hrest' => by
      obtain rfl := Option.some.inj (hget.symm.trans hget')
      obtain rfl := hsub.unique hsub'
      obtain rfl := Except.ok.inj (hinline.symm.trans hinline')
      rw [hrest.unique hrest']
  | _, _, _, .block hget _ _ _, .external hget' _ => absurd (hget.symm.trans hget') (by simp)
  | _, _, _, .external hget _, .block hget' _ _ _ => absurd (hget.symm.trans hget') (by simp)
  | _, _, _, .external _ hrest, .external _ hrest' => by rw [hrest.unique hrest']
  | _, _, _, .commented hitems hrest, .commented hitems' hrest' => by
      rw [hitems.unique hitems', hrest.unique hrest']
  | _, _, _, .declarations hrest, .declarations hrest' => by rw [hrest.unique hrest']
  | _, _, _, .assigns hrest, .assigns hrest' => by rw [hrest.unique hrest']
  | _, _, _, .always hrest, .always hrest' => by rw [hrest.unique hrest']
end

/-! ## Flattening is unfolding -/

/-- A table says of an instance what the artifact says of it. -/
def Agrees (a : Artifact) (flat : FlatModules) (i : Instance) : Prop :=
  (a.get? i.moduleName = none ∧ flat.lookup i.moduleName = none) ∨
    ∃ b sub, a.get? i.moduleName = some b ∧ flat.lookup i.moduleName = some (.ok sub) ∧
      a.Unfolds b.content sub

variable {flat : FlatModules} {self : String}

mutual
theorem unfoldsAll_inlined :
    ∀ {item : Item} {out : List Item}, (∀ i ∈ item.instances, a.Agrees flat i) →
    Item.inlined flat self item = .ok out → ∀ {rest rest' : List Item}, a.UnfoldsAll rest rest' →
    a.UnfoldsAll (item :: rest) (out ++ rest')
  | .inst i, out, hagrees, h, _, _, hrest => by
      rw [Item.inlined] at h
      split at h
      · cases h
      · rcases hagrees i (List.mem_singleton_self i)
          with ⟨hget, hlookup⟩ | ⟨b, sub, hget, hlookup, hsub⟩
        · rw [hlookup] at h
          cases h
          exact .external hget hrest
        · rw [hlookup] at h
          exact .block hget hsub h hrest
  | .commented comment items, out, hagrees, h, _, _, hrest => by
      obtain ⟨inner, hinner, h⟩ := bind_ok h
      cases h
      exact .commented (unfoldsAll_inlinedAll hagrees hinner) hrest
  | .declarations _, _, _, h, _, _, hrest => by cases h; exact .declarations hrest
  | .assigns _, _, _, h, _, _, hrest => by cases h; exact .assigns hrest
  | .always _ _, _, _, h, _, _, hrest => by cases h; exact .always hrest
theorem unfoldsAll_inlinedAll :
    ∀ {items out : List Item}, (∀ i ∈ Item.instancesOf items, a.Agrees flat i) →
    Item.inlinedAll flat self items = .ok out → a.UnfoldsAll items out
  | [], _, _, h => by cases h; exact .nil
  | item :: rest, _, hagrees, h => by
      obtain ⟨first, hfirst, h⟩ := bind_ok h
      obtain ⟨later, hlater, h⟩ := bind_ok h
      cases h
      exact unfoldsAll_inlined (fun i hi => hagrees i (List.mem_append_left _ hi)) hfirst
        (unfoldsAll_inlinedAll (fun i hi => hagrees i (List.mem_append_right _ hi)) hlater)
end

theorem unfolds_of_flatten {m m' : Module}
    (hagrees : ∀ i ∈ Item.instancesOf m.items, a.Agrees flat i) (h : m.flatten flat = .ok m') :
    a.Unfolds m m' := by
  obtain ⟨items, hitems, h⟩ := bind_ok h
  cases h
  exact .mk (unfoldsAll_inlinedAll hagrees hitems)

/--
What is asked of the blocks for flattening to go through: none instantiates
itself, and instances of blocks connect ports that these have.
-/
structure Connected (a : Artifact) : Prop where
  not_self : ∀ b ∈ a.blocks, ∀ i ∈ Item.instancesOf b.content.items, i.moduleName ≠ b.identity
  ports : ∀ b ∈ a.blocks, ∀ i ∈ Item.instancesOf b.content.items, ∀ d ∈ a.blocks,
    d.identity = i.moduleName →
    ∀ c ∈ i.connections, (d.content.port? c.1).isSome = true

/-- In a coherent artifact, a lookup finds the one block of the name. -/
theorem Coherent.get?_identity (h : a.Coherent) {b : Block} (hb : b ∈ a.blocks) :
    a.get? b.identity = some b := by
  cases hget : a.get? b.identity with
  | none => exact absurd (List.mem_map_of_mem hb) (get?_eq_none_iff.mp hget)
  | some d =>
      obtain ⟨hd, hname⟩ := get?_some hget
      exact congrArg some (List.inj_on_of_nodup_map h.distinct hd hb hname)

/-- The table of some blocks, each with what it unfolds to. -/
def Tabulates (a : Artifact) (blocks : List Block) : Prop :=
  ∀ b ∈ blocks, ∃ m, (flatModules blocks).lookup b.identity = some (.ok m) ∧
    m.ports = b.content.ports ∧
    a.Unfolds b.content m

/--
**One step of flattening**: over the blocks before it, a block flattens to what
it unfolds to.
-/
theorem Coherent.flatten_unfolds (h : a.Coherent) (hc : a.Connected) {before after : List Block}
    {b : Block} (hblocks : a.blocks = before ++ b :: after) (hbefore : a.Tabulates before) :
    ∃ m, b.content.flatten (flatModules before) = .ok m ∧ m.name = b.identity ∧
      m.ports = b.content.ports ∧
      a.Unfolds b.content m := by
  have hb : b ∈ a.blocks := by simp [hblocks]
  -- an instance refers to a block before, and is found with its ports, or to an
  -- external, and is not found
  have hcases : ∀ i ∈ Item.instancesOf b.content.items,
      Resolvable (flatModules before) b.content.name i ∧ a.Agrees (flatModules before) i := by
    intro i hi
    have hself : i.moduleName ≠ b.identity := hc.not_self b hb i hi
    rcases h.resolved before b after hblocks i hi with hown | hearlier | hexternal
    · exact absurd hown hself
    · obtain ⟨d, hd, hname⟩ := List.mem_map.mp hearlier
      obtain ⟨sub, hlookup, hports, hsub⟩ := hbefore d hd
      have hd' : d ∈ a.blocks := by simp [hblocks, hd]
      rw [hname] at hlookup
      refine ⟨⟨hself, Or.inr ⟨sub, hlookup, fun c hcon => ?_⟩⟩, Or.inr ⟨d, sub, ?_, hlookup, hsub⟩⟩
      · rw [Module.port?, hports]
        exact hc.ports b hb i hi d hd' hname c hcon
      · rw [← hname]
        exact h.get?_identity hd'
    · have hnew : i.moduleName ∉ a.blocks.map Block.identity := by
        intro hmem
        obtain ⟨d, hd, hname⟩ := List.mem_map.mp hmem
        exact h.apart d hd (hname ▸ hexternal)
      have hlookup : (flatModules before).lookup i.moduleName = none :=
        lookup_flatModules_eq_none fun hmem => hnew (by
          rw [hblocks, List.map_append]
          exact List.mem_append_left _ hmem)
      exact ⟨⟨hself, Or.inl hlookup⟩, Or.inl ⟨get?_eq_none_iff.mpr hnew, hlookup⟩⟩
  obtain ⟨m, hm, hname, hflattens⟩ := Module.flatten_ok fun i hi => (hcases i hi).1
  exact ⟨m, hm, hname, hflattens.ports, unfolds_of_flatten (fun i hi => (hcases i hi).2) hm⟩

/-- All of flattening, by induction on the blocks that have been gone through. -/
theorem Coherent.tabulates (h : a.Coherent) (hc : a.Connected) {before after : List Block}
    (hblocks : a.blocks = before ++ after) : a.Tabulates before := by
  induction before using List.reverseRecOn generalizing after with
  | nil => exact fun b hb => absurd hb List.not_mem_nil
  | append_singleton before b ih =>
      have hsplit : a.blocks = before ++ b :: after := by simpa using hblocks
      have hdistinct : ((before ++ [b]).map Block.identity).Nodup := by
        have := h.distinct
        rw [hblocks, List.map_append] at this
        exact this.of_append_left
      obtain ⟨m, hm, -, hports, hunfolds⟩ := h.flatten_unfolds hc hsplit (ih hsplit)
      intro d hd
      rcases List.mem_append.mp hd with hd | hd
      · obtain ⟨sub, hlookup, hsub⟩ := ih hsplit d hd
        exact ⟨sub, by rw [flatModules_concat, List.lookup_append, hlookup]; rfl, hsub⟩
      · obtain rfl := List.mem_singleton.mp hd
        exact ⟨m, by rw [lookup_flatModules hdistinct, hm], hports, hunfolds⟩

end Artifact

/--
**Flattening ends, and leaves only externals.** In an artifact that accumulators
hand out, let no block instantiate itself, and let instances of blocks connect
ports of these. Then unfolding the top by name has exactly one result, and
flattening returns it: a module with the name and the ports of the top, in which
nothing is instantiated but externals of the artifact.
-/
theorem flattening_leaves_externals {a : Artifact} (h : Obtained a) (hc : a.Connected) :
    ∃ top flat, a.top? = some top ∧ a.flatten = .ok flat ∧
      (∀ m, a.Unfolds top.content m ↔ m = flat) ∧
      flat.name = top.identity ∧ flat.ports = top.content.ports ∧
        ∀ name ∈ flat.instantiated, name ∈ a.externals := by
  obtain ⟨hacc, hfinish⟩ := h
  obtain ⟨hwf, htop⟩ := hacc.sound.wellFormed_finish hfinish
  have hcoherent := hwf.toCoherent
  generalize Block.mk _ _ = top at htop
  obtain ⟨before, hblocks⟩ := List.getLast?_eq_some_iff.mp htop
  obtain ⟨flat, hflat, hname, hports, hunfolds⟩ :=
    hcoherent.flatten_unfolds hc hblocks (hcoherent.tabulates hc hblocks)
  have hflatten : a.flatten = .ok flat := (Artifact.flatten_concat hblocks).trans hflat
  refine ⟨top, flat, htop, hflatten, fun m => ⟨fun hm => hm.unique hunfolds, ?_⟩, hname, hports,
    fun name hmem => ?_⟩
  · rintro rfl
    exact hunfolds
  · obtain ⟨i, hi, rfl⟩ := Module.mem_instantiated.mp hmem
    exact hcoherent.left_flatten hflatten i hi

/--
Two levels and a shared block: `m` instantiates `m_inner` twice, and
`m_inner_inner` both through it and directly. Of these nothing is left; what
`m_inner` instantiates under a comment is external and stays, once for each
copy.
-/
theorem flattening_leaves_externals_shared :
    let wire (name : String) (items : List Item) : Module :=
      ⟨name, [⟨.input, 1, "d"⟩, ⟨.output, 1, "q"⟩], items⟩
    let use (block name : String) : Item :=
      .inst ⟨block, name, [("d", some (.ident "d")), ("q", none)]⟩
    let leaf := wire "m_inner_inner" [.assigns [⟨.ident "q", .ident "d"⟩]]
    let middle := wire "m_inner" [use "m_inner_inner" "x",
      .commented "vendor" [.inst ⟨"ip", "v", [("any", none)]⟩]]
    let top :=
      wire "m" [use "m_inner" "a", .commented "again" [use "m_inner" "b", use "m_inner_inner" "c"]]
    let a : Artifact := ⟨[⟨leaf, 0⟩, ⟨middle, 1⟩, ⟨top, 2⟩], ["ip"]⟩
    Obtained a ∧ a.Connected ∧
      (∃ b flat, a.top? = some b ∧ a.flatten = .ok flat ∧ (∀ m, a.Unfolds b.content m ↔ m = flat) ∧
        flat.name = b.identity ∧ flat.ports = b.content.ports ∧
          ∀ name ∈ flat.instantiated, name ∈ a.externals) ∧
      (a.flatten.toOption.map fun flat => (Item.instancesOf flat.items).map
        fun i => (i.moduleName, i.name)) =
        some [("ip", "a__v"), ("ip", "b__v")] := by
  intro wire use leaf middle top a
  let makeLeaf (id : Identity) : Except Error Artifact := (Accumulator.start id).finish leaf 0
  let makeMiddle (id : Identity) : Except Error Artifact :=
    (((Accumulator.start id).tryRequire .inner makeLeaf).2.tryExternal "ip").2.finish middle 1
  let acc := ((Accumulator.start ⟨"m", [], rfl⟩).tryRequire .inner makeMiddle).2
  have hmiddle : ∀ (id : Identity) (sub : Artifact), makeMiddle id = .ok sub → sub ≠ .empty →
      Obtained sub := by
    intro id sub hsub _
    refine .finish (.external "ip" (.require .inner makeLeaf (.start id) ?_)) hsub
    exact fun sub hsub _ => .finish (.start _) hsub
  have hacc : Accumulating acc := .require .inner makeMiddle (.start _) (hmiddle _)
  have hfinish : acc.finish top 2 = .ok a := by decide +kernel
  have hobtained : Obtained a := .finish hacc hfinish
  have hconnected : a.Connected := ⟨by decide +kernel, by decide +kernel⟩
  exact ⟨hobtained, hconnected, flattening_leaves_externals hobtained hconnected, by decide +kernel⟩

end Handshake
