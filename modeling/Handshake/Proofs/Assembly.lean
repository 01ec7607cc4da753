import Handshake.Proofs.Absorption

/-!
# How an artifact is put together

Each role is asked for once, and the blocks that come with it bear the role in
their names. So what two submodules of one module bring along never overlaps: a
merge that succeeds appends, and nothing is dropped as a duplicate. Generators
are read through the lemmas of this file: `Sound.require_ok` for a submodule,
`Sound.external_ok` for an external and `Sound.finish_ok` for the module itself.

An accumulator is kept `Sound`: what it has collected is coherent, and each
block bears a role that was asked for. What a generator hands over `IsUnit`: it
is well formed under the name of the unit, which is the name of its last block.
Every step of a generator preserves the first and relies on the second of its
submodules, and finishing turns the first into the second.
-/

namespace Handshake

namespace Artifact

/-- A merge of blocks that are all new, if it succeeds, appends them. -/
theorem merge_fresh {a other : Artifact} (ho : Coherent other) (hok : (a.merge other).1 = .ok ())
    (hfresh : ∀ b ∈ other.blocks, b.identity ∉ a.blocks.map Block.identity) :
    (a.merge other).2.blocks = a.blocks ++ other.blocks ∧
      ∀ e, e ∈ (a.merge other).2.externals ↔ e ∈ a.externals ∨ e ∈ other.externals := by
  rw [merge_eq ho hfresh] at hok ⊢
  rw [taken_of_accepted (outcome_eq_ok.mp hok)]
  refine ⟨rfl, fun e => ?_⟩
  by_cases he : e ∈ a.externals <;> simp [extend, he]

/-! ### The order of externals -/

/-- One more name is kept if it is new. -/
theorem eraseDups_concat (names : List String) (name : String) :
    (names ++ [name]).eraseDups =
      if name ∈ names then names.eraseDups else names.eraseDups ++ [name] := by
  rw [List.eraseDups_append]
  by_cases h : name ∈ names
  · rw [if_pos h]
    simp [List.removeAll, h]
  · rw [if_neg h]
    simp [List.removeAll, h, List.eraseDups_cons]

/-- Externals stand in the order in which they were first mentioned. -/
theorem declareAll_externals {a : Artifact} {seen : List String} (names : List String)
    (h : a.externals = seen.eraseDups) (hok : (addAll declare a names).1 = .ok ()) :
    (addAll declare a names).2.externals = (seen ++ names).eraseDups := by
  induction names generalizing a seen with
  | nil => simpa [addAll] using h
  | cons name rest ih =>
      rw [addAll] at hok ⊢
      split at hok
      · rename_i a' hd
        have hnext : a'.externals = (seen ++ [name]).eraseDups := by
          rw [eraseDups_concat]
          obtain ⟨-, ⟨hin, rfl⟩ | ⟨hnew, rfl⟩⟩ := declare_cases hd
          · rw [if_pos (List.mem_eraseDups.mp (h ▸ hin)), h]
          · rw [if_neg fun hin => hnew (h ▸ List.mem_eraseDups.mpr hin), ← h]
        rw [ih hnext hok, List.append_assoc]
        rfl
      · exact absurd hok (by simp)

/-- Blocks have no effect on the externals. -/
theorem insertAll_externals (a : Artifact) (blocks : List Block) :
    (addAll insert a blocks).2.externals = a.externals := by
  induction blocks generalizing a with
  | nil => rfl
  | cons b rest ih =>
      rw [addAll]
      split
      · rename_i a' hi
        rw [ih a']
        rcases insert_cases hi with ⟨-, rfl⟩ | ⟨-, -, rfl⟩ <;> rfl
      · rfl

/-- A merge that succeeds adds the externals that are new, in their order. -/
theorem merge_externals {a other : Artifact} {seen : List String} (h : a.externals = seen.eraseDups)
    (hok : (a.merge other).1 = .ok ()) :
    (a.merge other).2.externals = (seen ++ other.externals).eraseDups := by
  unfold merge at hok ⊢
  split at hok
  · rename_i a' hd
    have hall := declareAll_externals other.externals h (by rw [hd])
    rw [hd] at hall
    rw [insertAll_externals, hall]
  · exact absurd hok (by simp)

/-- The artifact of the unit called `name`. -/
structure IsUnit (a : Artifact) (name : String) : Prop where
  /-- It is well formed under that name. -/
  wellFormed : a.WellFormed name
  /-- Its last block bears the name. -/
  top : ∃ top, a.top? = some top ∧ top.identity = name

theorem IsUnit.wellFormed_top {a : Artifact} {name : String} (h : a.IsUnit name) :
    ∀ top, a.top? = some top → a.WellFormed top.identity := by
  intro top htop
  obtain ⟨top', htop', hname⟩ := h.top
  obtain rfl : top' = top := Option.some.inj (htop'.symm.trans htop)
  exact hname ▸ h.wellFormed

end Artifact

theorem Obtained.isUnit {a : Artifact} {top : Block} {name : String} (h : Obtained a)
    (htop : a.top? = some top) (hname : top.identity = name) : a.IsUnit name :=
  ⟨hname ▸ h.wellFormed top htop, top, htop, hname⟩

namespace Accumulator

/-- What a submodule brings along is new to the accumulator that asks for its role. -/
theorem Sound.fresh_child {acc : Accumulator} (h : acc.Sound) {role : Role}
    (hrole : role ∉ acc.roles) {sub : Artifact} (hsub : sub.WellFormed (acc.id.child role).text) :
    ∀ b ∈ sub.blocks, b.identity ∉ acc.artifact.blocks.map Block.identity := by
  intro b hb hmem
  obtain ⟨roles, hname⟩ := family_child hsub b hb
  obtain ⟨c, hc, hcb⟩ := List.mem_map.mp hmem
  obtain ⟨role', hrole', roles', hname'⟩ := h.family c hc
  -- roles can be read off names, so a common name would mean a common role
  have hsame : role' :: roles' = role :: roles := by
    have htext : derived acc.id.text (role' :: roles') = derived acc.id.text (role :: roles) := by
      rw [← hname, ← hname', hcb]
    exact derived_injective htext
  rw [List.cons.injEq] at hsame
  exact hrole (hsame.1 ▸ hrole')

/-- What is known once a submodule has been asked for with success. -/
structure Required (acc : Accumulator) (role : Role) (sub : Artifact) (dependency : Dependency)
    (acc' : Accumulator) : Prop where
  /-- The role had not been asked for. -/
  unasked : role ∉ acc.roles
  /-- The artifact taken over is the submodule's. -/
  isUnit : sub.IsUnit (acc.id.child role).text
  /-- The dependency is the submodule, with its latency. -/
  dependency_eq : dependency = ⟨acc.id.child role, sub.latency⟩
  /-- The accumulator still speaks of the same module. -/
  id_eq : acc'.id = acc.id
  /-- The role is used up. -/
  roles_eq : acc'.roles = acc.roles ++ [role]
  /-- The submodule's blocks are appended. -/
  blocks_eq : acc'.artifact.blocks = acc.artifact.blocks ++ sub.blocks
  /-- The submodule's externals are added. -/
  externals_iff : ∀ e, e ∈ acc'.artifact.externals ↔ e ∈ acc.artifact.externals ∨ e ∈ sub.externals
  /-- The accumulator is still sound. -/
  sound : acc'.Sound

theorem Required.name_eq {acc acc' : Accumulator} {role : Role} {sub : Artifact}
    {dependency : Dependency} (h : Required acc role sub dependency acc') :
    dependency.name = derived acc.id.text [role] := by
  rw [h.dependency_eq]
  exact acc.id.text_child_eq role

/-- What has happened when a submodule was asked for with success. -/
theorem require_inv {acc acc' : Accumulator} {role : Role}
    {generate : Identity → Except Error Artifact} {dependency : Dependency}
    (hr : acc.require role generate = .ok (dependency, acc')) :
    ∃ sub top, role ∉ acc.roles ∧ generate (acc.id.child role) = .ok sub ∧ sub.top? = some top ∧
      top.identity = (acc.id.child role).text ∧ dependency = ⟨acc.id.child role, top.latency⟩ ∧
      (acc.artifact.merge sub).1 = .ok () ∧
      acc' = ⟨acc.id, acc.roles ++ [role], (acc.artifact.merge sub).2⟩ ∧
        acc' = (acc.tryRequire role generate).2 := by
  unfold require at hr
  dsimp only at hr
  cases hstep : (acc.tryRequire role generate).1 with
  | error e =>
      rw [hstep] at hr
      exact absurd hr (by simp [Except.map])
  | ok made =>
      rw [hstep] at hr
      simp only [Except.map, Except.ok.injEq, Prod.mk.injEq] at hr
      obtain ⟨rfl, rfl⟩ := hr
      unfold Accumulator.tryRequire Accumulator.absorb at hstep ⊢
      dsimp only at hstep ⊢
      split at hstep
      · exact absurd hstep (by simp)
      · rename_i hrole
        rw [if_neg hrole]
        split at hstep
        · rename_i sub hsub
          -- an artifact without a top, or with another one, would have been refused
          split at hstep
          · rename_i top htop
            split at hstep
            · rename_i hname
              cases hm : (acc.artifact.merge sub).1 with
              | error e =>
                  rw [hm] at hstep
                  exact absurd hstep (by simp [Except.map])
              | ok u =>
                  rw [hm] at hstep
                  simp only [Except.map, Except.ok.injEq] at hstep
                  refine ⟨sub, top, by simpa using hrole, hsub, htop, hname, hstep.symm,
                    hm, ?_, rfl⟩
                  rw [if_pos hname]
            · exact absurd hstep (by simp)
          · exact absurd hstep (by simp)
        · exact absurd hstep (by simp)

/-- **A submodule.** -/
theorem Sound.require_ok {acc acc' : Accumulator} {role : Role}
    {generate : Identity → Except Error Artifact} {dependency : Dependency} (h : acc.Sound)
    (hgen : ∀ a, generate (acc.id.child role) = .ok a → ∀ top, a.top? = some top →
      a.WellFormed top.identity)
    (hr : acc.require role generate = .ok (dependency, acc')) :
    ∃ sub, generate (acc.id.child role) = .ok sub ∧ Required acc role sub dependency acc' := by
  obtain ⟨sub, top, hnew, hsub, htop, hname, hdependency, hmerge, hacc, hafter⟩ := require_inv hr
  have hunit : sub.IsUnit (acc.id.child role).text :=
    ⟨hname ▸ hgen sub hsub top htop, top, htop, hname⟩
  obtain ⟨hblocks, hexternals⟩ := Artifact.merge_fresh hunit.wellFormed.toCoherent hmerge
    (h.fresh_child hnew hunit.wellFormed)
  have hlatency : sub.latency = top.latency := by simp [Artifact.latency, htop]
  refine ⟨sub, hsub, ⟨hnew, hunit, ?_, ?_, ?_, ?_, ?_, hafter ▸ h.tryRequire hgen⟩⟩
  · rw [hdependency, hlatency]
  · rw [hacc]
  · rw [hacc]
  · rw [hacc]
    exact hblocks
  · rw [hacc]
    exact hexternals

/-- The same, for a submodule that is known. -/
theorem Sound.required {acc acc' : Accumulator} {role : Role}
    {generate : Identity → Except Error Artifact} {dependency : Dependency} {sub : Artifact}
    (h : acc.Sound) (hgen : generate (acc.id.child role) = .ok sub)
    (hunit : sub.IsUnit (acc.id.child role).text)
    (hr : acc.require role generate = .ok (dependency, acc')) :
    Required acc role sub dependency acc' := by
  have honly : ∀ a, generate (acc.id.child role) = .ok a → sub = a :=
    fun a ha => Except.ok.inj (hgen.symm.trans ha)
  obtain ⟨sub', hsub', hreq⟩ := h.require_ok (fun a ha => honly a ha ▸ hunit.wellFormed_top) hr
  exact honly sub' hsub' ▸ hreq

/-- What has happened when an external was declared with success. -/
theorem external_inv {acc acc' : Accumulator} {name : String} (he : acc.external name = .ok acc') :
    ∃ a, acc.artifact.declare name = .ok a ∧ acc' = { acc with artifact := a } ∧
      acc' = (acc.tryExternal name).2 := by
  unfold external at he
  dsimp only at he
  unfold Accumulator.tryExternal at he ⊢
  cases hd : acc.artifact.declare name with
  | error e =>
      rw [hd] at he
      exact absurd he (by simp [Except.map])
  | ok a =>
      rw [hd] at he
      simp only [Except.map, Except.ok.injEq] at he
      exact ⟨a, rfl, he.symm, he.symm⟩

/-- **An external.** -/
theorem Sound.external_ok {acc acc' : Accumulator} {name : String} (h : acc.Sound)
    (he : acc.external name = .ok acc') :
    acc'.id = acc.id ∧ acc'.artifact.blocks = acc.artifact.blocks ∧
      (∀ e, e ∈ acc'.artifact.externals ↔ e ∈ acc.artifact.externals ∨ e = name) ∧ acc'.Sound := by
  obtain ⟨a, hd, hacc', hafter⟩ := external_inv he
  have hsound : acc'.Sound := hafter ▸ h.tryExternal name
  subst hacc'
  obtain ⟨-, ⟨hin, rfl⟩ | ⟨_, rfl⟩⟩ := Artifact.declare_cases hd
  · refine ⟨rfl, rfl, fun e => ⟨Or.inl, ?_⟩, hsound⟩
    rintro (he | rfl)
    · exact he
    · exact hin
  · exact ⟨rfl, rfl, by simp, hsound⟩

/-- **The module itself.** -/
theorem Sound.finish_ok {acc : Accumulator} {content : Module} {latency : Nat} {a : Artifact}
    (h : acc.Sound) (hf : acc.finish content latency = .ok a) :
    a.blocks = acc.artifact.blocks ++ [⟨{ content with name := acc.id.text }, latency⟩] ∧
      a.externals = acc.artifact.externals ∧ a.latency = latency ∧ a.IsUnit acc.id.text := by
  obtain ⟨hwf, htop⟩ := h.wellFormed_finish hf
  obtain ⟨rfl, -, -⟩ := h.finish_eq hf
  exact ⟨rfl, rfl, by rw [Artifact.latency, htop]; rfl, hwf, _, htop, rfl⟩

/-- A module without submodules is the only block. -/
theorem finish_start {id : Identity} {content : Module} {latency : Nat} {a : Artifact}
    (hf : (start id).finish content latency = .ok a) :
    a.blocks = [⟨{ content with name := id.text }, latency⟩] ∧ a.externals = [] ∧
      a.latency = latency ∧
      a.IsUnit id.text :=
  (sound_start id).finish_ok hf

end Accumulator

end Handshake
