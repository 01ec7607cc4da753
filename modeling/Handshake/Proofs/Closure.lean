import Mathlib.Data.List.Nodup
import Handshake.Artifact.Accumulator
import Handshake.Proofs.Naming

/-!
# What every artifact satisfies

An artifact is handed from generator to generator: each takes over what its
submodules brought along and adds one block. Nothing checks the whole
afterwards, so everything the reader of an artifact relies on must survive each
single step, the refused ones included:

* a name is defined once, and is not external at the same time;
* a block finds what it instantiates among the blocks *before* it, or among the
  externals;
* all names are derived from the name of the unit.

A merge that is refused halfway leaves a part of the other artifact behind. That
part is harmless for one reason only: externals go first and blocks in their
order, so at every moment the blocks taken over form a beginning of the other
list, and a beginning of a closed list is closed.
-/

namespace Handshake

/-- A module lists what it instantiates without repetition, and leaves nothing out. -/
theorem Module.mem_instantiated {m : Module} {name : String} :
    name ∈ m.instantiated ↔ ∃ i ∈ Item.instancesOf m.items, i.moduleName = name := by
  have key : ∀ (names seen : List String),
      name ∈ names.foldl (fun seen name =>
        if seen.contains name then seen else seen ++ [name]) seen ↔
          name ∈ seen ∨ name ∈ names := by
    intro names
    induction names with
    | nil => intro seen; simp
    | cons first rest ih =>
        intro seen
        rw [List.foldl_cons, ih]
        by_cases hc : first ∈ seen
        · have hcontains : seen.contains first = true := by simpa using hc
          rw [if_pos hcontains, List.mem_cons]
          constructor
          · rintro (h | h)
            · exact Or.inl h
            · exact Or.inr (Or.inr h)
          · rintro (h | rfl | h)
            · exact Or.inl h
            · exact Or.inl hc
            · exact Or.inr h
        · have hcontains : ¬ seen.contains first = true := by simpa using hc
          rw [if_neg hcontains, List.mem_append, List.mem_singleton, List.mem_cons, or_assoc]
  unfold Module.instantiated
  rw [key]
  simp

/-- Everything that a block instantiates is the block itself, one of some blocks, or external. -/
def Block.Resolved (b : Block) (before : List Block) (externals : List String) : Prop :=
  ∀ i ∈ Item.instancesOf b.content.items,
    i.moduleName = b.identity ∨ i.moduleName ∈ before.map Block.identity ∨ i.moduleName ∈ externals

theorem Block.Resolved.mono {b : Block} {before before' : List Block}
    {externals externals' : List String} (h : b.Resolved before externals)
    (hb : ∀ d ∈ before, d ∈ before') (he : ∀ e ∈ externals, e ∈ externals') :
    b.Resolved before' externals' := by
  intro i hi
  rcases h i hi with hself | hbefore | hext
  · exact Or.inl hself
  · obtain ⟨d, hd, hname⟩ := List.mem_map.mp hbefore
    exact Or.inr (Or.inl (List.mem_map.mpr ⟨d, hb d hd, hname⟩))
  · exact Or.inr (Or.inr (he _ hext))

namespace Artifact

/-- One name has one meaning, and every instance refers to something that came before it. -/
structure Coherent (a : Artifact) : Prop where
  /-- No two blocks define the same name. -/
  distinct : (a.blocks.map Block.identity).Nodup
  /-- No external is listed twice. -/
  externals_distinct : a.externals.Nodup
  /-- No block defines a name that is external. -/
  apart : ∀ b ∈ a.blocks, b.identity ∉ a.externals
  /-- A block instantiates itself, blocks before it, and externals. -/
  resolved : ∀ before b after, a.blocks = before ++ b :: after → b.Resolved before a.externals

/-- A coherent artifact whose names all derive from the name `top`. -/
structure WellFormed (a : Artifact) (top : String) : Prop extends Coherent a where
  /-- A block is called `top`, or `top` and the tokens of at least one role. -/
  family : ∀ b ∈ a.blocks, b.identity = top ∨
    ∃ roles : List Role, roles ≠ [] ∧
      b.identity = top ++ "_" ++ "_".intercalate (roles.map Role.token)

theorem coherent_empty : Coherent .empty :=
  ⟨List.nodup_nil, List.nodup_nil, by simp [empty], by simp [empty]⟩

/-! ## What one addition can do -/

theorem get?_eq_none_iff {a : Artifact} {name : String} :
    a.get? name = none ↔ name ∉ a.blocks.map Block.identity := by
  unfold get?
  rw [List.find?_eq_none, List.mem_map]
  constructor
  · rintro h ⟨b, hb, rfl⟩
    exact h b hb (by simp)
  · intro h b hb hname
    exact h ⟨b, hb, by simpa using hname⟩

theorem ne_empty {a : Artifact} {top : Block} (h : a.top? = some top) : a ≠ .empty := by
  rintro rfl
  exact absurd h (by simp [top?, empty])

theorem get?_some {a : Artifact} {name : String} {b : Block} (h : a.get? name = some b) :
    b ∈ a.blocks ∧ b.identity = name :=
  ⟨List.mem_of_find?_eq_some h, by simpa using List.find?_some h⟩

theorem defines_iff {a : Artifact} {name : String} :
    a.defines name = true ↔ name ∈ a.blocks.map Block.identity ∨ name ∈ a.externals := by
  have hget : (a.get? name).isSome = true ↔ name ∈ a.blocks.map Block.identity := by
    rw [Option.isSome_iff_ne_none, ne_eq, get?_eq_none_iff, not_not]
  rw [defines, Bool.or_eq_true, hget, List.contains_iff_mem]

/-- A block that is accepted either was there, or is new and goes to the end. -/
theorem insert_cases {a a' : Artifact} {b : Block} (h : a.insert b = .ok a') :
    (b ∈ a.blocks ∧ a' = a) ∨
      (b.identity ∉ a.blocks.map Block.identity ∧ b.identity ∉ a.externals ∧
        a' = { a with blocks := a.blocks ++ [b] }) := by
  unfold insert at h
  split at h
  · rename_i existing hget
    split at h
    · rename_i heq
      subst heq
      exact Or.inl ⟨(get?_some hget).1, by simpa using h.symm⟩
    · exact absurd h (by simp)
  · rename_i hget
    split at h
    · exact absurd h (by simp)
    · rename_i hext
      exact Or.inr ⟨get?_eq_none_iff.mp hget, by simpa using hext, by simpa using h.symm⟩

/-- An external that is accepted is no block; it goes to the end unless it was there. -/
theorem declare_cases {a a' : Artifact} {name : String} (h : a.declare name = .ok a') :
    name ∉ a.blocks.map Block.identity ∧
      ((name ∈ a.externals ∧ a' = a) ∨
        (name ∉ a.externals ∧ a' = { a with externals := a.externals ++ [name] })) := by
  unfold declare at h
  split at h
  · exact absurd h (by simp)
  · rename_i hget
    refine ⟨get?_eq_none_iff.mp (by simpa using hget), ?_⟩
    unfold addExternal at h
    split at h
    · rename_i hin
      exact Or.inl ⟨by simpa using hin, by simpa using h.symm⟩
    · rename_i hin
      exact Or.inr ⟨by simpa using hin, by simpa using h.symm⟩

theorem coherent_insert {a a' : Artifact} {b : Block} (h : Coherent a)
    (hb : b.Resolved a.blocks a.externals) (hi : a.insert b = .ok a') : Coherent a' := by
  rcases insert_cases hi with ⟨_, rfl⟩ | ⟨hnew, hext, rfl⟩
  · exact h
  refine ⟨?_, h.externals_distinct, ?_, ?_⟩
  · rw [List.map_append, List.map_singleton, List.nodup_append]
    refine ⟨h.distinct, by simp, ?_⟩
    intro name hname other hother heq
    rw [List.mem_singleton] at hother
    exact hnew (hother ▸ heq ▸ hname)
  · intro c hc
    rcases List.mem_append.mp hc with hc | hc
    · exact h.apart c hc
    · rw [List.mem_singleton] at hc
      exact hc ▸ hext
  · -- either the block in question is the new one, or the old list already splits there
    intro before c after hsplit
    rcases List.eq_nil_or_concat after with rfl | ⟨after', last, rfl⟩
    · obtain ⟨rfl, hc⟩ := List.append_inj' hsplit rfl
      obtain rfl : b = c := by simpa using hc
      exact hb
    · rw [List.concat_eq_append, ← List.cons_append, ← List.append_assoc] at hsplit
      exact h.resolved before c after' (List.append_inj' hsplit rfl).1

theorem coherent_declare {a a' : Artifact} {name : String} (h : Coherent a)
    (hd : a.declare name = .ok a') : Coherent a' := by
  obtain ⟨hblock, ⟨_, rfl⟩ | ⟨hnew, rfl⟩⟩ := declare_cases hd
  · exact h
  refine ⟨h.distinct, ?_, ?_, ?_⟩
  · rw [List.nodup_append]
    refine ⟨h.externals_distinct, by simp, ?_⟩
    intro e he other hother heq
    rw [List.mem_singleton] at hother
    exact hnew (hother ▸ heq ▸ he)
  · intro b hb hmem
    rcases List.mem_append.mp hmem with hmem | hmem
    · exact h.apart b hb hmem
    · rw [List.mem_singleton] at hmem
      exact hblock (hmem ▸ List.mem_map_of_mem hb)
  · intro before b after hsplit
    exact (h.resolved before b after hsplit).mono (fun _ hd => hd)
      (fun _ he => List.mem_append_left _ he)

/-! ## Merging -/

/-- Declaring externals, as far as it goes. -/
theorem declareAll_coherent {a : Artifact} (names : List String) (h : Coherent a) :
    Coherent (addAll declare a names).2 ∧ (addAll declare a names).2.blocks = a.blocks := by
  induction names generalizing a with
  | nil => exact ⟨h, rfl⟩
  | cons name rest ih =>
      rw [addAll]
      split
      · rename_i a' hd
        have hblocks : a'.blocks = a.blocks := by
          obtain ⟨-, ⟨_, rfl⟩ | ⟨_, rfl⟩⟩ := declare_cases hd <;> rfl
        obtain ⟨hco, hsame⟩ := ih (coherent_declare h hd)
        exact ⟨hco, hsame.trans hblocks⟩
      · exact ⟨h, rfl⟩

theorem declareAll_mem {a : Artifact} (names : List String)
    (hok : (addAll declare a names).1 = .ok ()) :
    ∀ e, e ∈ (addAll declare a names).2.externals ↔ e ∈ a.externals ∨ e ∈ names := by
  induction names generalizing a with
  | nil => intro e; simp [addAll]
  | cons name rest ih =>
      rw [addAll] at hok ⊢
      split at hok
      · rename_i a' hd
        intro e
        rw [ih hok]
        obtain ⟨-, ⟨hin, rfl⟩ | ⟨_, rfl⟩⟩ := declare_cases hd
        · constructor
          · rintro (h | h)
            · exact Or.inl h
            · exact Or.inr (List.mem_cons_of_mem _ h)
          · rintro (h | h)
            · exact Or.inl h
            · rcases List.mem_cons.mp h with rfl | h
              · exact Or.inl hin
              · exact Or.inr h
        · simp [or_assoc]
      · exact absurd hok (by simp)

/--
Inserting the blocks of a coherent artifact, as far as it goes. The blocks
`before` have been taken over, the blocks `rest` are to come; what those
instantiate is there by the time it is needed.
-/
theorem insertAll_coherent {a other : Artifact} (before rest : List Block) (ho : Coherent other)
    (hsplit : other.blocks = before ++ rest) (h : Coherent a)
    (hexternals : ∀ e ∈ other.externals, e ∈ a.externals) (hbefore : ∀ b ∈ before, b ∈ a.blocks) :
    Coherent (addAll insert a rest).2 ∧ ∀ b ∈ (addAll insert a rest).2.blocks, b ∈ a.blocks ∨
      b ∈ rest := by
  induction rest generalizing a before with
  | nil => exact ⟨h, fun b hb => Or.inl hb⟩
  | cons next rest ih =>
      rw [addAll]
      split
      · rename_i a' hi
        -- what `next` instantiates is in `before`, and by now in `a`
        have hresolved : next.Resolved a.blocks a.externals :=
          (ho.resolved before next rest hsplit).mono hbefore hexternals
        have hco : Coherent a' := coherent_insert h hresolved hi
        have hgrow : (∀ b ∈ a.blocks, b ∈ a'.blocks) ∧ next ∈ a'.blocks ∧
            a'.externals = a.externals ∧
            ∀ b ∈ a'.blocks, b ∈ a.blocks ∨ b = next := by
          rcases insert_cases hi with ⟨hin, rfl⟩ | ⟨-, -, rfl⟩
          · exact ⟨fun b hb => hb, hin, rfl, fun b hb => Or.inl hb⟩
          · refine ⟨fun b hb => List.mem_append_left _ hb, by simp, rfl, fun b hb => ?_⟩
            simpa using hb
        obtain ⟨hkeep, hnext, hext, hfrom⟩ := hgrow
        obtain ⟨hco', hmem⟩ := ih (before ++ [next]) (by simp [hsplit]) hco
          (by rw [hext]; exact hexternals)
          (by
            intro b hb
            rcases List.mem_append.mp hb with hb | hb
            · exact hkeep b (hbefore b hb)
            · exact List.mem_singleton.mp hb ▸ hnext)
        refine ⟨hco', fun b hb => ?_⟩
        rcases hmem b hb with hb | hb
        · rcases hfrom b hb with hb | rfl
          · exact Or.inl hb
          · exact Or.inr List.mem_cons_self
        · exact Or.inr (List.mem_cons_of_mem _ hb)
      · exact ⟨h, fun b hb => Or.inl hb⟩

/-- **A merge keeps an artifact coherent, also one that is refused halfway.** -/
theorem merge_coherent {a other : Artifact} (h : Coherent a) (ho : Coherent other) :
    Coherent (a.merge other).2 ∧ ∀ b ∈ (a.merge other).2.blocks, b ∈ a.blocks ∨
      b ∈ other.blocks := by
  obtain ⟨hco, hblocks⟩ := declareAll_coherent other.externals h
  unfold merge
  split
  · rename_i a' hd
    rw [hd] at hco hblocks
    have hall := declareAll_mem other.externals (a := a) (by rw [hd])
    rw [hd] at hall
    obtain ⟨hco', hmem⟩ :=
      insertAll_coherent [] _ ho rfl hco (fun e he => (hall e).mpr (Or.inr he)) (by simp)
    exact ⟨hco', fun b hb => (hmem b hb).imp (fun hb => hblocks ▸ hb) id⟩
  · rename_i e a' hd
    rw [hd] at hco hblocks
    exact ⟨hco, fun b hb => Or.inl (hblocks ▸ hb)⟩

end Artifact

/-! ## Accumulators -/

mutual
/--
The accumulators that some sequence of steps leads to. A step may have been
refused, and a callback may do whatever ends in an artifact that itself was
obtained from accumulators, or in the empty one.
-/
inductive Accumulating : Accumulator → Prop where
  | start (id : Identity) : Accumulating (.start id)
  | require {acc : Accumulator} (role : Role) (generate : Identity → Except Error Artifact) :
      Accumulating acc →
      (∀ a, generate (acc.id.child role) = .ok a → a ≠ .empty → Obtained a) →
      Accumulating (acc.tryRequire role generate).2
  | external {acc : Accumulator} (name : String) :
      Accumulating acc → Accumulating (acc.tryExternal name).2

/-- The artifacts that accumulators hand out. -/
inductive Obtained : Artifact → Prop where
  | finish {acc : Accumulator} {content : Module} {latency : Nat} {a : Artifact} :
      Accumulating acc → acc.finish content latency = .ok a → Obtained a
end

namespace Accumulator

/--
What an accumulator holds: a coherent artifact, each block of it brought along
by a role asked for.
-/
structure Sound (acc : Accumulator) : Prop where
  /-- The artifact is coherent. -/
  coherent : acc.artifact.Coherent
  /-- The name of a block tells the role that it came with. -/
  family : ∀ b ∈ acc.artifact.blocks, ∃ role ∈ acc.roles, ∃ roles,
    b.identity = derived acc.id.text (role :: roles)

theorem sound_start (id : Identity) : Sound (.start id) :=
  ⟨Artifact.coherent_empty, by simp [start, Artifact.empty]⟩

/-- No block of an accumulator bears the accumulator's own name. -/
theorem Sound.not_own {acc : Accumulator} (h : acc.Sound) :
    acc.id.text ∉ acc.artifact.blocks.map Block.identity := by
  intro hmem
  obtain ⟨b, hb, hname⟩ := List.mem_map.mp hmem
  obtain ⟨role, _, roles, hb'⟩ := h.family b hb
  -- the own name is derived from no roles at all
  have hsame : derived acc.id.text (role :: roles) = derived acc.id.text [] := hb'.symm.trans hname
  exact absurd (derived_injective hsame) (by simp)

/--
**What `finish` hands out.** The artifact of the accumulator, and after it the
finished module.
-/
theorem Sound.finish_eq {acc : Accumulator} {content : Module} {latency : Nat} {a : Artifact}
    (h : acc.Sound) (hf : acc.finish content latency = .ok a) :
    a = { acc.artifact with
      blocks := acc.artifact.blocks ++ [⟨{ content with name := acc.id.text }, latency⟩] } ∧
    (⟨{ content with name := acc.id.text }, latency⟩ : Block).Resolved acc.artifact.blocks
      acc.artifact.externals ∧
    acc.artifact.insert ⟨{ content with name := acc.id.text }, latency⟩ = .ok a := by
  unfold finish Artifact.define at hf
  split at hf
  · exact absurd hf (by simp)
  · rename_i hnone
    refine ⟨?_, ?_, hf⟩
    · rcases Artifact.insert_cases hf with ⟨hin, _⟩ | ⟨-, -, ha⟩
      · exact absurd (List.mem_map_of_mem hin) h.not_own
      · exact ha
    · intro i hi
      have hfound :=
        List.find?_eq_none.mp hnone i.moduleName (Module.mem_instantiated.mpr ⟨i, hi, rfl⟩)
      -- a module that instantiates itself is not refused
      by_cases hself : i.moduleName = acc.id.text
      · exact Or.inl hself
      · refine Or.inr ?_
        have hdefines : acc.artifact.defines i.moduleName = true := by
          simpa [Block.identity, hself] using hfound
        exact Artifact.defines_iff.mp hdefines

theorem Sound.wellFormed_finish {acc : Accumulator} {content : Module} {latency : Nat}
    {a : Artifact} (h : acc.Sound) (hf : acc.finish content latency = .ok a) :
    a.WellFormed acc.id.text ∧ a.top? = some ⟨{ content with name := acc.id.text }, latency⟩ := by
  obtain ⟨ha, hresolved, hinsert⟩ := h.finish_eq hf
  refine ⟨⟨Artifact.coherent_insert h.coherent hresolved hinsert, ?_⟩, ?_⟩
  · intro b hb
    rw [ha] at hb
    rcases List.mem_append.mp hb with hb | hb
    · obtain ⟨role, _, roles, hname⟩ := h.family b hb
      exact Or.inr ⟨role :: roles, by simp, hname.trans (derived_eq_join _ (by simp))⟩
    · rw [List.mem_singleton] at hb
      exact Or.inl (hb ▸ rfl)
  · rw [ha, Artifact.top?]
    simp

/-- Asking for a role only adds to the roles. -/
theorem Sound.ask {acc : Accumulator} (h : acc.Sound) (role : Role) :
    Sound { acc with roles := acc.roles ++ [role] } :=
  ⟨h.coherent, fun b hb =>
    let ⟨r, hr, roles, hname⟩ := h.family b hb
    ⟨r, List.mem_append_left _ hr, roles, hname⟩⟩

/-- Blocks whose names derive from a submodule's name come with the submodule's role. -/
theorem family_child {id : Identity} {role : Role} {a : Artifact}
    (h : a.WellFormed (id.child role).text) :
    ∀ b ∈ a.blocks, ∃ roles, b.identity = derived id.text (role :: roles) := by
  intro b hb
  rcases h.family b hb with hname | ⟨roles, hne, hname⟩
  · exact ⟨[], hname.trans (id.text_child_eq role)⟩
  · refine ⟨roles, ?_⟩
    rw [hname, ← derived_eq_join _ hne, id.text_child_eq role, ← derived_append]
    rfl

/-- **What is taken over from a submodule keeps the accumulator sound, whatever the outcome.** -/
theorem Sound.absorb {acc : Accumulator} {role : Role} {a : Artifact} (h : acc.Sound)
    (hrole : role ∈ acc.roles) (ha : ∀ top, a.top? = some top → a.WellFormed top.identity) :
    (acc.absorb (acc.id.child role) a).2.Sound := by
  unfold Accumulator.absorb
  split
  · rename_i top htop
    split
    · rename_i hname
      have hwf : a.WellFormed (acc.id.child role).text := hname ▸ ha top htop
      obtain ⟨hco, hmem⟩ := Artifact.merge_coherent h.coherent hwf.toCoherent
      refine ⟨hco, fun b hb => ?_⟩
      rcases hmem b hb with hb | hb
      · exact h.family b hb
      · obtain ⟨roles, hb'⟩ := family_child hwf b hb
        exact ⟨role, hrole, roles, hb'⟩
    · exact h
  · exact h

theorem Sound.tryRequire {acc : Accumulator} {role : Role}
    {generate : Identity → Except Error Artifact} (h : acc.Sound)
    (hgen : ∀ a, generate (acc.id.child role) = .ok a → ∀ top, a.top? = some top →
      a.WellFormed top.identity) :
    (acc.tryRequire role generate).2.Sound := by
  unfold Accumulator.tryRequire
  dsimp only
  split
  · exact h
  · split
    · rename_i a hok
      exact (h.ask role).absorb (by simp) (hgen a hok)
    · exact h.ask role

theorem Sound.tryExternal {acc : Accumulator} (h : acc.Sound) (name : String) :
    (acc.tryExternal name).2.Sound := by
  unfold Accumulator.tryExternal
  split
  · rename_i a hd
    have hblocks : a.blocks = acc.artifact.blocks := by
      obtain ⟨-, ⟨_, rfl⟩ | ⟨_, rfl⟩⟩ := Artifact.declare_cases hd <;> rfl
    exact ⟨Artifact.coherent_declare h.coherent hd, fun b hb => h.family b (hblocks ▸ hb)⟩
  · exact h

end Accumulator

mutual
/-- Every accumulator that can be reached is sound. -/
theorem Accumulating.sound : ∀ {acc : Accumulator}, Accumulating acc → acc.Sound
  | _, .start id => Accumulator.sound_start id
  | _, .require role generate h hgen =>
      h.sound.tryRequire fun a hok top htop =>
        (hgen a hok (Artifact.ne_empty htop)).wellFormed top htop
  | _, .external name h => h.sound.tryExternal name

/-- Every artifact that accumulators hand out derives from the name of its last block. -/
theorem Obtained.wellFormed :
    ∀ {a : Artifact}, Obtained a → ∀ top, a.top? = some top → a.WellFormed top.identity
  | _, .finish h hf => fun top htop => by
      obtain ⟨hwf, hlast⟩ := h.sound.wellFormed_finish hf
      rw [hlast] at htop
      cases htop
      exact hwf
end

/--
**Every artifact is closed and ordered, and speaks of one unit only.** Whatever
steps an accumulator went through, refused ones included, what it hands out is
well formed under its own name, and the block finished last is the last one.
-/
theorem accumulated_artifact_wellFormed {acc : Accumulator} (h : Accumulating acc)
    {content : Module} {latency : Nat} {a : Artifact} (hf : acc.finish content latency = .ok a) :
    a.WellFormed acc.id.text ∧ a.top? = some ⟨{ content with name := acc.id.text }, latency⟩ :=
  h.sound.wellFormed_finish hf

/--
One such accumulation: a submodule that cannot be generated, one that can, its
role asked for again, an external that is a block already, and one that is not.
-/
theorem accumulated_artifact_wellFormed_after_refusals :
    let leaf : Identity → Except Error Artifact :=
      fun id => (Accumulator.start id).finish ⟨"", [], []⟩ 1
    let failed :=
      ((Accumulator.start ⟨"m", [], rfl⟩).tryRequire .join fun _ => .error (.unknownKind "k")).2
    let asked := ((failed.tryRequire .inner leaf).2.tryRequire .inner leaf).2
    let acc := ((asked.tryExternal "m_inner").2.tryExternal "ip").2
    let content : Module :=
      ⟨"", [], [.inst ⟨"m_inner", "u", []⟩, .commented "" [.inst ⟨"ip", "v", []⟩]]⟩
    let a : Artifact := ⟨[⟨⟨"m_inner", [], []⟩, 1⟩, ⟨{ content with name := "m" }, 2⟩], ["ip"]⟩
    acc.finish content 2 = .ok a ∧ a.WellFormed "m" ∧
      a.top? = some ⟨{ content with name := "m" }, 2⟩ := by
  intro leaf failed asked acc content a
  have hleaf : ∀ (id : Identity) (b : Artifact), leaf id = .ok b → b ≠ .empty → Obtained b :=
    fun id b hb _ => .finish (.start id) hb
  have hfailed : Accumulating failed := .require .join _ (.start _) (fun b hb => by cases hb)
  have hasked : Accumulating asked :=
    .require .inner leaf (.require .inner leaf hfailed (hleaf _)) (hleaf _)
  have hacc : Accumulating acc := .external "ip" (.external "m_inner" hasked)
  have hf : acc.finish content 2 = .ok a := by decide +kernel
  exact ⟨hf, accumulated_artifact_wellFormed hacc hf⟩

end Handshake
