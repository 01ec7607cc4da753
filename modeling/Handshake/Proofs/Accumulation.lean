import Handshake.Proofs.Feasibility

/-!
# Accumulations in which everything succeeds

A merge could drop a block as a duplicate of one that is there, and it could
refuse a block since another one has its name. Neither happens to the submodules
of one module, however deep they are: the blocks that come with a role bear the
role in their names, roles can be read off names, and each role is asked for
once. So an accumulator *holds* what it was brought, and nothing else (`Holds`):
the blocks of its submodules one after the other, and the externals in the order
of their first mention. What can still go wrong is that a name is a block on one
side and external on the other.
-/

namespace Handshake

/-- Some block of one artifact bears the name of an external of the other. -/
def Artifact.Clashes (a other : Artifact) : Prop :=
  (∃ b ∈ a.blocks, b.identity ∈ other.externals) ∨ ∃ b ∈ other.blocks, b.identity ∈ a.externals

instance (a other : Artifact) : Decidable (a.Clashes other) := inferInstanceAs (Decidable (_ ∨ _))

/-- What a generator asks of its accumulator. -/
inductive Call where
  /-- A submodule. -/
  | require (role : Role) (generate : Identity → Except Error Artifact)
  /-- An external. -/
  | external (name : String)

namespace Call

/--
What a call brings to the module `id`: the artifact of the submodule, or the
name of the external.
-/
def brings (id : Identity) : Call → Artifact
  | .require role generate => (generate (id.child role)).toOption.getD .empty
  | .external name => ⟨[], [name]⟩

/-- The role that a call asks for. -/
def role? : Call → Option Role
  | .require role _ => some role
  | .external _ => none

/-- Submodules come from accumulators, unless they come to nothing. -/
def Public (id : Identity) : Call → Prop
  | .require role generate => ∀ a, generate (id.child role) = .ok a → a ≠ .empty → Obtained a
  | .external _ => True

end Call

namespace Accumulator

/-- Carries out a call. -/
def call (acc : Accumulator) : Call → Except Error Accumulator
  | .require role generate => (acc.require role generate).map Prod.snd
  | .external name => acc.external name

/-- Carries out calls in their order, all of which must succeed. -/
def calls (acc : Accumulator) (cs : List Call) : Except Error Accumulator := cs.foldlM call acc

/-- An accumulator of the module `id` that has been brought some artifacts and nothing else. -/
structure Holds (acc : Accumulator) (id : Identity) (brought : List Artifact) : Prop where
  /-- It is an accumulator of that module. -/
  id_eq : acc.id = id
  /-- It can be reached. -/
  accumulating : Accumulating acc
  /-- Its blocks are those of the artifacts, one after the other. -/
  blocks_eq : acc.artifact.blocks = brought.flatMap Artifact.blocks
  /-- Its externals are those of the artifacts, in the order of their first mention. -/
  externals_eq : acc.artifact.externals = (brought.flatMap Artifact.externals).eraseDups

theorem holds_start (id : Identity) : (start id).Holds id [] := ⟨rfl, .start id, rfl, rfl⟩

section

variable {acc acc' : Accumulator} {id : Identity} {brought : List Artifact}

/-- A call that succeeds is a submodule or an external that was asked for with success. -/
theorem call_cases {c : Call} (h : acc.call c = .ok acc') :
    (∃ role generate dependency, c = .require role generate ∧
      acc.require role generate = .ok (dependency, acc')) ∨
    ∃ name, c = .external name ∧ acc.external name = .ok acc' := by
  cases c with
  | require role generate =>
      cases hr : acc.require role generate with
      | error e =>
          rw [Accumulator.call, hr] at h
          exact absurd h (by simp [Except.map])
      | ok made =>
          rw [Accumulator.call, hr] at h
          obtain rfl : made.2 = acc' := Except.ok.inj h
          exact Or.inl ⟨role, generate, made.1, rfl, hr⟩
  | external name => exact Or.inr ⟨name, rfl, h⟩

/-- A submodule that is asked for with success comes as it is. -/
theorem Holds.require (h : acc.Holds id brought) {role : Role}
    {generate : Identity → Except Error Artifact} {dependency : Dependency}
    (hgen : ∀ a, generate (id.child role) = .ok a → a ≠ .empty → Obtained a)
    (hr : acc.require role generate = .ok (dependency, acc')) :
    acc'.Holds id (brought ++ [(Call.require role generate).brings id]) := by
  obtain ⟨rfl, hacc, hblocks, hexternals⟩ := h
  obtain ⟨sub, top, -, hsub, htop, hname, -, hmerge, hacc', hafter⟩ := require_inv hr
  have hreq :=
    hacc.sound.required hsub ((hgen sub hsub (Artifact.ne_empty htop)).isUnit htop hname) hr
  have hbrings : (Call.require role generate).brings acc.id = sub := by
    rw [Call.brings, hsub]
    rfl
  rw [hbrings]
  refine ⟨hreq.id_eq, hafter ▸ .require role generate hacc hgen, ?_, ?_⟩
  · rw [hreq.blocks_eq, hblocks]
    simp
  · rw [hacc', Artifact.merge_externals hexternals hmerge]
    simp

/-- An external that is declared with success is added. -/
theorem Holds.external (h : acc.Holds id brought) {name : String}
    (he : acc.external name = .ok acc') :
    acc'.Holds id (brought ++ [(Call.external name).brings id]) := by
  obtain ⟨rfl, hacc, hblocks, hexternals⟩ := h
  obtain ⟨a, hd, hacc', hafter⟩ := external_inv he
  have hnext : Accumulating acc' := hafter ▸ .external name hacc
  subst hacc'
  -- declaring one name is declaring a list of one
  have hall : Artifact.addAll Artifact.declare acc.artifact [name] = (.ok (), a) := by
    rw [Artifact.addAll, hd]
    rfl
  have hnames := Artifact.declareAll_externals [name] hexternals (by rw [hall])
  rw [hall] at hnames
  have hsame : a.blocks = acc.artifact.blocks := by
    obtain ⟨-, ⟨-, rfl⟩ | ⟨-, rfl⟩⟩ := Artifact.declare_cases hd <;> rfl
  refine ⟨rfl, hnext, ?_, ?_⟩
  · rw [hsame, hblocks]
    simp [Call.brings]
  · rw [hnames]
    simp [Call.brings]

theorem Holds.call (h : acc.Holds id brought) {c : Call} (hpublic : c.Public id)
    (hcall : acc.call c = .ok acc') : acc'.Holds id (brought ++ [c.brings id]) := by
  rcases call_cases hcall with ⟨role, generate, dependency, rfl, hr⟩ | ⟨name, rfl, he⟩
  · exact h.require hpublic hr
  · exact h.external he

/-- **After calls that all succeed, an accumulator holds what the calls brought.** -/
theorem Holds.calls (h : acc.Holds id brought) {cs : List Call} (hpublic : ∀ c ∈ cs, c.Public id)
    (hcalls : acc.calls cs = .ok acc') : acc'.Holds id (brought ++ cs.map (Call.brings id)) := by
  unfold Accumulator.calls at hcalls
  induction cs generalizing acc brought with
  | nil =>
      obtain rfl : acc = acc' := Except.ok.inj hcalls
      simpa using h
  | cons c rest ih =>
      rw [List.foldlM_cons] at hcalls
      obtain ⟨next, hnext, hrest⟩ := bind_ok hcalls
      rw [List.forall_mem_cons] at hpublic
      simpa using ih (h.call hpublic.1 hnext) hpublic.2 hrest

/-- Each call that asks for a role uses it up. -/
theorem roles_calls {cs : List Call} (hcalls : acc.calls cs = .ok acc') :
    acc'.roles = acc.roles ++ cs.filterMap Call.role? := by
  unfold Accumulator.calls at hcalls
  induction cs generalizing acc with
  | nil =>
      obtain rfl : acc = acc' := Except.ok.inj hcalls
      simp
  | cons c rest ih =>
      rw [List.foldlM_cons] at hcalls
      obtain ⟨next, hnext, hrest⟩ := bind_ok hcalls
      rw [ih hrest]
      rcases call_cases hnext with ⟨role, generate, dependency, rfl, hr⟩ | ⟨name, rfl, he⟩
      · obtain ⟨_, _, -, -, -, -, -, -, rfl, -⟩ := require_inv hr
        simp [Call.role?]
      · obtain ⟨_, -, rfl, -⟩ := external_inv he
        simp [List.filterMap_cons, Call.role?]

/-- The module itself goes to the end. -/
theorem Holds.finish (h : acc.Holds id brought) {content : Module} {latency : Nat} {a : Artifact}
    (hf : acc.finish content latency = .ok a) :
    a.blocks = brought.flatMap Artifact.blocks ++ [⟨{ content with name := id.text }, latency⟩] ∧
      a.externals = (brought.flatMap Artifact.externals).eraseDups := by
  obtain ⟨hblocks, hexternals, -, -⟩ := h.accumulating.sound.finish_ok hf
  rw [hblocks, hexternals, h.blocks_eq, h.externals_eq, h.id_eq]
  exact ⟨rfl, rfl⟩

/--
**A submodule is refused if its role was asked for or its names clash, and for
no other reason.**
-/
theorem Sound.require_error_iff (h : acc.Sound) {role : Role}
    {generate : Identity → Except Error Artifact} {sub : Artifact}
    (hgen : generate (acc.id.child role) = .ok sub) (hunit : sub.IsUnit (acc.id.child role).text) :
    (∃ e, acc.require role generate = .error e) ↔ role ∈ acc.roles ∨ acc.artifact.Clashes sub := by
  constructor
  · rintro ⟨e, he⟩
    by_contra hnone
    obtain ⟨hrole, hclash⟩ := not_or.mp hnone
    obtain ⟨hthere, hhere⟩ := not_or.mp hclash
    obtain ⟨dependency, acc', hok, -⟩ := require_new role generate h hrole hgen hunit
      (fun b hb hin => hhere ⟨b, hb, hin⟩)
      (fun e he hin => by
        obtain ⟨b, hb, rfl⟩ := List.mem_map.mp hin
        exact hthere ⟨b, hb, he⟩)
    rw [he] at hok
    exact absurd hok (by simp)
  · intro hbad
    cases hr : acc.require role generate with
    | error e => exact ⟨e, rfl⟩
    | ok made =>
        -- what a merge leaves behind has no name that is a block and external
        have hreq := h.required hgen hunit hr
        have hapart := hreq.sound.coherent.apart
        rw [hreq.blocks_eq] at hapart
        rcases hbad with hrole | ⟨b, hb, hin⟩ | ⟨b, hb, hin⟩
        · exact absurd hrole hreq.unasked
        · exact absurd ((hreq.externals_iff _).mpr (Or.inr hin))
            (hapart b (List.mem_append_left _ hb))
        · exact absurd ((hreq.externals_iff _).mpr (Or.inl hin))
            (hapart b (List.mem_append_right _ hb))

end

end Accumulator

/--
**Accumulation loses nothing and merges nothing.** If all calls succeed, the
artifact handed out has the blocks of the submodules in the order of the calls,
then the module itself, and the externals in the order of their first mention.
In every accumulator, whatever its history, a submodule is refused exactly if
its role was asked for before or a name is a block on one side and external on
the other; its blocks are new there, and if it is accepted all of them are
appended.
-/
theorem accumulation_loses_nothing :
    (∀ (id : Identity) (cs : List Call) (acc : Accumulator), (∀ c ∈ cs, c.Public id) →
      (Accumulator.start id).calls cs = .ok acc →
      Accumulating acc ∧ acc.roles = cs.filterMap Call.role? ∧
      ∀ (content : Module) (latency : Nat) (a : Artifact), acc.finish content latency = .ok a →
        a.blocks = cs.flatMap (fun c => (c.brings id).blocks) ++
        [⟨{ content with name := id.text }, latency⟩] ∧
        a.externals = (cs.flatMap fun c => (c.brings id).externals).eraseDups) ∧
    ∀ (acc : Accumulator) (role : Role) (generate : Identity → Except Error Artifact)
      (sub : Artifact) (top : Block),
      Accumulating acc → generate (acc.id.child role) = .ok sub → Obtained sub →
      sub.top? = some top →
      top.identity = (acc.id.child role).text →
      ((∃ e, acc.require role generate = .error e) ↔ role ∈ acc.roles ∨ acc.artifact.Clashes sub) ∧
      (role ∉ acc.roles → ∀ b ∈ sub.blocks, b.identity ∉ acc.artifact.blocks.map Block.identity) ∧
      ∀ dependency acc', acc.require role generate = .ok (dependency, acc') →
        acc'.artifact.blocks = acc.artifact.blocks ++ sub.blocks := by
  refine ⟨fun id cs acc hpublic hcalls => ?_,
    fun acc role generate sub top hacc hgen hsub htop hname => ?_⟩
  · have hholds := (Accumulator.holds_start id).calls hpublic hcalls
    refine ⟨hholds.accumulating, Accumulator.roles_calls hcalls, fun content latency a hf => ?_⟩
    simpa [List.flatMap_map] using hholds.finish hf
  · have hunit := hsub.isUnit htop hname
    exact ⟨hacc.sound.require_error_iff hgen hunit,
      fun hrole => hacc.sound.fresh_child hrole hunit.wellFormed,
      fun dependency acc' hr => (hacc.sound.required hgen hunit hr).blocks_eq⟩

/--
Two submodules that need the same externals, one of which the module has
declared itself. After that, the role of the first is used up, and a submodule
for another role would still be accepted.
-/
theorem accumulation_loses_nothing_shared_externals :
    let sub : Identity → Except Error Artifact := fun id => do
      let acc ← (Accumulator.start id).external "core"
      let acc ← acc.external "ip"
      acc.finish ⟨"", [], [.inst ⟨"core", "c", []⟩]⟩ 1
    let cs : List Call := [.external "ip", .require .inner sub, .require .buff sub]
    let content : Module := ⟨"", [], [.inst ⟨"m_inner", "u", []⟩, .inst ⟨"m_buff", "v", []⟩]⟩
    ∃ acc a, (Accumulator.start ⟨"m", [], rfl⟩).calls cs = .ok acc ∧ acc.finish content 2 = .ok a ∧
      a.blocks.map Block.identity = ["m_inner", "m_buff", "m"] ∧ a.externals = ["ip", "core"] ∧
      (∃ e, acc.require .inner sub = .error e) ∧ ¬ ∃ e, acc.require .join sub = .error e := by
  intro sub cs content
  let id : Identity := ⟨"m", [], rfl⟩
  let made : Role → Artifact := fun role =>
    ⟨[⟨⟨(id.child role).text, [], [.inst ⟨"core", "c", []⟩]⟩, 1⟩], ["core", "ip"]⟩
  let acc : Accumulator :=
    ⟨id, [.inner, .buff], ⟨(made .inner).blocks ++ (made .buff).blocks, ["ip", "core"]⟩⟩
  have hmade : ∀ role, sub (id.child role) = .ok (made role) := by
    intro role
    cases role <;> decide +kernel
  have hobtained : ∀ (id : Identity) (b : Artifact), sub id = .ok b → Obtained b := by
    intro id b hb
    obtain ⟨acc, hcore, hb⟩ := bind_ok hb
    obtain ⟨acc', hip, hb⟩ := bind_ok hb
    obtain ⟨_, -, -, rfl⟩ := Accumulator.external_inv hcore
    obtain ⟨_, -, -, rfl⟩ := Accumulator.external_inv hip
    exact .finish (.external "ip" (.external "core" (.start id))) hb
  have hpublic : ∀ c ∈ cs, c.Public id := by
    simp only [cs, List.forall_mem_cons]
    exact ⟨trivial, fun b hb _ => hobtained _ b hb, fun b hb _ => hobtained _ b hb, by simp⟩
  have hcalls : (Accumulator.start id).calls cs = .ok acc := by decide +kernel
  have hf : acc.finish content 2 =
      .ok ⟨acc.artifact.blocks ++ [⟨{ content with name := "m" }, 2⟩], ["ip", "core"]⟩ := by
        decide +kernel
  obtain ⟨hall, hrefused⟩ := accumulation_loses_nothing
  obtain ⟨hacc, -, hfinish⟩ := hall id cs acc hpublic hcalls
  obtain ⟨hblocks, hexternals⟩ := hfinish content 2 _ hf
  have hiff :=
    fun role => (hrefused acc role sub _ _ hacc (hmade role) (hobtained _ _ (hmade role)) rfl rfl).1
  refine ⟨acc, _, hcalls, hf, ?_, hexternals.trans (by decide +kernel), ?_, ?_⟩
  · rw [hblocks]
    decide +kernel
  · exact (hiff .inner).mpr (Or.inl (by decide))
  · rw [hiff .join]
    decide +kernel

end Handshake
