import Handshake.Proofs.Declarations

/-!
# When generators succeed

A generator can stop in many places: a role is asked for twice, a name is taken,
a reference is dangling, two latencies differ, two ports have one name. Most of
this never happens to the units of the catalogue. Their submodules are asked for
under different roles, so what they bring along is new; they instantiate what
they have required; and their latencies are the depths of their pipelines. What
remains are extra signals that take the name of a handshake signal, a bus that
is too wide, and a unit that is called like one of the cores it needs.

Every lemma on a step says that it succeeds, next to the lemma of `Assembly` or
`Generated` that says what it then gives.
-/

namespace Handshake

/-! ## Steps that succeed -/

namespace Artifact

theorem insert_new {a : Artifact} {b : Block} (hnew : b.identity ∉ a.blocks.map Block.identity)
    (hext : b.identity ∉ a.externals) : a.insert b = .ok { a with blocks := a.blocks ++ [b] } := by
  unfold insert
  rw [get?_eq_none_iff.mpr hnew]
  dsimp only
  rw [if_neg (by simpa using hext)]

theorem declare_new {a : Artifact} {name : String} (h : name ∉ a.blocks.map Block.identity) :
    a.declare name = .ok (a.addExternal name) := by
  unfold declare
  rw [get?_eq_none_iff.mpr h]
  rfl

theorem addExternal_blocks (a : Artifact) (name : String) :
    (a.addExternal name).blocks = a.blocks := by
  unfold addExternal
  split <;> rfl

/-- Two artifacts can be merged if no block of the one bears a name of the other. -/
theorem merge_new {a other : Artifact} (ho : Coherent other)
    (hblocks : ∀ b ∈ other.blocks, b.identity ∉ a.blocks.map Block.identity)
    (hhere : ∀ b ∈ other.blocks, b.identity ∉ a.externals)
    (hthere : ∀ e ∈ other.externals, e ∉ a.blocks.map Block.identity) :
    (a.merge other).1 = .ok () := by
  rw [merge_eq ho hblocks]
  exact outcome_eq_ok.mpr (refused?_eq_none.mpr ⟨hthere, hhere⟩)

end Artifact

namespace Accumulator

/-- A submodule for a role that has not been asked for, if its names are new to the accumulator. -/
theorem require_new {acc : Accumulator} (role : Role) (generate : Identity → Except Error Artifact)
    {sub : Artifact} (h : acc.Sound) (hrole : role ∉ acc.roles)
    (hgen : generate (acc.id.child role) = .ok sub) (hunit : sub.IsUnit (acc.id.child role).text)
    (hhere : ∀ b ∈ sub.blocks, b.identity ∉ acc.artifact.externals)
    (hthere : ∀ e ∈ sub.externals, e ∉ acc.artifact.blocks.map Block.identity) :
    ∃ dependency acc', acc.require role generate = .ok (dependency, acc') ∧
      Required acc role sub dependency acc' := by
  have hmerge := Artifact.merge_new hunit.wellFormed.toCoherent
    (h.fresh_child hrole hunit.wellFormed) hhere hthere
  have hok : ∃ dependency acc', acc.require role generate = .ok (dependency, acc') := by
    obtain ⟨top, htop, hname⟩ := hunit.top
    unfold require Accumulator.tryRequire
    dsimp only
    rw [if_neg (by simpa using hrole), hgen]
    dsimp only
    unfold Accumulator.absorb
    rw [htop]
    dsimp only
    rw [if_pos hname]
    dsimp only
    rw [hmerge]
    exact ⟨_, _, rfl⟩
  obtain ⟨dependency, acc', hok⟩ := hok
  exact ⟨dependency, acc', hok, h.required hgen hunit hok⟩

theorem external_new {acc : Accumulator} {name : String}
    (h : name ∉ acc.artifact.blocks.map Block.identity) :
    acc.external name = .ok { acc with artifact := acc.artifact.addExternal name } := by
  unfold external Accumulator.tryExternal
  rw [Artifact.declare_new h]
  rfl

theorem externals_new {acc : Accumulator} (names : List String)
    (h : ∀ e ∈ names, e ∉ acc.artifact.blocks.map Block.identity) :
    ∃ acc', names.foldlM Accumulator.external acc = .ok acc' := by
  induction names generalizing acc with
  | nil => exact ⟨acc, rfl⟩
  | cons name rest ih =>
      rw [List.foldlM_cons, external_new (h name List.mem_cons_self), ok_bind]
      refine ih fun e he => ?_
      rw [Artifact.addExternal_blocks]
      exact h e (List.mem_cons_of_mem _ he)

/-- A module can be finished if what it instantiates is there, and its own name is not external. -/
theorem finish_new {acc : Accumulator} {content : Module} {latency : Nat} (h : acc.Sound)
    (hext : acc.id.text ∉ acc.artifact.externals)
    (hresolved : ∀ i ∈ Item.instancesOf content.items,
      i.moduleName ∈ acc.artifact.blocks.map Block.identity ∨
        i.moduleName ∈ acc.artifact.externals) :
    ∃ a, acc.finish content latency = .ok a := by
  have hnone : acc.artifact.unresolved? ⟨{ content with name := acc.id.text }, latency⟩ = none := by
    refine List.find?_eq_none.mpr fun name hname => ?_
    obtain ⟨i, hi, rfl⟩ := Module.mem_instantiated.mp hname
    have hdefines : acc.artifact.defines i.moduleName = true :=
      Artifact.defines_iff.mpr (hresolved i hi)
    simp [hdefines]
  unfold finish Artifact.define
  rw [hnone]
  exact ⟨_, Artifact.insert_new h.not_own hext⟩

theorem finish_leaf_new (id : Identity) {content : Module} (latency : Nat)
    (h : Item.instancesOf content.items = []) : ∃ a, (start id).finish content latency = .ok a :=
  finish_new (sound_start id) (by simp [start, Artifact.empty]) (by simp [h])

/-- A submodule of one block, for a role that has not been asked for. -/
theorem require_leaf_new {acc : Accumulator} (role : Role) {content : Module} (latency : Nat)
    (h : acc.Sound) (hleaf : Item.instancesOf content.items = []) (hrole : role ∉ acc.roles)
    (hhere : derived acc.id.text [role] ∉ acc.artifact.externals) :
    ∃ dependency acc', acc.require role (fun id => (start id).finish content latency) =
      .ok (dependency, acc') ∧
      acc'.roles = acc.roles ++ [role] := by
  obtain ⟨sub, hsub⟩ := finish_leaf_new (acc.id.child role) latency hleaf
  obtain ⟨hblocks, hexternals, -, hunit⟩ := finish_start hsub
  have hname : ∀ b ∈ sub.blocks, b.identity ∉ acc.artifact.externals := by
    intro b hb
    rw [hblocks, List.mem_singleton, acc.id.text_child_eq role] at hb
    exact hb ▸ hhere
  obtain ⟨dependency, acc', hok, hreq⟩ := require_new role
    (fun id => (start id).finish content latency) h hrole hsub
    hunit hname (by simp [hexternals])
  exact ⟨dependency, acc', hok, hreq.roles_eq⟩

end Accumulator

/-! ## Units without extra signals -/

open Accumulator

theorem instancesOf_join (size : Nat) : Item.instancesOf (Join.body size).items = [] := rfl

theorem instancesOf_priorityMerge (size width : Nat) :
    Item.instancesOf (PriorityMerge.body size width).items = [] :=
  rfl

theorem instancesOf_readyBreak (width : Nat) :
    Item.instancesOf (ReadyBreak.body width).items = [] := by
  unfold ReadyBreak.body ifData
  split <;> rfl

theorem instancesOf_dataBreak (width : Nat) :
    Item.instancesOf (DataBreak.body width).items = [] := by
  unfold DataBreak.body ifData
  split <;> rfl

theorem instancesOf_delayBuffer (slots : Nat) :
    Item.instancesOf (DelayBuffer.body slots).items = [] := by
  unfold DelayBuffer.body anonymous
  split <;> rfl

theorem instancesOf_delayLine (line : DelayLine) : Item.instancesOf line.body.items = [] := by
  unfold DelayLine.body anonymous ifData
  split
  · rfl
  · split <;> rfl

theorem Merge.generate_new (size : Nat) (id : Identity) (width : Nat) :
    ∃ a, Merge.generate size id width = .ok a ∧ a.IsUnit id.text ∧ a.externals = [] := by
  obtain ⟨inner, acc₁, hinner, hroles₁⟩ := require_leaf_new .inner 0 (sound_start id)
    (instancesOf_priorityMerge size width) (by simp [start]) (by simp [start, Artifact.empty])
  obtain ⟨hname₁, -, hid₁, hblocks₁, hext₁, hsound₁⟩ := (sound_start id).require_leaf hinner
  have hnone₁ : acc₁.artifact.externals = [] := externals_eq_nil hext₁
  obtain ⟨output, acc₂, houtput, -⟩ := require_leaf_new .oneSlotBreakR 0 hsound₁
    (instancesOf_readyBreak width)
    (by rw [hroles₁]; simp [start]) (by rw [hnone₁]; exact List.not_mem_nil)
  obtain ⟨hname₂, -, hid₂, hblocks₂, hext₂, hsound₂⟩ := hsound₁.require_leaf houtput
  have hnone₂ : acc₂.artifact.externals = [] := externals_eq_nil fun e => by rw [hext₂, hext₁]; rfl
  -- the two instances are the two submodules
  have hresolved : ∀ i ∈ Item.instancesOf (Merge.body inner.name output.name size width).items,
      i.moduleName ∈ acc₂.artifact.blocks.map Block.identity ∨
        i.moduleName ∈ acc₂.artifact.externals := by
    intro i hi
    refine Or.inl ?_
    rw [hblocks₂, hblocks₁]
    simp only [Merge.body, anonymous, Item.instancesOf, Item.instances, List.nil_append,
      List.singleton_append, List.mem_cons, List.not_mem_nil, or_false] at hi
    rcases hi with rfl | rfl
    · simp [Merge.mergeInstance, hname₁, Block.identity]
    · simp [Merge.bufferInstance, hname₂, Block.identity]
  obtain ⟨a, ha⟩ := finish_new hsound₂ (by simp [hnone₂]) hresolved
  have hgen : Merge.generate size id width = .ok a :=
    bind_eq_ok_iff.mpr ⟨_, hinner, bind_eq_ok_iff.mpr ⟨_, houtput, ha⟩⟩
  exact ⟨a, hgen, (Merge.generate_ok hgen).2, (hsound₂.finish_ok ha).2.1.trans hnone₂⟩

/-- The control of an operator, under roles that have not been asked for. -/
theorem Operator.control_new {acc : Accumulator} (latency : Nat) (h : acc.Sound)
    (hroles : .join ∉ acc.roles ∧ .buff ∉ acc.roles ∧ .oneSlotBreakDv ∉ acc.roles)
    (hext : acc.artifact.externals = []) : ∃ r, Operator.control acc latency = .ok r := by
  obtain ⟨hjoin, hbuff, hout⟩ := hroles
  unfold Operator.control
  obtain ⟨join, acc₁, h₁, hroles₁⟩ :=
    require_leaf_new .join 0 h (instancesOf_join 2) hjoin (by simp [hext])
  obtain ⟨-, -, -, -, hext₁, hsound₁⟩ := h.require_leaf h₁
  obtain ⟨delay, acc₂, h₂, hroles₂⟩ := require_leaf_new .buff (latency - 1) hsound₁
    (instancesOf_delayBuffer (latency - 1)) (by simp [hroles₁, hbuff]) (by simp [hext₁, hext])
  obtain ⟨-, -, -, -, hext₂, hsound₂⟩ := hsound₁.require_leaf h₂
  obtain ⟨output, acc₃, h₃, -⟩ := require_leaf_new .oneSlotBreakDv 1 hsound₂
    (instancesOf_dataBreak 0) (by simp [hroles₂, hroles₁, hout]) (by simp [hext₂, hext₁, hext])
  exact exists_bind_ok.mpr ⟨_, h₁, exists_bind_ok.mpr ⟨_, h₂, exists_bind_ok.mpr ⟨_, h₃, _, rfl⟩⟩⟩

theorem Multiplier.generate_new (width : Nat) (id : Identity) :
    ∃ a, Multiplier.generate id width = .ok a := by
  have hleaf : Item.instancesOf (coreBody width).items = [] := rfl
  obtain ⟨core, acc₁, hcore, hroles₁⟩ := require_leaf_new .mul4Stage Multiplier.latency
    (sound_start id) hleaf
    (by simp [start]) (by simp [start, Artifact.empty])
  obtain ⟨hname₁, hlat₁, hid₁, hblocks₁, hext₁, hsound₁⟩ := (sound_start id).require_leaf hcore
  have hnone : acc₁.artifact.externals = [] := externals_eq_nil hext₁
  obtain ⟨⟨items, depth, acc₂⟩, hcontrol⟩ := Operator.control_new Multiplier.latency hsound₁
    (by rw [hroles₁]; simp [start]) hnone
  obtain ⟨hitems, hdepth, hid₂, hblocks₂, hext₂, hsound₂⟩ := Operator.control_ok hsound₁ hcontrol
  unfold Multiplier.generate
  refine exists_bind_ok.mpr ⟨_, hcore, exists_bind_ok.mpr ⟨_, hcontrol, ?_⟩⟩
  dsimp only
  rw [if_neg (by rw [hlat₁, hdepth]; decide)]
  refine finish_new hsound₂ ?_ ?_
  · intro hin
    rw [hext₂, hnone] at hin
    exact absurd hin List.not_mem_nil
  · intro i hi
    refine Or.inl ?_
    rw [hblocks₂, hblocks₁]
    simp only [anonymous, hitems, Operator.controlItems, Item.instancesOf, Item.instances,
      List.cons_append, List.nil_append, List.mem_cons, List.not_mem_nil, or_false] at hi
    rcases hi with rfl | rfl | rfl | rfl
    · simp [Operator.joinInstance, Block.identity]
    · simp [Operator.delayInstance, Block.identity]
    · simp [Operator.outputInstance, Block.identity]
    · simp [coreInstance, hname₁, Block.identity]

/-- The modules that a floating-point operator needs from outside. -/
def FloatOperator.externals (op : FloatOperator) (p : Precision) : List String :=
  [inputConverter p, outputConverter p, op.core p]

/-- No such module is called like a submodule, whose name ends in an underscore and a token. -/
theorem FloatOperator.external_ne_derived {op : FloatOperator} {p : Precision} {e : String}
    (he : e ∈ op.externals p) (top : String) {roles : List Role} (hroles : roles ≠ []) :
    e ≠ derived top roles := by
  obtain ⟨path, role, rfl⟩ := List.eq_nil_or_concat roles |>.resolve_left hroles
  intro heq
  have hend : ('_' :: role.token.toList) <:+ e.toList := by
    rw [heq, toList_derived, rolePath, List.concat_eq_append, List.flatMap_append,
      ← List.append_assoc, List.flatMap_singleton]
    exact List.suffix_append _ _
  have hnever : ∀ (op : FloatOperator) (p : Precision) (role : Role), ∀ e ∈ op.externals p,
      ¬ ('_' :: role.token.toList) <:+ e.toList := by
    intro op p role
    cases op <;> cases p <;> cases role <;> decide
  exact hnever op p role e he hend

/--
A floating-point operator is generated unless it is called like a module that it
needs from outside.
-/
theorem FloatOperator.exists_generate_iff {op : FloatOperator} {p : Precision} {id : Identity} :
    (∃ a, op.generate p id = .ok a) ↔ id.text ∉ op.externals p := by
  constructor
  · rintro ⟨a, ha⟩ hin
    obtain ⟨-, hext, hunit⟩ := FloatOperator.generate_ok ha
    obtain ⟨top, htop, hname⟩ := hunit.top
    exact hunit.wellFormed.apart top (List.mem_of_getLast? htop) (hname ▸ (hext _).mpr hin)
  · intro hname
    obtain ⟨⟨items, depth, acc₁⟩, hcontrol⟩ := Operator.control_new (op.latency p) (sound_start id)
      (by simp [start]) rfl
    obtain ⟨hitems, hdepth, hid₁, hblocks₁, hext₁, hsound₁⟩ :=
      Operator.control_ok (sound_start id) hcontrol
    -- roles give names that no external module has, so declaring these cannot fail
    have hapart : ∀ e ∈ op.externals p, e ∉ acc₁.artifact.blocks.map Block.identity := by
      intro e he hin
      obtain ⟨b, hb, rfl⟩ := List.mem_map.mp hin
      obtain ⟨role, -, roles, hderived⟩ := hsound₁.family b hb
      exact external_ne_derived he _ (List.cons_ne_nil role roles) hderived
    obtain ⟨acc₂, hexternals⟩ := externals_new _ hapart
    obtain ⟨hid₂, hblocks₂, hext₂, hsound₂⟩ := hsound₁.externals_ok _ hexternals
    have hid : acc₂.id = id := hid₂.trans hid₁
    unfold FloatOperator.generate
    refine exists_bind_ok.mpr
      ⟨_, hcontrol, exists_bind_ok.mpr ⟨_, hexternals, finish_new hsound₂ ?_ ?_⟩⟩
    · rw [hid, hext₂, hext₁]
      simpa [start, Artifact.empty] using hname
    · intro i hi
      rw [hblocks₂, hblocks₁, hext₂]
      simp only [anonymous, Item.instancesOf_append, List.mem_append, hitems] at hi
      rcases hi with hi | hi
      · -- the parts of the control are blocks that were taken in
        refine Or.inl ?_
        simp only [Operator.controlItems, Item.instancesOf, Item.instances, List.nil_append,
          List.singleton_append, List.mem_cons, List.not_mem_nil, or_false] at hi
        rcases hi with rfl | rfl | rfl
        · simp [Operator.joinInstance, Block.identity]
        · simp [Operator.delayInstance, Block.identity]
        · simp [Operator.outputInstance, Block.identity]
      · -- converters and core are external
        refine Or.inr (Or.inr ?_)
        have hcores : ∀ (op : FloatOperator) (p : Precision),
            ∀ i ∈ Item.instancesOf (op.datapath p),
            i.moduleName ∈ op.externals p := by
          intro op p
          cases op <;> cases p <;> decide
        exact hcores op p i hi

/-! ## Ports of wrappers -/

/-- No extra signal takes the name of a handshake signal. -/
def ExtraSignals.CollisionFree (extra : ExtraSignals) : Prop :=
  ∀ s ∈ extra.signals, s.name ≠ "valid" ∧ s.name ≠ "ready"

theorem checkDistinct_ok_iff {seen names : List String} :
    checkDistinct seen names = .ok () ↔ names.Nodup ∧ ∀ name ∈ names, name ∉ seen := by
  refine ⟨checkDistinct_ok, ?_⟩
  rintro ⟨hnodup, hnew⟩
  induction names generalizing seen with
  | nil => rfl
  | cons name rest ih =>
      rw [List.nodup_cons] at hnodup
      have hname : name ∉ seen := hnew name List.mem_cons_self
      unfold checkDistinct
      rw [if_neg (by simpa using hname)]
      refine ih hnodup.2 fun other hother hin => ?_
      rcases List.mem_cons.mp hin with rfl | hin
      · exact hnodup.1 hother
      · exact hnew other (List.mem_cons_of_mem _ hother) hin

/--
The ports of a group have distinct names unless an extra signal takes that of a
handshake signal.
-/
theorem PortGroup.nodup_names_iff {g : PortGroup} {direction : Direction} :
    ((g.ports direction).map Port.name).Nodup ↔ g.extra.CollisionFree := by
  have hnames : (g.ports direction).map Port.name =
      (if 0 < g.width then [g.name] else []) ++
        (g.extra.signals.map (fun s => g.name ++ "_" ++ s.name) ++
          [g.name ++ "_" ++ "valid", g.name ++ "_" ++ "ready"]) := by
    unfold PortGroup.ports PortGroup.extraName PortGroup.valid PortGroup.ready
    split <;> simp [String.append_assoc, Function.comp_def]
  have hinj : ∀ x y : String, g.name ++ "_" ++ x = g.name ++ "_" ++ y ↔ x = y :=
    fun x y => String.append_right_inj (g.name ++ "_")
  -- no other port is called like the payload, being longer
  have hlonger : ∀ x : String, g.name ≠ g.name ++ "_" ++ x := by
    intro x h
    have := congrArg String.length h
    simp only [String.length_append] at this
    have hone : "_".length = 1 := rfl
    omega
  have hsignals : (g.extra.signals.map fun s => g.name ++ "_" ++ s.name).Nodup := by
    have := g.extra.declarable.2.map (f := fun x => g.name ++ "_" ++ x) fun x y h => (hinj x y).mp h
    rwa [List.map_map] at this
  have hpayload : (if 0 < g.width then [g.name] else []).Nodup := by split <;> simp
  have hapart : ∀ name ∈ (if 0 < g.width then [g.name] else []), ∀ other ∈
      g.extra.signals.map (fun s => g.name ++ "_" ++ s.name) ++
      [g.name ++ "_" ++ "valid", g.name ++ "_" ++ "ready"],
      name ≠ other := by
    intro name hname other hother
    have hself : name = g.name := by
      split at hname
      · exact List.mem_singleton.mp hname
      · exact absurd hname List.not_mem_nil
    have hmore : ∃ x, other = g.name ++ "_" ++ x := by
      simp only [List.mem_append, List.mem_map, List.mem_cons, List.not_mem_nil, or_false] at hother
      rcases hother with ⟨s, -, rfl⟩ | rfl | rfl
      · exact ⟨_, rfl⟩
      · exact ⟨_, rfl⟩
      · exact ⟨_, rfl⟩
    obtain ⟨x, rfl⟩ := hmore
    exact hself ▸ hlonger x
  -- what is left open is whether a signal is called like a bit of the handshake
  rw [hnames, List.nodup_append]
  simp only [hpayload, true_and]
  rw [and_iff_left hapart, List.nodup_append]
  constructor
  · rintro ⟨-, -, hdisjoint⟩ s hs
    have hmem : g.name ++ "_" ++ s.name ∈ g.extra.signals.map fun s => g.name ++ "_" ++ s.name :=
      List.mem_map_of_mem hs
    refine ⟨fun h => ?_, fun h => ?_⟩
    · exact hdisjoint _ hmem (g.name ++ "_" ++ "valid") (by simp) (by rw [h])
    · exact hdisjoint _ hmem (g.name ++ "_" ++ "ready") (by simp) (by rw [h])
  · intro hfree
    refine ⟨hsignals, by simp [hinj], ?_⟩
    intro name hname other hother heq
    obtain ⟨s, hs, rfl⟩ := List.mem_map.mp hname
    obtain ⟨hvalid, hready⟩ := hfree s hs
    simp only [List.mem_cons, List.not_mem_nil, or_false] at hother
    rcases hother with rfl | rfl
    · exact hvalid ((hinj _ _).mp heq)
    · exact hready ((hinj _ _).mp heq)

namespace Manager

/-- Neither of two names begins with the other. -/
def Unrelated (x y : String) : Prop := ¬ x.toList <+: y.toList ∧ ¬ y.toList <+: x.toList

instance (x y : String) : Decidable (Unrelated x y) := inferInstanceAs (Decidable (_ ∧ _))

/-- Names that begin with unrelated names are different. -/
theorem Unrelated.ne {x y name other : String} (h : Unrelated x y) (hx : x.toList <+: name.toList)
    (hy : y.toList <+: other.toList) : name ≠ other := by
  rintro rfl
  rcases List.prefix_or_prefix_of_prefix hx hy with hp | hp
  · exact h.1 hp
  · exact h.2 hp

/--
The ports of a wrapper have distinct names, if those of its groups are
unrelated, unless an extra signal takes the name of a handshake signal.
-/
theorem nodup_outerPorts_iff {ins outs : List PortGroup}
    (hgroups : (["clk", "rst"] ++ (ins ++ outs).map PortGroup.name).Pairwise Unrelated) :
    ((outerPorts ins outs).map Port.name).Nodup ↔ ∀ g ∈ ins ++ outs, g.extra.CollisionFree := by
  rw [List.pairwise_append, List.pairwise_map] at hgroups
  obtain ⟨-, hpairs, hclock⟩ := hgroups
  have hnames : (outerPorts ins outs).map Port.name =
      ["clk", "rst"] ++ (ins ++ outs).flatMap fun g => (g.ports .input).map Port.name := by
    have hdirection : ∀ g : PortGroup,
        (g.ports .output).map Port.name = (g.ports .input).map Port.name := by
      intro g
      unfold PortGroup.ports
      split <;> simp
    simp [outerPorts, clockPorts, Port.input, List.map_flatMap, hdirection]
  rw [hnames, List.nodup_append, List.nodup_flatMap]
  constructor
  · rintro ⟨-, ⟨hall, -⟩, -⟩ g hg
    exact PortGroup.nodup_names_iff.mp (hall g hg)
  · intro hfree
    refine ⟨by decide, ⟨fun g hg => PortGroup.nodup_names_iff.mpr (hfree g hg), ?_⟩, ?_⟩
    · refine hpairs.imp fun {g h} hunrelated name hg hh => ?_
      exact hunrelated.ne (PortGroup.names_start hg) (PortGroup.names_start hh) rfl
    · intro name hname other hother
      obtain ⟨g, hg, hother⟩ := List.mem_flatMap.mp hother
      exact (hclock name hname g.name (List.mem_map_of_mem hg)).ne (List.prefix_refl _)
        (PortGroup.names_start hother)

theorem validateAll_ok {groups : List PortGroup} {extra : ExtraSignals}
    (hextra : ∀ g ∈ groups, g.extra = extra) (hsize : ∀ g ∈ groups, g.size ≠ some 0) :
    groups.forM (fun g => g.validate extra) = .ok () := by
  induction groups with
  | nil => rfl
  | cons g rest ih =>
      have hg : g.validate extra = .ok () := by
        unfold PortGroup.validate
        rw [if_neg (hsize g List.mem_cons_self), if_pos (hextra g List.mem_cons_self)]
      have hrest := ih (fun h hh => hextra h (List.mem_cons_of_mem _ hh)) fun h hh =>
        hsize h (List.mem_cons_of_mem _ hh)
      show (g.validate extra >>= fun _ => rest.forM fun g => g.validate extra) = .ok ()
      rw [hg, ok_bind, hrest]

/-- Groups that all carry the unit's extra signals are refused only for the names of these. -/
theorem checkPortGroups_ok_iff {ins outs : List PortGroup} {extra : ExtraSignals}
    (hgroups : (["clk", "rst"] ++ (ins ++ outs).map PortGroup.name).Pairwise Unrelated)
    (hne : ins ++ outs ≠ []) (hextra : ∀ g ∈ ins ++ outs, g.extra = extra)
    (hsize : ∀ g ∈ ins ++ outs, g.size ≠ some 0) :
    checkPortGroups ins outs extra = .ok () ↔ extra.CollisionFree := by
  unfold checkPortGroups checkPorts
  rw [validateAll_ok hextra hsize, ok_bind, checkDistinct_ok_iff, nodup_outerPorts_iff hgroups,
    and_iff_left (by simp)]
  constructor
  · intro h
    obtain ⟨g, hg⟩ := List.exists_mem_of_ne_nil _ hne
    exact hextra g hg ▸ h g hg
  · intro h g hg
    exact hextra g hg ▸ h

/--
A unit that hands its tokens on is wrapped if the names of its extra signals are
free and the bus is not too wide.
-/
theorem exists_concat_iff {id : Identity} {width : Nat} {size : Option Nat} {extra : ExtraSignals}
    {generateInner : Identity → Nat → Except Error Artifact} (hsize : size ≠ some 0)
    (hgen : ∀ id width, ∃ sub, generateInner id width = .ok sub ∧ sub.IsUnit id.text ∧
      sub.externals = []) :
    (∃ a, concat id [⟨"ins", width, extra, size⟩] [⟨"outs", width, extra, none⟩] extra
      generateInner = .ok a) ↔
      extra.CollisionFree ∧ width + extra.totalWidth < countLimit := by
  have hcheck : checkPortGroups [⟨"ins", width, extra, size⟩] [⟨"outs", width, extra, none⟩]
      extra = .ok () ↔
      extra.CollisionFree := by
    refine checkPortGroups_ok_iff ?_ (by simp) ?_ ?_
    · show (["clk", "rst", "ins", "outs"] : List String).Pairwise Unrelated
      decide
    · simp
    · simp [hsize]
  constructor
  · rintro ⟨a, ha⟩
    obtain ⟨_, _, _, _, hports, hwidth, -⟩ := concat_ok (fun w sub _ hsub => by
      obtain ⟨sub', hsub', hunit, -⟩ := hgen (id.child .inner) w
      rw [hsub', Except.ok.injEq] at hsub
      exact hsub ▸ hunit.wellFormed_top) ha
    refine ⟨hcheck.mp hports, ?_⟩
    unfold combinedWidth at hwidth
    split at hwidth
    · assumption
    · exact absurd hwidth (by simp)
  · rintro ⟨hfree, hfits⟩
    obtain ⟨hwidth, layout, hlayout⟩ := layout_ok hfits
    obtain ⟨sub, hsub, hunit, hexternals⟩ := hgen (id.child .inner) (width + extra.totalWidth)
    obtain ⟨inner, acc, hinner, hreq⟩ := require_new .inner
      (fun innerId => generateInner innerId (width + extra.totalWidth))
      (sound_start id) (by simp [start]) hsub hunit (by simp [start, Artifact.empty])
      (by simp [hexternals])
    have hlaid : ∀ g : PortGroup, g.width = width → g.extra = extra →
        [g].mapM layOut = .ok [(g, layout)] :=
      fun g hg hg' => layOut_same hlayout (List.forall_mem_singleton.mpr ⟨hg, hg'⟩)
    unfold concat
    dsimp only
    refine exists_bind_ok.mpr
      ⟨(), hcheck.mpr hfree, exists_bind_ok.mpr ⟨_, hwidth, exists_bind_ok.mpr
        ⟨_, hlaid _ rfl rfl, exists_bind_ok.mpr
          ⟨_, hlaid _ rfl rfl, exists_bind_ok.mpr ⟨_, hinner, ?_⟩⟩⟩⟩⟩
    have hnone : acc.artifact.externals = [] := by
      refine externals_eq_nil fun e => ?_
      rw [hreq.externals_iff, hexternals]
      exact or_iff_left List.not_mem_nil
    refine finish_new hreq.sound (by simp [hnone]) fun i hi => Or.inl ?_
    -- the only instance is the unit itself, which is the last block that was taken over
    rw [instancesOf_concatBody, List.mem_singleton] at hi
    obtain ⟨top, htop, hname⟩ := hunit.top
    rw [hi, hreq.blocks_eq, List.map_append]
    refine List.mem_append_right _ (List.mem_map.mpr ⟨top, List.mem_of_getLast? htop, ?_⟩)
    rw [hname, hreq.dependency_eq]
    rfl

/--
An operator is wrapped if the names of its extra signals are free, it can be
generated itself, and the wrapper is not called like a module that it needs from
outside.
-/
theorem exists_bypass_iff {id : Identity} {width latency : Nat} {extra : ExtraSignals}
    {core : Identity → Except Error Artifact}
    (hcore : ∀ sub, core (id.child .inner) = .ok sub →
      sub.IsUnit (id.child .inner).text ∧ sub.latency = latency ∧
      ∀ e ∈ sub.externals, ∀ roles ≠ [], e ≠ derived id.text roles) :
    (∃ a, bypass id [⟨"lhs", width, extra, none⟩, ⟨"rhs", width, extra, none⟩]
        [⟨"result", width, extra, none⟩] extra core latency = .ok a) ↔
      extra.CollisionFree ∧ ∃ sub, core (id.child .inner) = .ok sub ∧ id.text ∉ sub.externals := by
  -- none of the stems begins another, so ports of different groups cannot clash
  have hcheck : checkPortGroups [⟨"lhs", width, extra, none⟩, ⟨"rhs", width, extra, none⟩]
      [⟨"result", width, extra, none⟩] extra = .ok () ↔ extra.CollisionFree := by
    refine checkPortGroups_ok_iff ?_ (by simp) (by simp) (by simp)
    show (["clk", "rst", "lhs", "rhs", "result"] : List String).Pairwise Unrelated
    decide
  constructor
  · rintro ⟨a, ha⟩
    obtain ⟨sub, layout, hports, hsub, -, -, -, hext, -, hunit⟩ :=
      bypass_ok (fun sub hsub => (hcore sub hsub).1) ha
    refine ⟨hcheck.mp hports, sub, hsub, fun hin => ?_⟩
    obtain ⟨top, htop, hname⟩ := hunit.top
    exact hunit.wellFormed.apart top (List.mem_of_getLast? htop) (hname ▸ (hext _).mpr hin)
  · rintro ⟨hfree, sub, hsub, hname⟩
    obtain ⟨hunit, hlatency, hexternals⟩ := hcore sub hsub
    have hfits : 0 + extra.totalWidth < countLimit := by
      rw [Nat.zero_add]
      exact extra.fits
    obtain ⟨-, layout, hlayout⟩ := layout_ok hfits
    -- the steps of the generator, each of which succeeds: unit, line, wrapper
    obtain ⟨inner, acc₁, hinner, hreq⟩ := require_new .inner core (sound_start id) (by simp [start])
      hsub hunit
      (by simp [start, Artifact.empty]) (by simp [start, Artifact.empty])
    have hid₁ : acc₁.id = id := hreq.id_eq
    have hext₁ : ∀ e, e ∈ acc₁.artifact.externals ↔ e ∈ sub.externals := by
      intro e
      rw [hreq.externals_iff]
      exact or_iff_right (by simp [start, Artifact.empty])
    obtain ⟨line, acc₂, hline, -⟩ := require_leaf_new .buff latency hreq.sound
      (instancesOf_delayLine ⟨latency, extra.totalWidth⟩) (by rw [hreq.roles_eq]; simp [start])
      (by
        rw [hid₁, hext₁]
        exact fun hin => hexternals _ hin [.buff] (by simp) rfl)
    obtain ⟨hname₂, -, hid₂, hblocks₂, hext₂, hsound₂⟩ := hreq.sound.require_leaf hline
    unfold bypass
    dsimp only
    refine exists_bind_ok.mpr ⟨(), hcheck.mpr hfree, exists_bind_ok.mpr ⟨_, hinner, ?_⟩⟩
    dsimp only
    rw [if_neg (by rw [hreq.dependency_eq]; exact not_not.mpr hlatency)]
    refine exists_bind_ok.mpr ⟨_, hline, exists_bind_ok.mpr ⟨_, hlayout, finish_new hsound₂ ?_ ?_⟩⟩
    · rw [hid₂, hid₁, hext₂, hext₁]
      exact hname
    · -- the two instances are the unit and the delay line
      intro i hi
      refine Or.inl ?_
      obtain ⟨top, htop, htext⟩ := hunit.top
      have hinner' : inner.name ∈ acc₂.artifact.blocks.map Block.identity := by
        rw [hblocks₂, hreq.blocks_eq]
        refine List.mem_map.mpr ⟨top, by simp [List.mem_of_getLast? htop], ?_⟩
        rw [htext, hreq.dependency_eq]
        rfl
      have hline' : line.name ∈ acc₂.artifact.blocks.map Block.identity := by
        rw [hblocks₂, hname₂]
        simp [Block.identity]
      simp only [bypassBody, anonymous, Item.instancesOf_append, Item.instancesOf_unlessEmpty,
        Item.instancesOf, Item.instances, List.nil_append, List.append_nil, List.singleton_append,
        List.mem_cons, List.not_mem_nil, or_false] at hi
      rcases hi with rfl | rfl
      · exact hinner'
      · exact hline'

end Manager

end Handshake
