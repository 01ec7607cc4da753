import Handshake.Proofs.Acceptance
import Handshake.Proofs.Drivers
import Handshake.Proofs.Identifiers

/-!
# What stands inside a wrapper

A unit with extra signals is a wrapper around the unit without them, which is
asked for by its role. Alone, the same unit would be asked for by a name that
has no roles in it. Such identities have nothing but their text in common, so
that the unit inside is the unit alone rests on the generators looking at
nothing else of an identity.

`ByText` says that of a generator. It is proved by running the generator on two
identities with one text side by side: accumulators that are `Alike` stay so
through every step, and what comes out is equal. Parameters are compared in the
same way, since the unit alone is requested without extra signals and, if its
payload was widened, with another width.
-/

namespace Handshake

/-! ## Generators only see the text of an identity -/

/-- The same refusal, or results that are related. -/
inductive SameOutcome {ε α β : Type} (R : α → β → Prop) : Except ε α → Except ε β → Prop where
  | error (e : ε) : SameOutcome R (.error e) (.error e)
  | ok {a : α} {b : β} (h : R a b) : SameOutcome R (.ok a) (.ok b)

/-- Two computations that go on alike after alike results come to alike results. -/
theorem SameOutcome.bind {ε α β γ δ : Type} {R : α → β → Prop} {S : γ → δ → Prop} {x : Except ε α}
    {y : Except ε β} {f : α → Except ε γ} {g : β → Except ε δ} (h : SameOutcome R x y)
    (hnext : ∀ a b, R a b → SameOutcome S (f a) (g b)) : SameOutcome S (x >>= f) (y >>= g) := by
  cases h with
  | error e => exact .error e
  | ok h => exact hnext _ _ h

theorem SameOutcome.bind_eq {ε α β γ : Type} {R : α → β → Prop} {x : Except ε α} {y : Except ε β}
    {f : α → Except ε γ} {g : β → Except ε γ} (h : SameOutcome R x y)
    (hnext : ∀ a b, R a b → f a = g b) : x >>= f = y >>= g := by
  cases h with
  | error e => rfl
  | ok h => exact hnext _ _ h

/-- What is generated depends on the text of the identity only. -/
def ByText (generate : Identity → Except Error Artifact) : Prop :=
  ∀ id id' : Identity, id.text = id'.text → generate id = generate id'

namespace Accumulator

/-- Accumulators for modules of the same name, with the same generated so far. -/
structure Alike (acc acc' : Accumulator) : Prop where
  text_eq : acc.id.text = acc'.id.text
  roles_eq : acc.roles = acc'.roles
  artifact_eq : acc.artifact = acc'.artifact

/-- Submodules that cannot be told apart, and accumulators that go on alike. -/
def AlikeAfter (r r' : Dependency × Accumulator) : Prop :=
  r.1.name = r'.1.name ∧ r.1.latency = r'.1.latency ∧ r.2.Alike r'.2

variable {acc acc' : Accumulator}

theorem alike_start {id id' : Identity} (h : id.text = id'.text) : Alike (start id) (start id') :=
  ⟨h, rfl, rfl⟩

/-- Alike accumulators take in the same submodule, and stay alike. -/
theorem Alike.require (h : acc.Alike acc') (role : Role)
    {generate : Identity → Except Error Artifact} (hgen : ByText generate) :
    SameOutcome AlikeAfter (acc.require role generate) (acc'.require role generate) := by
  have hchild : (acc.id.child role).text = (acc'.id.child role).text := by
    rw [Identity.text_child_eq, Identity.text_child_eq, h.text_eq]
  unfold Accumulator.require Accumulator.tryRequire Accumulator.absorb
  dsimp only
  rw [hgen _ _ hchild, hchild, h.text_eq, h.roles_eq, h.artifact_eq]
  split
  · exact .error _
  · cases generate (acc'.id.child role) with
    | error e => exact .error e
    | ok sub =>
        dsimp only
        cases sub.top? with
        | none => exact .error _
        | some top =>
            dsimp only
            split
            · cases (acc'.artifact.merge sub).1 with
              | error e => exact .error e
              | ok u => exact .ok ⟨hchild, rfl, h.text_eq, rfl, rfl⟩
            · exact .error _

theorem Alike.external (h : acc.Alike acc') (name : String) :
    SameOutcome Alike (acc.external name) (acc'.external name) := by
  unfold Accumulator.external Accumulator.tryExternal
  rw [h.artifact_eq]
  cases acc'.artifact.declare name with
  | error e => exact .error e
  | ok a => exact .ok ⟨h.text_eq, h.roles_eq, rfl⟩

theorem Alike.externals (h : acc.Alike acc') (names : List String) :
    SameOutcome Alike (names.foldlM Accumulator.external acc)
      (names.foldlM Accumulator.external acc') := by
  induction names generalizing acc acc' with
  | nil => exact .ok h
  | cons name rest ih =>
      rw [List.foldlM_cons, List.foldlM_cons]
      exact (h.external name).bind fun _ _ hnext => ih hnext

/-- Alike accumulators finish with the same artifact. -/
theorem Alike.finish (h : acc.Alike acc') (content : Module) (latency : Nat) :
    acc.finish content latency = acc'.finish content latency := by
  rw [Accumulator.finish, Accumulator.finish, h.text_eq, h.artifact_eq]

/-- A module that mentions no identity is generated by text. -/
theorem byText_finish (content : Module) (latency : Nat) :
    ByText fun id => (start id).finish content latency :=
  fun _ _ h => (alike_start h).finish content latency

end Accumulator

open Accumulator

/-- The control of operators of the same name. -/
theorem Operator.control_alike {acc acc' : Accumulator} (h : acc.Alike acc') (latency : Nat) :
    SameOutcome (fun r r' => r.1 = r'.1 ∧ r.2.1 = r'.2.1 ∧ r.2.2.Alike r'.2.2)
      (Operator.control acc latency)
      (Operator.control acc' latency) := by
  refine (h.require .join (byText_finish _ _)).bind ?_
  rintro ⟨join, acc₁⟩ ⟨join', acc₁'⟩ ⟨hname₁, hlat₁, h₁⟩
  refine (h₁.require .buff (byText_finish _ _)).bind ?_
  rintro ⟨delay, acc₂⟩ ⟨delay', acc₂'⟩ ⟨hname₂, hlat₂, h₂⟩
  refine (h₂.require .oneSlotBreakDv (byText_finish _ _)).bind ?_
  rintro ⟨output, acc₃⟩ ⟨output', acc₃'⟩ ⟨hname₃, hlat₃, h₃⟩
  dsimp only at hname₁ hlat₁ hname₂ hlat₂ hname₃ hlat₃ ⊢
  rw [hname₁, hname₂, hname₃, hlat₁, hlat₂, hlat₃]
  exact .ok ⟨rfl, rfl, h₃⟩

/-- A merge looks at the text of its identity only. -/
theorem Merge.byText (size width : Nat) : ByText fun id => Merge.generate size id width := by
  intro id id' h
  refine ((alike_start h).require .inner (byText_finish _ _)).bind_eq ?_
  rintro ⟨inner, acc₁⟩ ⟨inner', acc₁'⟩ ⟨hname₁, hlat₁, h₁⟩
  refine (h₁.require .oneSlotBreakR (byText_finish _ _)).bind_eq ?_
  rintro ⟨output, acc₂⟩ ⟨output', acc₂'⟩ ⟨hname₂, hlat₂, h₂⟩
  dsimp only at hname₁ hlat₁ hname₂ hlat₂ ⊢
  rw [hname₁, hname₂, hlat₁, hlat₂]
  exact h₂.finish _ _

theorem Multiplier.byText (width : Nat) : ByText fun id => Multiplier.generate id width := by
  intro id id' h
  refine ((alike_start h).require .mul4Stage (byText_finish _ _)).bind_eq ?_
  rintro ⟨core, acc₁⟩ ⟨core', acc₁'⟩ ⟨hname, hlat, h₁⟩
  refine (Operator.control_alike h₁ _).bind_eq ?_
  rintro ⟨items, depth, acc₂⟩ ⟨items', depth', acc₂'⟩ ⟨hitems, hdepth, h₂⟩
  dsimp only at hname hlat hitems hdepth ⊢
  rw [hname, hlat, hitems, hdepth, h, h₂.finish]

theorem FloatOperator.byText (op : FloatOperator) (p : Precision) : ByText (op.generate p) := by
  intro id id' h
  refine (Operator.control_alike (alike_start h) _).bind_eq ?_
  rintro ⟨items, depth, acc₁⟩ ⟨items', depth', acc₁'⟩ ⟨hitems, hdepth, h₁⟩
  refine (h₁.externals _).bind_eq fun acc₂ acc₂' h₂ => ?_
  dsimp only at hitems hdepth
  rw [hitems, hdepth, h₂.finish]

theorem Forwarding.byText {kind : UnitKind} {size : Option Nat}
    {generate : Identity → Nat → Except Error Artifact} (h : Forwarding kind size generate)
    (width : Nat) : ByText fun id => generate id width := by
  cases h with
  | priorityMerge | readyBreak | dataBreak | readyBuffer | dataBuffer => exact byText_finish _ _
  | merge => exact Merge.byText _ width

/-- So do all units that compute. -/
theorem Computing.byText {kind : UnitKind} {width latency : Nat}
    {core : Identity → Except Error Artifact} (h : Computing kind width latency core) :
    ByText core := by
  cases h with
  | multiplier => exact Multiplier.byText width
  | float op p => exact op.byText p

/-! ## The externals of a wrapper -/

theorem eraseDups_of_nodup {names : List String} (h : names.Nodup) : names.eraseDups = names := by
  induction names with
  | nil => rfl
  | cons name rest ih =>
      rw [List.nodup_cons] at h
      have hkept : rest.filter (fun other => !other == name) = rest := by
        refine List.filter_eq_self.mpr fun other hother => ?_
        have hne : other ≠ name := fun heq => h.1 (heq ▸ hother)
        simp [hne]
      rw [List.eraseDups_cons, hkept, ih h.2]

theorem Accumulator.finish_externals {acc : Accumulator} {content : Module} {latency : Nat}
    {a : Artifact} (h : acc.finish content latency = .ok a) :
    a.externals = acc.artifact.externals := by
  unfold Accumulator.finish Artifact.define at h
  split at h
  · exact absurd h (by simp)
  · rcases Artifact.insert_cases h with ⟨-, rfl⟩ | ⟨-, -, rfl⟩ <;> rfl

/-- The delay line adds nothing to the externals of the unit that the extra signals go past. -/
theorem Manager.bypass_externals {id : Identity} {ins outs : List PortGroup} {extra : ExtraSignals}
    {generateInner : Identity → Except Error Artifact} {latency : Nat} {a sub : Artifact}
    (hsub : generateInner (id.child .inner) = .ok sub) (hnodup : sub.externals.Nodup)
    (h : bypass id ins outs extra generateInner latency = .ok a) : a.externals = sub.externals := by
  unfold bypass at h
  split at h
  · obtain ⟨_, -, h⟩ := bind_ok h
    obtain ⟨⟨inner, acc₁⟩, hinner, h⟩ := bind_ok h
    dsimp only at h
    split at h
    · exact absurd h (by simp [throw, throwThe, MonadExceptOf.throw, bind, Except.bind])
    obtain ⟨⟨line, acc₂⟩, hline, h⟩ := bind_ok h
    obtain ⟨layout, -, h⟩ := bind_ok h
    obtain ⟨sub', -, -, hsub', -, -, -, hok₁, hacc₁, -⟩ := require_inv hinner
    obtain rfl : sub = sub' := Except.ok.inj (hsub.symm.trans hsub')
    obtain ⟨delay, -, -, hdelay, -, -, -, hok₂, hacc₂, -⟩ := require_inv hline
    have hnone : delay.externals = [] := (finish_start hdelay).2.1
    have hstart : (start id).artifact.externals = ([] : List String).eraseDups := rfl
    have hfirst : acc₁.artifact.externals = sub.externals.eraseDups := by
      rw [hacc₁, Artifact.merge_externals hstart hok₁, List.nil_append]
    have hsecond : acc₂.artifact.externals = sub.externals.eraseDups := by
      rw [hacc₂, Artifact.merge_externals hfirst hok₂, hnone, List.append_nil]
    rw [finish_externals h, hsecond, eraseDups_of_nodup hnodup]
  · exact absurd h (by simp)

/-! ## The same unit for other parameters -/

namespace Params

/-- Parameters that agree but for some keys. -/
def SameBut (keys : List ParamKey) (p q : Params) : Prop :=
  ∀ key, key ∉ keys → p.find? key = q.find? key

variable {p q : Params} {key : ParamKey}

theorem has_congr (h : p.find? key = q.find? key) : p.has key = q.has key := by
  rw [has, has, h]

theorem require_congr (h : p.find? key = q.find? key) : p.require key = q.require key := by
  rw [require, require, h]

/-- An accessor looks at nothing but its own key. -/
theorem count_congr (h : p.find? key = q.find? key) : p.count key = q.count key := by
  rw [count, count, require_congr h]

theorem flag_congr (h : p.find? key = q.find? key) : p.flag key = q.flag key := by
  rw [flag, flag, require_congr h]

theorem string_congr (h : p.find? key = q.find? key) : p.string key = q.string key := by
  rw [string, string, require_congr h]

end Params

theorem BufferType.ofParams_congr {p q : Params} (htag : p.find? .bufferType = q.find? .bufferType)
    (htransparent : p.find? .transparent = q.find? .transparent) :
    BufferType.ofParams p = BufferType.ofParams q := by
  unfold BufferType.ofParams Params.flagOr
  rw [Params.has_congr htag, Params.string_congr htag, Params.has_congr htransparent,
    Params.flag_congr htransparent]

/-- Without extra signals a unit has a payload or it does not. -/
theorem Variant.of_plain (width : Nat) :
    Variant.of width .empty = if width = 0 then .dataless else .scalar width :=
  if_pos rfl

/-- Without extra signals the unit that hands tokens on stands alone. -/
theorem passThrough_plain {id : Identity} {tag : String} {params : Params} {size : Option Nat}
    {width : Nat} {generate : Identity → Nat → Except Error Artifact}
    (hwidth : params.count .bitwidth = .ok width) (hextra : params.extraSignals = .ok .empty) :
    passThrough id tag params size generate = generate id width := by
  unfold passThrough
  rw [Variant.ofParams_eq hwidth hextra (by cases (Variant.of width .empty).shape <;> rfl), ok_bind]
  by_cases hzero : width = 0
  · rw [hzero, Variant.of_plain, if_pos rfl]
  · rw [Variant.of_plain, if_neg hzero]

/--
A unit that hands tokens on is chosen by parameters other than the width and the
extra signals of its payload.
-/
theorem UnitKind.generate_forwarding {kind : UnitKind} {id : Identity} {params : Params}
    {a : Artifact} (hkind : kind.passesThrough = true) (h : kind.generate id params = .ok a) :
    ∃ tag size generate, Forwarding kind size generate ∧
      passThrough id tag params size generate = .ok a ∧
      ∀ (id' : Identity) (inner : Params), inner.SameBut [.bitwidth, .extraSignals] params →
        kind.generate id' inner = passThrough id' tag inner size generate := by
  -- the parameters that choose the unit are among those that agree
  have hsized : ∀ {inner : Params}, inner.SameBut [.bitwidth, .extraSignals] params →
      channelCount inner = channelCount params := fun hsame => by
    rw [channelCount, channelCount, Params.count_congr (hsame .size (by decide))]
  cases kind with
  | priorityMerge =>
      obtain ⟨size, hsize, h⟩ := bind_ok h
      refine ⟨_, _, _, .priorityMerge (channelCount_ok hsize).2, h, fun id' inner hsame => ?_⟩
      rw [UnitKind.generate, PriorityMerge.ofParams, hsized hsame, hsize, ok_bind]
  | merge =>
      obtain ⟨size, hsize, h⟩ := bind_ok h
      refine ⟨_, _, _, .merge (channelCount_ok hsize).2, h, fun id' inner hsame => ?_⟩
      rw [UnitKind.generate, Merge.ofParams, hsized hsame, hsize, ok_bind]
  | buffer =>
      obtain ⟨hslots, hselected⟩ := Buffer.ofParams_ok h
      have htype : ∀ inner : Params, inner.SameBut [.bitwidth, .extraSignals] params →
          BufferType.ofParams inner = BufferType.ofParams params := fun inner hsame =>
        BufferType.ofParams_congr (hsame .bufferType (by decide)) (hsame .transparent (by decide))
      have hone : ∀ inner : Params, inner.SameBut [.bitwidth, .extraSignals] params →
          inner.countOr .numSlots 1 = .ok 1 := by
        intro inner hsame
        have hsame' := hsame .numSlots (by decide)
        rw [← hslots, Params.countOr, Params.countOr, Params.has_congr hsame',
          Params.count_congr hsame']
      rcases hselected with ⟨hselects, h⟩ | ⟨hselects, h⟩
      · refine ⟨_, _, _, .dataBuffer, h, fun id' inner hsame => ?_⟩
        rw [UnitKind.generate, Buffer.ofParams, htype inner hsame, hselects, ok_bind,
          hone inner hsame, ok_bind]
        rfl
      · refine ⟨_, _, _, .readyBuffer, h, fun id' inner hsame => ?_⟩
        rw [UnitKind.generate, Buffer.ofParams, htype inner hsame, hselects, ok_bind,
          hone inner hsame, ok_bind]
        rfl
  | readyBreak => exact ⟨_, _, _, .readyBreak, h, fun _ _ _ => rfl⟩
  | dataBreak => exact ⟨_, _, _, .dataBreak, h, fun _ _ _ => rfl⟩
  | join | delayBuffer | multiplier | float _ => exact absurd hkind (by simp [passesThrough])

/-- A unit that computes is chosen by parameters other than the extra signals. -/
theorem UnitKind.generate_computing {kind : UnitKind} {id : Identity} {params : Params}
    {a : Artifact} (hkind : kind ∈ [.multiplier, .float .mul, .float .sub])
    (h : kind.generate id params = .ok a) :
    ∃ width latency core extra, Computing kind width latency core ∧
      params.extraSignals = .ok extra ∧
      Operator.generate id (Variant.of width extra) latency core = .ok a ∧
      ∀ (id' : Identity) (inner : Params), inner.SameBut [.extraSignals] params →
        inner.extraSignals = .ok .empty → kind.generate id' inner = core id' := by
  cases kind with
  | multiplier =>
      obtain ⟨width, extra, hwidth, hextra, hpos, h⟩ := Multiplier.ofParams_ok h
      refine ⟨width, _, _, extra, .multiplier hpos, hextra, h, fun id' inner hsame hplain => ?_⟩
      rw [← Params.count_congr (hsame .bitwidth (by decide))] at hwidth
      rw [UnitKind.generate, Multiplier.ofParams,
        Variant.ofParams_eq hwidth hplain (Variant.supports_data hpos.ne' .empty), ok_bind,
        Variant.of_plain, if_neg hpos.ne', Multiplier.operandWidth, if_pos hpos, ok_bind,
        Operator.generate]
  | float op =>
      obtain ⟨p, extra, hp, hextra, h⟩ := FloatOperator.ofParams_ok h
      refine ⟨p.width, _, _, extra, .float op p, hextra, h, fun id' inner hsame hplain => ?_⟩
      have hprecision : Precision.ofParams inner = .ok p := by
        rw [← hp, Precision.ofParams, Precision.ofParams,
          Params.flag_congr (hsame .isDouble (by decide))]
      have hscalar : Variant.choose op.kind .dataOnly p.width .empty = .ok (.scalar p.width) := by
        cases p <;> rfl
      rw [UnitKind.generate, FloatOperator.ofParams, hprecision, ok_bind, hplain, ok_bind,
        hscalar, ok_bind, Operator.generate]
  | join | delayBuffer | priorityMerge | merge | buffer | readyBreak | dataBreak =>
      exact absurd hkind (by decide)

/-- A request is answered by the generator of its kind, under its name. -/
theorem generate_eq_ok_iff {request : Request} {a : Artifact} :
    generate request = .ok a ↔ ∃ (hname : isIdentifier request.name = true) (kind : UnitKind),
      request.kind = kind.tag ∧ kind.generate ⟨request.name, [], hname⟩ request.params = .ok a := by
  unfold generate UnitKind.generateTagged
  rw [bind_eq_ok_iff]
  constructor
  · rintro ⟨id, hid, h⟩
    obtain ⟨hname, rfl⟩ := Identity.ofName_ok_iff.mp hid
    split at h
    · rename_i kind htag
      exact ⟨hname, kind, UnitKind.ofTag?_eq_some_iff.mp htag, h⟩
    · exact absurd h (by simp)
  · rintro ⟨hname, kind, hkind, h⟩
    refine ⟨_, Identity.ofName_ok_iff.mpr ⟨hname, rfl⟩, ?_⟩
    rw [UnitKind.ofTag?_eq_some_iff.mpr hkind]
    exact h

/-! ## The unit inside -/

theorem derived_inner (name : String) : derived name [.inner] = name ++ "_inner" := by
  rw [derived_cons, derived_nil, String.append_assoc]
  rfl

theorem derived_buff (name : String) : derived name [.buff] = name ++ "_buff" := by
  rw [derived_cons, derived_nil, String.append_assoc]
  rfl

/--
What the generator of a kind gives for the submodule `inner` answers the request
for that unit alone.
-/
theorem generate_inner {kind : UnitKind} {tag name : String} {inner : Params} {unit : Artifact}
    {build : Identity → Except Error Artifact} (hkind : tag = kind.tag)
    (hname : isIdentifier name = true) (hread : ∀ id, kind.generate id inner = build id)
    (htext : ByText build) (h : build (Identity.child ⟨name, [], hname⟩ .inner) = .ok unit) :
    generate ⟨tag, name ++ "_inner", inner⟩ = .ok unit := by
  have hinner : isIdentifier (name ++ "_inner") = true := by
    rw [← derived_inner]
    exact isIdentifier_derived hname [.inner]
  refine generate_eq_ok_iff.mpr ⟨hinner, kind, hkind, ?_⟩
  rw [hread, ← h]
  refine htext _ _ ?_
  rw [Identity.text_child_eq, derived_inner]
  rfl

/--
**Extra signals never change the unit that they accompany.** A unit that hands
tokens on is the same unit alone, on a payload wider by the extra signals, with
the wrapper behind it. A unit that computes is the same unit alone, then the
delay line for the extra signals, then the wrapper. Either way the unit inside
is named `_inner`, and the wrapper has its latency.
-/
theorem extra_signals_keep_unit {request : Request} {a : Artifact} {extra : ExtraSignals}
    (ha : generate request = .ok a) (hextra : request.params.extraSignals = .ok extra)
    (hne : extra.signals ≠ []) :
    (request.kind ∈ ["merge", "merge_notehb", "one_slot_break_r", "one_slot_break_dv", "buffer"] →
      ∃ width, request.params.count .bitwidth = .ok width ∧
        ∀ inner : Params, inner.count .bitwidth = .ok (width + extra.totalWidth) →
          inner.extraSignals = .ok .empty →
          inner.SameBut [.bitwidth, .extraSignals] request.params →
          ∃ unit top, generate ⟨request.kind, request.name ++ "_inner", inner⟩ = .ok unit ∧
            a.blocks = unit.blocks ++ [top] ∧ top.identity = request.name ∧
              top.latency = unit.latency) ∧
    (request.kind ∈ ["muli", "mulf", "subf"] →
      ∀ inner : Params, inner.extraSignals = .ok .empty →
        inner.SameBut [.extraSignals] request.params →
        ∃ unit top, generate ⟨request.kind, request.name ++ "_inner", inner⟩ = .ok unit ∧
          a.blocks = unit.blocks ++
            [⟨{ (DelayLine.mk unit.latency extra.totalWidth).body with
                name := request.name ++ "_buff" }, unit.latency⟩, top] ∧
          top.identity = request.name ∧ top.latency = unit.latency ∧
            a.externals = unit.externals) := by
  obtain ⟨hname, kind, hkind, h⟩ := generate_eq_ok_iff.mp ha
  refine ⟨fun hmem => ?_, fun hmem inner hplain hsame => ?_⟩
  · have hpass : kind.passesThrough = true := by
      rw [hkind] at hmem
      revert hmem
      cases kind with
      | float op => cases op <;> decide
      | _ => decide
    -- the unit inside was generated from a width, and the other parameters give that width
    obtain ⟨tag, size, build, hunit, hpassed, hread⟩ := kind.generate_forwarding hpass h
    obtain ⟨width, extra', hwidth, hextra', hcases⟩ := passThrough_ok hpassed
    obtain rfl : extra = extra' := Except.ok.inj (hextra.symm.trans hextra')
    rcases hcases with ⟨hempty, -⟩ | ⟨-, hconcat⟩
    · exact absurd hempty hne
    obtain ⟨total, unit, laidIns, laidOuts, -, htotal, -, -, hsub, -, hblocks, -⟩ :=
      Manager.concat_ok (fun w sub _ hsub => (hunit.isUnit hsub).wellFormed_top) hconcat
    obtain rfl := combinedWidth_ok htotal
    refine ⟨width, hwidth, fun inner hinner hplain hsame => ⟨unit, _, ?_, hblocks, rfl, rfl⟩⟩
    exact generate_inner hkind hname
      (fun id' => (hread id' inner hsame).trans (passThrough_plain hinner hplain))
      (hunit.byText _) hsub
  · have hcompute : kind ∈ [.multiplier, .float .mul, .float .sub] := by
      rw [hkind] at hmem
      revert hmem
      cases kind with
      | float op => cases op <;> decide
      | _ => decide
    -- the unit inside was generated for no extra signals, as the other parameters ask
    obtain ⟨width, latency, core, extra', hunit, hextra', hgen, hread⟩ :=
      kind.generate_computing hcompute h
    obtain rfl : extra = extra' := Except.ok.inj (hextra.symm.trans hextra')
    rw [Variant.of_extra hne, Operator.generate] at hgen
    obtain ⟨unit, layout, -, hsub, hlatency, -, hblocks, -, -, -⟩ :=
      Manager.bypass_ok (fun sub hsub => hunit.isUnit hsub) hgen
    rw [← hlatency, derived_buff] at hblocks
    refine ⟨unit, _, ?_, hblocks, rfl, rfl, ?_⟩
    · exact generate_inner hkind hname (fun id' => hread id' inner hsame hplain) hunit.byText hsub
    · exact Manager.bypass_externals hsub (hunit.isUnit hsub).wellFormed.externals_distinct hgen

/--
A buffer of eight bits and a tag is one of nine bits inside, and a subtraction
with extra signals one without.
-/
theorem extra_signals_keep_unit_tagged :
    (∃ a unit top, generate (.withSignal "buffer" "tag") = .ok a ∧
      generate ⟨"buffer", "u_inner", OrderedMap.empty.insert "bitwidth" (.int 9)⟩ = .ok unit ∧
      a.blocks = unit.blocks ++ [top] ∧ top.identity = "u" ∧ top.latency = unit.latency) ∧
    ∃ a unit line top, generate .taggedSubtraction = .ok a ∧
      generate ⟨"subf", "u_inner", OrderedMap.empty.insert "is_double" (.bool true)⟩ = .ok unit ∧
      a.blocks = unit.blocks ++ [line, top] ∧ line.identity = "u_buff" ∧
      top.latency = unit.latency ∧
      a.externals = unit.externals := by
  have hbuffer : ∃ a ∈ (generate (.withSignal "buffer" "tag")).toOption,
      ∃ extra ∈ (Request.withSignal "buffer" "tag").params.extraSignals.toOption,
        extra.signals ≠ [] ∧ extra.totalWidth = 1 := by
    decide +kernel
  have hsubtraction : ∃ a ∈ (generate .taggedSubtraction).toOption,
      ∃ extra ∈ Request.taggedSubtraction.params.extraSignals.toOption, extra.signals ≠ [] := by
    decide +kernel
  have hwidth : ∃ width ∈ ((Request.withSignal "buffer" "tag").params.count .bitwidth).toOption,
      width = 8 := by
    decide +kernel
  refine ⟨?_, ?_⟩
  · obtain ⟨a, ha, extra, hextra, hne, htotal⟩ := hbuffer
    obtain ⟨width, hcount, hinside⟩ := (extra_signals_keep_unit (eq_ok_of_mem_toOption ha)
      (eq_ok_of_mem_toOption hextra) hne).1 (by decide)
    obtain ⟨_, height, rfl⟩ := hwidth
    obtain rfl : width = 8 := Except.ok.inj (hcount.symm.trans (eq_ok_of_mem_toOption height))
    have hsame : Params.SameBut [.bitwidth, .extraSignals]
        (OrderedMap.empty.insert "bitwidth" (.int 9))
        (Request.withSignal "buffer" "tag").params := by
      intro key hkey
      cases key <;> first | rfl | exact absurd hkey (by decide)
    obtain ⟨unit, top, hunit⟩ := hinside _ (by rw [htotal]; rfl) rfl hsame
    exact ⟨a, unit, top, eq_ok_of_mem_toOption ha, hunit⟩
  · obtain ⟨a, ha, extra, hextra, hne⟩ := hsubtraction
    have hsame : Params.SameBut [.extraSignals] (OrderedMap.empty.insert "is_double" (.bool true))
        Request.taggedSubtraction.params := by
      intro key hkey
      cases key <;> first | rfl | exact absurd hkey (by decide)
    obtain ⟨unit, top, hunit, hblocks, -, hlatency, hexternals⟩ := (extra_signals_keep_unit
      (eq_ok_of_mem_toOption ha) (eq_ok_of_mem_toOption hextra) hne).2 (by decide) _ rfl hsame
    exact ⟨a, unit, _, top, eq_ok_of_mem_toOption ha, hunit, hblocks, rfl, hlatency, hexternals⟩

end Handshake
