import Handshake.Proofs.Feasibility

/-!
# Which requests are answered

For each kind of unit, what its parameters must be, and that nothing else is
asked. The conditions speak of the values that stand in the parameter map; the
accessors, the choice of a variant, the wrappers and the accumulation of modules
are all read through their own lemmas.

`UnitKind.Accepts` is the condition, one clause for each kind. It is made of
three that many kinds share: the extra signals are legal and do not collide
(`CarriesSignals`), the width of payload and extra signals together is a number
of 32 bits (`CarriesTokens`), and the parameters select one of the two buffers
(`SelectsBuffer`). The outcome, at the end, is that a request is answered if and
only if its kind exists, its name is an identifier, and the kind accepts its
parameters.
-/

namespace Handshake

open Accumulator

/-- The parameters list legal signals under free names. -/
def Params.CarriesSignals (p : Params) : Prop :=
  ∃ signals, p.Lists signals ∧ signals.Legal ∧ signals.CollisionFree

/-- The parameters of a unit that hands its tokens on: a width, and signals that fit beside it. -/
def Params.CarriesTokens (p : Params) : Prop :=
  ∃ (width : Int64) (signals : SignalList), p.find? .bitwidth = some (.int width) ∧
    0 ≤ width.toInt ∧ width.toInt ≤ 2 ^ 32 - 1 ∧ p.Lists signals ∧ signals.Legal ∧
    signals.CollisionFree ∧
    width.toInt + (signals.map Prod.snd).sum ≤ 2 ^ 32 - 1

/-- The parameters select one of the two buffers, and ask for one slot if for any. -/
def Params.SelectsBuffer (p : Params) : Prop :=
  (p.find? .bufferType = some (.str "ONE_SLOT_BREAK_DV") ∨
    p.find? .bufferType = some (.str "ONE_SLOT_BREAK_R") ∨
    p.find? .bufferType = none ∧ (p.find? .transparent = none ∨ p.Boolean .transparent)) ∧
  (p.find? .numSlots = none ∨ p.find? .numSlots = some (.int 1))

/-- The parameters select a precision. -/
def Precision.SelectedBy (p : Params) : Precision → Prop
  | .single => p.find? .isDouble = some (.bool false) ∨ p.find? .isDouble = some (.int 0)
  | .double => p.find? .isDouble = some (.bool true) ∨ p.find? .isDouble = some (.int 1)

/-- What is asked of the parameters of each kind, and of the name of the unit. -/
def UnitKind.Accepts (kind : UnitKind) (name : String) (p : Params) : Prop :=
  match kind with
  | .join => p.IntegerFrom .size 1 ∧ p.Lists []
  | .delayBuffer => p.IntegerFrom .numSlots 0
  | .priorityMerge | .merge => p.IntegerFrom .size 1 ∧ p.CarriesTokens
  | .readyBreak | .dataBreak => p.CarriesTokens
  | .buffer => p.SelectsBuffer ∧ p.CarriesTokens
  | .multiplier => p.IntegerFrom .bitwidth 1 ∧ p.CarriesSignals
  | .float op => p.CarriesSignals ∧ ∃ precision, precision.SelectedBy p ∧
      name ∉ op.externals precision

theorem collisionFree_iff {extra : ExtraSignals} {signals : SignalList}
    (h : extra.signals = signals.declared) : extra.CollisionFree ↔ signals.CollisionFree := by
  unfold ExtraSignals.CollisionFree SignalList.CollisionFree
  rw [h, SignalList.declared, List.forall_mem_map]

/-- The width of all extra signals is the sum of the widths that were listed. -/
theorem totalWidth_eq {extra : ExtraSignals} {signals : SignalList}
    (h : extra.signals = signals.declared) (hlegal : signals.Legal) :
    (extra.totalWidth : Int) = (signals.map Prod.snd).sum := by
  unfold ExtraSignals.totalWidth
  rw [h]
  exact SignalList.sum_declared hlegal.widths

/-- The condition on extra signals is what the accessor and the wrappers check. -/
theorem Params.carriesSignals_iff {p : Params} :
    p.CarriesSignals ↔ ∃ extra, p.extraSignals = .ok extra ∧ extra.CollisionFree := by
  constructor
  · rintro ⟨signals, hlists, hlegal, hfree⟩
    obtain ⟨extra, hextra, hsignals⟩ := exists_extraSignals hlists hlegal
    exact ⟨extra, hextra, (collisionFree_iff hsignals).mpr hfree⟩
  · rintro ⟨extra, hextra, hfree⟩
    obtain ⟨signals, hlists, hlegal, hsignals⟩ := extraSignals_ok_iff.mp hextra
    exact ⟨signals, hlists, hlegal, (collisionFree_iff hsignals).mp hfree⟩

/-- The condition on tokens is what the accessors, the wrappers and the layout check. -/
theorem Params.carriesTokens_iff {p : Params} :
    p.CarriesTokens ↔ ∃ width extra, p.count .bitwidth = .ok width ∧ p.extraSignals = .ok extra ∧
      extra.CollisionFree ∧ width + extra.totalWidth < countLimit := by
  constructor
  · rintro ⟨width, signals, hwidth, hlo, hhi, hlists, hlegal, hfree, hsum⟩
    obtain ⟨extra, hextra, hsignals⟩ := exists_extraSignals hlists hlegal
    have htotal := totalWidth_eq hsignals hlegal
    have hcount : p.count .bitwidth = .ok width.toInt.toNat :=
      count_ok_iff.mpr ⟨width, hwidth, by omega, by unfold countLimit UInt32.size; omega⟩
    exact ⟨_, extra, hcount, hextra, (collisionFree_iff hsignals).mpr hfree,
      by unfold countLimit UInt32.size; omega⟩
  · rintro ⟨width, extra, hcount, hextra, hfree, hsum⟩
    obtain ⟨i, hfind, hi, hn⟩ := count_ok_iff.mp hcount
    obtain ⟨signals, hlists, hlegal, hsignals⟩ := extraSignals_ok_iff.mp hextra
    have htotal := totalWidth_eq hsignals hlegal
    unfold countLimit UInt32.size at hn hsum
    exact ⟨i, signals, hfind, by omega, by omega, hlists, hlegal,
      (collisionFree_iff hsignals).mp hfree, by omega⟩

/-- A number of channels is accepted from one on. -/
theorem exists_channelCount_iff {p : Params} :
    (∃ n, channelCount p = .ok n) ↔ p.IntegerFrom .size 1 := by
  rw [← Params.exists_count_pos_iff]
  unfold channelCount
  rw [exists_bind_ok]
  refine exists_congr fun n => and_congr_right fun _ => ?_
  by_cases hn : n = 0 <;> simp [hn]

theorem Variant.ofParams_eq {kind : String} {support : Support} {params : Params} {key : ParamKey}
    {width : Nat} {extra : ExtraSignals} (hwidth : params.count key = .ok width)
    (hextra : params.extraSignals = .ok extra)
    (hshape : support.supports (Variant.of width extra).shape = true) :
    Variant.ofParams kind support params key = .ok (Variant.of width extra) := by
  unfold Variant.ofParams
  rw [hwidth, ok_bind, hextra, ok_bind]
  exact if_pos hshape

theorem Variant.of_data {width : Nat} (h : width ≠ 0) (extra : ExtraSignals) :
    Variant.of width extra = .scalar width ∨
      Variant.of width extra = .signalManaged width extra := by
  unfold Variant.of
  rw [if_neg h]
  split
  · exact Or.inl rfl
  · exact Or.inr rfl

theorem Variant.supports_data {width : Nat} (h : width ≠ 0) (extra : ExtraSignals) :
    Support.dataOnly.supports (Variant.of width extra).shape = true := by
  rcases Variant.of_data h extra with heq | heq <;> rw [heq] <;> rfl

/-- A unit that hands its tokens on is generated in each variant under the same conditions. -/
theorem exists_passThrough_iff {id : Identity} {kind : String} {params : Params} {size : Option Nat}
    {generate : Identity → Nat → Except Error Artifact} (hsize : size ≠ some 0)
    (hgen : ∀ id width, ∃ sub, generate id width = .ok sub ∧ sub.IsUnit id.text ∧
      sub.externals = []) :
    (∃ a, passThrough id kind params size generate = .ok a) ↔ params.CarriesTokens := by
  have hsome : ∀ id width, ∃ sub, generate id width = .ok sub := fun id width =>
    let ⟨sub, hsub, _⟩ := hgen id width
    ⟨sub, hsub⟩
  rw [Params.carriesTokens_iff]
  unfold passThrough
  rw [exists_bind_ok]
  constructor
  · rintro ⟨variant, hvariant, h⟩
    obtain ⟨width, extra, hwidth, hextra, hchoose⟩ := Variant.ofParams_ok hvariant
    obtain ⟨rfl, -⟩ := Variant.choose_ok hchoose
    refine ⟨width, extra, hwidth, hextra, ?_⟩
    obtain ⟨i, -, -, hn⟩ := Params.count_ok_iff.mp hwidth
    -- without extra signals nothing is checked but the width, which was read as one of 32 bits
    by_cases hempty : extra.signals = []
    · have htotal : extra.totalWidth = 0 := by rw [ExtraSignals.totalWidth, hempty, sumWidths]
      exact ⟨by simp [ExtraSignals.CollisionFree, hempty], by rw [htotal]; exact hn⟩
    · rw [Variant.of, if_neg (by simp [ExtraSignals.isEmpty, hempty])] at h
      exact (Manager.exists_concat_iff hsize hgen).mp h
  · rintro ⟨width, extra, hwidth, hextra, hfree, hsum⟩
    refine ⟨Variant.of width extra, Variant.ofParams_eq hwidth hextra ?_, ?_⟩
    · cases (Variant.of width extra).shape <;> rfl
    · unfold Variant.of
      by_cases hempty : extra.isEmpty = true
      · rw [if_pos hempty]
        by_cases hzero : width = 0
        · rw [if_pos hzero]
          exact hsome id 0
        · rw [if_neg hzero]
          exact hsome id width
      · rw [if_neg hempty]
        exact (Manager.exists_concat_iff hsize hgen).mpr ⟨hfree, hsum⟩

/-- The same for a unit with a number of channels. -/
theorem exists_sized_iff {id : Identity} {kind : String} {params : Params}
    {generate : Nat → Identity → Nat → Except Error Artifact}
    (hgen : ∀ size id width, ∃ sub, generate size id width = .ok sub ∧ sub.IsUnit id.text ∧
      sub.externals = []) :
    (∃ a, (do
        let size ← channelCount params
        passThrough id kind params (some size) (generate size)) = .ok a) ↔
      params.IntegerFrom .size 1 ∧ params.CarriesTokens := by
  rw [← exists_channelCount_iff, exists_bind_ok, ← exists_and_right]
  refine exists_congr fun size => and_congr_right fun hsize => ?_
  refine exists_passThrough_iff ?_ (hgen size)
  rintro ⟨⟩
  unfold channelCount at hsize
  obtain ⟨n, -, hn⟩ := bind_ok hsize
  split at hn
  · exact absurd hn (by simp)
  · rename_i hne
    exact hne (Except.ok.inj hn)

/--
An operator that needs the modules `outside` is generated in each variant under
the same conditions.
-/
theorem exists_operator_iff {id : Identity} {width latency : Nat} {extra : ExtraSignals}
    {outside : List String} {core : Identity → Except Error Artifact}
    (hcore : ∀ id sub, core id = .ok sub →
      sub.IsUnit id.text ∧ sub.latency = latency ∧ ∀ e, e ∈ sub.externals ↔ e ∈ outside)
    (hgen : ∀ id : Identity, (∃ sub, core id = .ok sub) ↔ id.text ∉ outside)
    (houtside : ∀ e ∈ outside, ∀ top, ∀ roles ≠ [], e ≠ derived top roles) :
    (∃ a, Operator.generate id (Variant.of width extra) latency core = .ok a) ↔
      extra.CollisionFree ∧ id.text ∉ outside := by
  unfold Variant.of
  by_cases hempty : extra.signals = []
  · have hfree : extra.CollisionFree := by simp [ExtraSignals.CollisionFree, hempty]
    rw [if_pos (by simp [ExtraSignals.isEmpty, hempty]), and_iff_right hfree, ← hgen id]
    split <;> exact Iff.rfl
  · rw [if_neg (by simp [ExtraSignals.isEmpty, hempty])]
    refine (Manager.exists_bypass_iff ?_).trans (and_congr_right fun _ => ?_)
    · intro sub hsub
      obtain ⟨hunit, hlatency, hexternals⟩ := hcore _ sub hsub
      exact ⟨hunit, hlatency, fun e he => houtside e ((hexternals e).mp he) id.text⟩
    · constructor
      · rintro ⟨sub, hsub, hname⟩
        rwa [(hcore _ sub hsub).2.2] at hname
      · intro hname
        have hinner : (id.child .inner).text ∉ outside := by
          intro hin
          exact houtside _ hin id.text [.inner] (by simp) (id.text_child_eq .inner)
        obtain ⟨sub, hsub⟩ := (hgen _).mpr hinner
        exact ⟨sub, hsub, by rwa [(hcore _ sub hsub).2.2]⟩

/-- A join has channels, and no extra signals. -/
theorem Join.exists_ofParams_iff {id : Identity} {params : Params} :
    (∃ a, Join.ofParams id params = .ok a) ↔ params.IntegerFrom .size 1 ∧ params.Lists [] := by
  have hshape : ∀ extra : ExtraSignals,
      (∃ variant, Variant.choose "join" ⟨true, false, false⟩ 0 extra = .ok variant) ↔
        extra.signals = [] := by
    intro extra
    unfold Variant.choose Variant.of ExtraSignals.isEmpty
    cases hs : extra.signals <;> simp [Variant.shape, Support.supports]
  rw [← exists_channelCount_iff]
  unfold Join.ofParams
  constructor
  · rintro ⟨a, ha⟩
    obtain ⟨extra, hextra, ha⟩ := bind_ok ha
    obtain ⟨variant, hvariant, ha⟩ := bind_ok ha
    obtain ⟨size, hsize, -⟩ := bind_ok ha
    obtain ⟨signals, hlists, -, hsignals⟩ := Params.extraSignals_ok_iff.mp hextra
    have hnone : signals = [] := by
      have := hsignals.symm.trans ((hshape extra).mp ⟨variant, hvariant⟩)
      simpa [SignalList.declared] using this
    exact ⟨⟨size, hsize⟩, hnone ▸ hlists⟩
  · rintro ⟨⟨size, hsize⟩, hlists⟩
    obtain ⟨extra, hextra, hsignals⟩ :=
      Params.exists_extraSignals hlists ⟨by simp, by simp, by simp⟩
    obtain ⟨variant, hvariant⟩ := (hshape extra).mpr hsignals
    exact exists_bind_ok.mpr
      ⟨extra, hextra, exists_bind_ok.mpr ⟨variant, hvariant, exists_bind_ok.mpr
      ⟨size, hsize, finish_leaf_new id 0 (instancesOf_join size)⟩⟩⟩

/-- Which buffer is meant, and that it has one slot, can be read off the parameters. -/
theorem Buffer.exists_select_iff {params : Params} :
    ((∃ bufferType, BufferType.ofParams params = .ok bufferType) ∧
      params.countOr .numSlots 1 = .ok 1) ↔
      params.SelectsBuffer := by
  refine and_congr ?_ ?_
  · unfold BufferType.ofParams
    cases hhas : params.has .bufferType with
    | false =>
        rw [Params.has_eq_false_iff] at hhas
        simp only [hhas, Bool.false_eq_true, if_false, reduceCtorEq, false_or, true_and]
        rw [← @Params.exists_flagOr_iff params .transparent false, exists_bind_ok]
        simp
    | true =>
        have hne : params.find? .bufferType ≠ none := fun h => by
          simp [Params.has_eq_false_iff.mpr h] at hhas
        simp only [if_true, hne, false_and, or_false]
        rw [exists_bind_ok]
        simp only [Params.string_ok_iff, BufferType.ofTag?]
        constructor
        · rintro ⟨tag, hfind, bufferType, h⟩
          by_cases hdv : tag = "ONE_SLOT_BREAK_DV"
          · exact Or.inl (hdv ▸ hfind)
          · by_cases hr : tag = "ONE_SLOT_BREAK_R"
            · exact Or.inr (hr ▸ hfind)
            · rw [if_neg hdv, if_neg hr] at h
              exact absurd h (by simp)
        · rintro (hfind | hfind)
          · exact ⟨_, hfind, .breakData, rfl⟩
          · exact ⟨_, hfind, .breakReady, rfl⟩
  · rw [Params.countOr_ok_iff, Params.count_ok_iff, and_iff_left rfl]
    refine or_congr Iff.rfl ⟨?_, ?_⟩
    · rintro ⟨i, hfind, hi, -⟩
      have hone : i = 1 := Int64.toInt_inj.mp hi
      rw [hfind, hone]
    · intro hfind
      exact ⟨1, hfind, rfl, by decide⟩

/-- A multiplier needs a payload, and takes any legal extra signals. -/
theorem Multiplier.exists_ofParams_iff {id : Identity} {params : Params} :
    (∃ a, Multiplier.ofParams id params = .ok a) ↔
      params.IntegerFrom .bitwidth 1 ∧ params.CarriesSignals := by
  have hcore : ∀ width (id : Identity) sub, Multiplier.generate id width = .ok sub →
      sub.IsUnit id.text ∧ sub.latency = Multiplier.latency ∧ ∀ e, e ∈ sub.externals ↔
        e ∈ ([] : List String) := by
    intro width id sub hsub
    obtain ⟨hblocks, hexternals, hunit⟩ := Multiplier.generate_ok hsub
    refine ⟨hunit, ?_, fun e => by rw [hexternals]⟩
    simp [Artifact.latency, Artifact.top?, hblocks]
  -- the core never fails, so all that is left to check is the wrapper
  have hgen : ∀ width extra, (∃ a, Operator.generate id (Variant.of width extra) Multiplier.latency
      (fun coreId => Multiplier.generate coreId width) = .ok a) ↔ extra.CollisionFree := by
    intro width extra
    rw [exists_operator_iff (hcore width) (fun id => by simp [Multiplier.generate_new]) (by simp)]
    simp
  rw [← Params.exists_count_pos_iff, Params.carriesSignals_iff]
  constructor
  · rintro ⟨a, ha⟩
    obtain ⟨width, extra, hwidth, hextra, hpos, ha⟩ := Multiplier.ofParams_ok ha
    exact ⟨⟨width, hwidth, Nat.ne_of_gt hpos⟩, extra, hextra, (hgen width extra).mp ⟨a, ha⟩⟩
  · rintro ⟨⟨width, hwidth, hpos⟩, extra, hextra, hfree⟩
    have hoperand : operandWidth (Variant.of width extra) = .ok width := by
      rcases Variant.of_data hpos extra with h | h <;>
        rw [h] <;>
        exact if_pos (Nat.pos_of_ne_zero hpos)
    have hshape := Variant.supports_data hpos extra
    exact exists_bind_ok.mpr ⟨_, Variant.ofParams_eq hwidth hextra hshape, exists_bind_ok.mpr
      ⟨_, hoperand, (hgen width extra).mpr hfree⟩⟩

theorem Precision.ofParams_ok_iff {params : Params} {p : Precision} :
    Precision.ofParams params = .ok p ↔ p.SelectedBy params := by
  unfold Precision.ofParams Params.flag
  simp only [bind_eq_ok_iff, Params.require_ok_iff]
  constructor
  · rintro ⟨isDouble, ⟨value, hvalue, hflag⟩, hp⟩
    cases hp
    split at hflag
    · rename_i b
      cases hflag
      cases isDouble
      · exact Or.inl hvalue
      · exact Or.inl hvalue
    · cases hflag
      exact Or.inr hvalue
    · cases hflag
      exact Or.inr hvalue
    · exact absurd hflag (by simp)
  · intro h
    cases p with
    | single =>
        rcases h with h | h
        · exact ⟨false, ⟨_, h, rfl⟩, rfl⟩
        · exact ⟨false, ⟨_, h, rfl⟩, rfl⟩
    | double =>
        rcases h with h | h
        · exact ⟨true, ⟨_, h, rfl⟩, rfl⟩
        · exact ⟨true, ⟨_, h, rfl⟩, rfl⟩

/--
A floating-point operator needs a precision, and a name other than that of one
of the modules it expects from outside.
-/
theorem FloatOperator.exists_ofParams_iff {op : FloatOperator} {id : Identity} {params : Params} :
    (∃ a, op.ofParams id params = .ok a) ↔
      params.CarriesSignals ∧ ∃ p, Precision.SelectedBy params p ∧ id.text ∉ op.externals p := by
  have hcore : ∀ (p : Precision) (id : Identity) sub, op.generate p id = .ok sub →
      sub.IsUnit id.text ∧ sub.latency = op.latency p ∧ ∀ e, e ∈ sub.externals ↔
        e ∈ op.externals p := by
    intro p id sub hsub
    obtain ⟨hblocks, hexternals, hunit⟩ := FloatOperator.generate_ok hsub
    refine ⟨hunit, ?_, hexternals⟩
    simp [Artifact.latency, Artifact.top?, hblocks]
  have hgen : ∀ (p : Precision) extra,
      (∃ a, Operator.generate id (Variant.of p.width extra) (op.latency p)
      (op.generate p) = .ok a) ↔ extra.CollisionFree ∧ id.text ∉ op.externals p := by
    intro p extra
    exact exists_operator_iff (hcore p) (fun id => FloatOperator.exists_generate_iff)
      (fun e he top roles hroles => external_ne_derived he top hroles)
  rw [Params.carriesSignals_iff]
  constructor
  · rintro ⟨a, ha⟩
    obtain ⟨p, extra, hp, hextra, ha⟩ := FloatOperator.ofParams_ok ha
    obtain ⟨hfree, hname⟩ := (hgen p extra).mp ⟨a, ha⟩
    exact ⟨⟨extra, hextra, hfree⟩, p, Precision.ofParams_ok_iff.mp hp, hname⟩
  · rintro ⟨⟨extra, hextra, hfree⟩, p, hp, hname⟩
    have hwidth : p.width ≠ 0 := by cases p <;> decide
    have hchoose : Variant.choose op.kind .dataOnly p.width extra =
        .ok (Variant.of p.width extra) :=
      if_pos (Variant.supports_data hwidth extra)
    exact exists_bind_ok.mpr
      ⟨p, Precision.ofParams_ok_iff.mpr hp,
      exists_bind_ok.mpr
      ⟨extra, hextra, exists_bind_ok.mpr ⟨_, hchoose, (hgen p extra).mpr ⟨hfree, hname⟩⟩⟩⟩

theorem Identity.ofName_ok_iff {name : String} {id : Identity} :
    Identity.ofName name = .ok id ↔ ∃ h : isIdentifier name = true, id = ⟨name, [], h⟩ := by
  unfold Identity.ofName
  split
  · rename_i h
    rw [Except.ok.injEq, eq_comm]
    constructor
    · intro heq
      exact ⟨h, heq⟩
    · rintro ⟨_, heq⟩
      exact heq
  · rename_i h
    simp [h]

namespace UnitKind

/-- Each kind is found by its tag, and by no other. -/
theorem ofTag?_eq_some_iff {tag : String} {kind : UnitKind} :
    ofTag? tag = some kind ↔ tag = kind.tag := by
  constructor
  · intro h
    unfold ofTag? at h
    have hfound := List.find?_some h
    exact (beq_iff_eq.mp hfound).symm
  · rintro rfl
    cases kind with
    | float op => cases op <;> decide
    | _ => decide

/-- A generator of one block gives a unit that needs nothing from outside. -/
theorem leaf_new {body : Nat → Module} (latency : Nat)
    (h : ∀ width, Item.instancesOf (body width).items = []) (id : Identity) (width : Nat) :
    ∃ sub, (start id).finish (body width) latency = .ok sub ∧ sub.IsUnit id.text ∧
      sub.externals = [] := by
  obtain ⟨sub, hsub⟩ := finish_leaf_new id latency (h width)
  obtain ⟨-, hexternals, -, hunit⟩ := finish_start hsub
  exact ⟨sub, hsub, hunit, hexternals⟩

/-- A kind accepts parameters exactly if it generates a unit from them. -/
theorem exists_generate_iff {kind : UnitKind} {id : Identity} {params : Params} :
    (∃ a, kind.generate id params = .ok a) ↔ kind.Accepts id.text params := by
  -- the two slots serve two kinds each, their own and the buffer that selects one
  have hready : (∃ a, ReadyBreak.ofParams id params = .ok a) ↔ params.CarriesTokens :=
    exists_passThrough_iff (by simp) (leaf_new 0 instancesOf_readyBreak)
  have hdata : (∃ a, DataBreak.ofParams id params = .ok a) ↔ params.CarriesTokens :=
    exists_passThrough_iff (by simp) (leaf_new 1 instancesOf_dataBreak)
  cases kind with
  | join => exact Join.exists_ofParams_iff
  | delayBuffer =>
      show _ ↔ params.IntegerFrom .numSlots 0
      rw [← Params.exists_count_iff]
      refine exists_bind_ok.trans (exists_congr fun slots => and_iff_left ?_)
      exact finish_leaf_new id slots (instancesOf_delayBuffer slots)
  | readyBreak => exact hready
  | dataBreak => exact hdata
  | priorityMerge => exact exists_sized_iff fun size => leaf_new 0 (instancesOf_priorityMerge size)
  | merge => exact exists_sized_iff Merge.generate_new
  | buffer =>
      show _ ↔ params.SelectsBuffer ∧ params.CarriesTokens
      rw [← Buffer.exists_select_iff]
      constructor
      · rintro ⟨a, ha⟩
        obtain ⟨hslots, ⟨htype, ha⟩ | ⟨htype, ha⟩⟩ := Buffer.ofParams_ok ha
        · exact ⟨⟨⟨_, htype⟩, hslots⟩, hdata.mp ⟨a, ha⟩⟩
        · exact ⟨⟨⟨_, htype⟩, hslots⟩, hready.mp ⟨a, ha⟩⟩
      · rintro ⟨⟨⟨bufferType, htype⟩, hslots⟩, htokens⟩
        refine exists_bind_ok.mpr ⟨bufferType, htype, exists_bind_ok.mpr ⟨1, hslots, ?_⟩⟩
        dsimp only
        rw [if_neg (by simp)]
        cases bufferType with
        | breakData => exact hdata.mpr htokens
        | breakReady => exact hready.mpr htokens
  | multiplier => exact Multiplier.exists_ofParams_iff
  | float op => exact FloatOperator.exists_ofParams_iff

end UnitKind

/--
**Which requests are answered.** A unit is generated if and only if its name is
an identifier and its parameters are those that its kind asks for.
-/
theorem generate_ok_iff (request : Request) :
    (∃ a, generate request = .ok a) ↔
      isIdentifier request.name = true ∧
        ∃ kind : UnitKind, request.kind = kind.tag ∧ kind.Accepts request.name request.params := by
  unfold generate UnitKind.generateTagged
  rw [exists_bind_ok]
  constructor
  · rintro ⟨id, hid, a, ha⟩
    obtain ⟨hname, rfl⟩ := Identity.ofName_ok_iff.mp hid
    cases htag : UnitKind.ofTag? request.kind with
    | none =>
        rw [htag] at ha
        exact absurd ha (by simp)
    | some kind =>
        rw [htag] at ha
        exact ⟨hname, kind, UnitKind.ofTag?_eq_some_iff.mp htag,
          UnitKind.exists_generate_iff.mp ⟨a, ha⟩⟩
  · rintro ⟨hname, kind, hkind, haccepts⟩
    refine ⟨⟨request.name, [], hname⟩, Identity.ofName_ok_iff.mpr ⟨hname, rfl⟩, ?_⟩
    rw [UnitKind.ofTag?_eq_some_iff.mpr hkind]
    exact UnitKind.exists_generate_iff.mpr haccepts

end Handshake
