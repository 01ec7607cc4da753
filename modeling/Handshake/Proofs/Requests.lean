import Handshake.Proofs.Declarations

/-!
# What a request is answered with

Ten kinds of units, but few ways to build one: a join and a delay buffer stand
alone, the other kinds either hand tokens on or compute on them, and each of
those stands alone as well or, with extra signals, inside a wrapper. What holds
of every answer is proved by these six cases.

`Forwarding` and `Computing` list the kinds of either sort, with the generator
of the plain unit and with its width and latency where these are fixed by the
kind. `Built` has the six cases. `generate_built` is the only place where the
catalogue of units is gone through; all that is said of generated artifacts
later begins with it.
-/

namespace Handshake

/-- A number of channels that was accepted is positive. -/
theorem channelCount_ok {params : Params} {size : Nat} (h : channelCount params = .ok size) :
    params.count .size = .ok size ∧ 0 < size := by
  obtain ⟨count, hcount, h⟩ := bind_ok h
  split at h
  · exact absurd h (by simp)
  · rename_i hne
    cases h
    exact ⟨hcount, Nat.pos_of_ne_zero hne⟩

/--
A unit that hands tokens on is generated as it is, or inside a wrapper if there
are extra signals.
-/
theorem passThrough_ok {id : Identity} {kind : String} {params : Params} {size : Option Nat}
    {generate : Identity → Nat → Except Error Artifact} {a : Artifact}
    (h : passThrough id kind params size generate = .ok a) :
    ∃ width extra, params.count .bitwidth = .ok width ∧ params.extraSignals = .ok extra ∧
      ((extra.signals = [] ∧ generate id width = .ok a) ∨
        (extra.signals ≠ [] ∧
          Manager.concat id [⟨"ins", width, extra, size⟩] [⟨"outs", width, extra, none⟩] extra
            generate = .ok a)) := by
  unfold passThrough at h
  obtain ⟨variant, hvariant, h⟩ := bind_ok h
  obtain ⟨width, extra, hwidth, hextra, hchoose⟩ := Variant.ofParams_ok hvariant
  obtain ⟨rfl, -⟩ := Variant.choose_ok hchoose
  refine ⟨width, extra, hwidth, hextra, ?_⟩
  by_cases hempty : extra.signals = []
  · refine Or.inl ⟨hempty, ?_⟩
    unfold Variant.of at h
    rw [if_pos (by simp [ExtraSignals.isEmpty, hempty])] at h
    by_cases hzero : width = 0
    · rw [if_pos hzero] at h
      exact hzero ▸ h
    · rw [if_neg hzero] at h
      exact h
  · rw [Variant.of_extra hempty] at h
    exact Or.inr ⟨hempty, h⟩

/-- A unit that computes is generated as it is, or inside a wrapper if there are extra signals. -/
theorem Operator.generate_of_ok {id : Identity} {width latency : Nat} {extra : ExtraSignals}
    {core : Identity → Except Error Artifact} {a : Artifact}
    (h : generate id (Variant.of width extra) latency core = .ok a) :
    (extra.signals = [] ∧ core id = .ok a) ∨
      (extra.signals ≠ [] ∧ generate id (.signalManaged width extra) latency core = .ok a) := by
  by_cases hempty : extra.signals = []
  · refine Or.inl ⟨hempty, ?_⟩
    unfold Variant.of at h
    rw [if_pos (by simp [ExtraSignals.isEmpty, hempty])] at h
    split at h
    · exact h
    · exact h
  · rw [Variant.of_extra hempty] at h
    exact Or.inr ⟨hempty, h⟩

/--
The units that hand tokens on: their kind, their number of channels, and what
generates them for a payload.
-/
inductive Forwarding : UnitKind → Option Nat → (Identity → Nat → Except Error Artifact) → Prop where
  | priorityMerge {size : Nat} (hpos : 0 < size) : Forwarding .priorityMerge (some size)
      (PriorityMerge.generate size)
  | merge {size : Nat} (hpos : 0 < size) : Forwarding .merge (some size) (Merge.generate size)
  | readyBreak : Forwarding .readyBreak none ReadyBreak.generate
  | dataBreak : Forwarding .dataBreak none DataBreak.generate
  | readyBuffer : Forwarding .buffer none ReadyBreak.generate
  | dataBuffer : Forwarding .buffer none DataBreak.generate

/--
The units that compute: their kind, the width of their operands, their latency,
and what generates them.
-/
inductive Computing : UnitKind → Nat → Nat → (Identity → Except Error Artifact) → Prop where
  | multiplier {width : Nat} (hpos : 0 < width) :
      Computing .multiplier width Multiplier.latency fun id => Multiplier.generate id width
  | float (op : FloatOperator) (p : Precision) : Computing (.float op) p.width (op.latency p)
      (op.generate p)

/-- The ways to build a unit of a kind. -/
inductive Built : UnitKind → Identity → Artifact → Prop where
  | join {id : Identity} {a : Artifact} {size : Nat} (hpos : 0 < size)
      (ha : Join.generate id size = .ok a) :
      Built .join id a
  | delayBuffer {id : Identity} {a : Artifact} {slots : Nat}
      (ha : DelayBuffer.generate id slots = .ok a) :
      Built .delayBuffer id a
  | forwarding {kind : UnitKind} {id : Identity} {a : Artifact} {size : Option Nat} {width : Nat}
      {generate : Identity → Nat → Except Error Artifact} (hunit : Forwarding kind size generate)
      (ha : generate id width = .ok a) : Built kind id a
  | carrying {kind : UnitKind} {id : Identity} {a : Artifact} {size : Option Nat} {width : Nat}
      {extra : ExtraSignals}
      {generate : Identity → Nat → Except Error Artifact} (hunit : Forwarding kind size generate)
      (hne : extra.signals ≠ [])
      (ha : Manager.concat id [⟨"ins", width, extra, size⟩] [⟨"outs", width, extra, none⟩] extra
        generate = .ok a) :
      Built kind id a
  | computing {kind : UnitKind} {id : Identity} {a : Artifact} {width latency : Nat}
      {core : Identity → Except Error Artifact} (hunit : Computing kind width latency core)
      (ha : core id = .ok a) :
      Built kind id a
  | bypassing {kind : UnitKind} {id : Identity} {a : Artifact} {width latency : Nat}
      {extra : ExtraSignals}
      {core : Identity → Except Error Artifact} (hunit : Computing kind width latency core)
      (hne : extra.signals ≠ [])
      (ha : Operator.generate id (.signalManaged width extra) latency core = .ok a) :
      Built kind id a

/-- A unit that hands tokens on stands alone, or in a wrapper that puts all on one bus. -/
theorem Forwarding.built {kind : UnitKind} {size : Option Nat}
    {generate : Identity → Nat → Except Error Artifact} (h : Forwarding kind size generate)
    {id : Identity} {tag : String} {params : Params} {a : Artifact}
    (ha : passThrough id tag params size generate = .ok a) : Built kind id a := by
  obtain ⟨width, extra, -, -, ⟨-, hplain⟩ | ⟨hne, hwrapped⟩⟩ := passThrough_ok ha
  · exact .forwarding h hplain
  · exact .carrying h hne hwrapped

/-- A unit that computes stands alone, or in a wrapper with a delay line. -/
theorem Computing.built {kind : UnitKind} {width latency : Nat}
    {core : Identity → Except Error Artifact} (h : Computing kind width latency core)
    {id : Identity} {extra : ExtraSignals} {a : Artifact}
    (ha : Operator.generate id (Variant.of width extra) latency core = .ok a) :
    Built kind id a := by
  rcases Operator.generate_of_ok ha with ⟨-, hplain⟩ | ⟨hne, hwrapped⟩
  · exact .computing h hplain
  · exact .bypassing h hne hwrapped

theorem UnitKind.built {kind : UnitKind} {id : Identity} {params : Params} {a : Artifact}
    (h : kind.generate id params = .ok a) : Built kind id a := by
  cases kind with
  | join =>
      obtain ⟨extra, -, h⟩ := bind_ok h
      obtain ⟨variant, -, h⟩ := bind_ok h
      obtain ⟨size, hsize, h⟩ := bind_ok h
      exact .join (channelCount_ok hsize).2 h
  | priorityMerge =>
      obtain ⟨size, hsize, h⟩ := bind_ok h
      exact (Forwarding.priorityMerge (channelCount_ok hsize).2).built h
  | merge =>
      obtain ⟨size, hsize, h⟩ := bind_ok h
      exact (Forwarding.merge (channelCount_ok hsize).2).built h
  | buffer =>
      -- a buffer of one slot is one of the two breaks
      obtain ⟨-, ⟨-, h⟩ | ⟨-, h⟩⟩ := Buffer.ofParams_ok h
      · exact Forwarding.dataBuffer.built h
      · exact Forwarding.readyBuffer.built h
  | readyBreak => exact Forwarding.readyBreak.built h
  | dataBreak => exact Forwarding.dataBreak.built h
  | delayBuffer =>
      obtain ⟨slots, -, h⟩ := bind_ok h
      exact .delayBuffer h
  | multiplier =>
      obtain ⟨width, extra, -, -, hpos, h⟩ := Multiplier.ofParams_ok h
      exact (Computing.multiplier hpos).built h
  | float op =>
      obtain ⟨p, extra, -, -, h⟩ := FloatOperator.ofParams_ok h
      exact (Computing.float op p).built h

/-- **Every accepted request is answered in one of these ways.** -/
theorem generate_built {request : Request} {a : Artifact} (h : generate request = .ok a) :
    ∃ kind id, UnitKind.ofTag? request.kind = some kind ∧ Built kind id a := by
  obtain ⟨id, -, h⟩ := bind_ok h
  unfold UnitKind.generateTagged at h
  split at h
  · rename_i kind htag
    exact ⟨kind, id, htag, kind.built h⟩
  · exact absurd h (by simp)

/-! ## The artifacts are of units -/

section

variable {kind : UnitKind} {id : Identity} {a : Artifact} {size : Option Nat} {width latency : Nat}
  {extra : ExtraSignals}

theorem Forwarding.isUnit {generate : Identity → Nat → Except Error Artifact}
    (h : Forwarding kind size generate) (ha : generate id width = .ok a) : a.IsUnit id.text := by
  cases h with
  | priorityMerge | readyBreak | dataBreak | readyBuffer | dataBuffer =>
      exact (Accumulator.finish_start ha).2.2.2
  | merge => exact (Merge.generate_ok ha).2

theorem Computing.isUnit {core : Identity → Except Error Artifact}
    (h : Computing kind width latency core) (ha : core id = .ok a) : a.IsUnit id.text := by
  cases h with
  | multiplier => exact (Multiplier.generate_ok ha).2.2
  | float op p => exact (FloatOperator.generate_ok ha).2.2

theorem Computing.width_pos {core : Identity → Except Error Artifact}
    (h : Computing kind width latency core) : 0 < width := by
  cases h with
  | multiplier hpos => exact hpos
  | float op p => cases p <;> decide

/-- Every pipeline has at least two stages, so that the delay inside of it is not empty. -/
theorem Computing.latency_gt {core : Identity → Except Error Artifact}
    (h : Computing kind width latency core) : 1 < latency := by
  cases h with
  | multiplier => decide
  | float op p => cases op <;> cases p <;> decide

/-- An operator announces its latency. -/
theorem Computing.latency_eq {core : Identity → Except Error Artifact}
    (h : Computing kind width latency core) (ha : core id = .ok a) : a.latency = latency := by
  cases h with
  | multiplier =>
      rw [Artifact.latency, Artifact.top?, (Multiplier.generate_ok ha).1]
      rfl
  | float op p =>
      rw [Artifact.latency, Artifact.top?, (FloatOperator.generate_ok ha).1]
      rfl

theorem Built.isUnit (h : Built kind id a) : a.IsUnit id.text := by
  cases h with
  | join hpos ha => exact (Accumulator.finish_start ha).2.2.2
  | delayBuffer ha => exact (Accumulator.finish_start ha).2.2.2
  | forwarding hunit ha => exact hunit.isUnit ha
  | carrying hunit hne ha =>
      obtain ⟨width, sub, laidIns, laidOuts, -, -, -, -, -, -, -, hwhole⟩ :=
        Manager.concat_ok (fun w sub _ hsub => (hunit.isUnit hsub).wellFormed_top) ha
      exact hwhole
  | computing hunit ha => exact hunit.isUnit ha
  | bypassing hunit hne ha =>
      obtain ⟨sub, layout, -, -, -, -, -, -, -, hwhole⟩ :=
        Manager.bypass_ok (fun sub hsub => hunit.isUnit hsub) ha
      exact hwhole

end

end Handshake
