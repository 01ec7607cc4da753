import Handshake.Proofs.Assembly
import Handshake.Proofs.Outcome
import Handshake.Units.Catalog

/-!
# What the generators build

One lemma for each generator that has submodules: which blocks its artifact
consists of, in their order. A generator without submodules is read by
`Accumulator.finish_start`.

A generator is a sequence of requests for submodules and externals, with a
module at the end that refers to them. Each step may fail, so the lemmas start
from the success of the whole and take the steps apart. What comes out is a list
of blocks, submodules before the modules that instantiate them, with the names
that roles give them and the latency that is announced. Later statements about
artifacts use these lists and never look at an accumulator again.
-/

namespace Handshake

open Accumulator

/-- A submodule that consists of one block. -/
theorem Accumulator.Sound.require_leaf {acc acc' : Accumulator} {role : Role}
    {dependency : Dependency} {content : Module} {latency : Nat} (h : acc.Sound)
    (hr : acc.require role (fun id => (start id).finish content latency) = .ok (dependency, acc')) :
    dependency.name = derived acc.id.text [role] ∧ dependency.latency = latency ∧ acc'.id = acc.id ∧
      acc'.artifact.blocks =
        acc.artifact.blocks ++ [⟨{ content with name := derived acc.id.text [role] }, latency⟩] ∧
      (∀ e, e ∈ acc'.artifact.externals ↔ e ∈ acc.artifact.externals) ∧ acc'.Sound := by
  obtain ⟨sub, hsub, hreq⟩ := h.require_ok (fun a ha => (finish_start ha).2.2.2.wellFormed_top) hr
  obtain ⟨hblocks, hexternals, hlatency, -⟩ := finish_start hsub
  refine ⟨hreq.name_eq, ?_, hreq.id_eq, ?_, ?_, hreq.sound⟩
  · rw [hreq.dependency_eq]
    exact hlatency
  · rw [hreq.blocks_eq, hblocks, acc.id.text_child_eq role]
  · intro e
    rw [hreq.externals_iff, hexternals]
    simp

theorem externals_eq_nil {a : Artifact}
    (h : ∀ e, e ∈ a.externals ↔ e ∈ (Artifact.empty).externals) : a.externals = [] :=
  List.eq_nil_iff_forall_not_mem.mpr fun e he => by simpa [Artifact.empty] using (h e).mp he

/-- A merge: the combinational merge, the buffer, and the module that connects them. -/
theorem Merge.generate_ok {size width : Nat} {id : Identity} {a : Artifact}
    (h : Merge.generate size id width = .ok a) :
    a.blocks =
      [⟨{ PriorityMerge.body size width with name := derived id.text [.inner] }, 0⟩,
        ⟨{ ReadyBreak.body width with name := derived id.text [.oneSlotBreakR] }, 0⟩,
        ⟨{ Merge.body (derived id.text [.inner]) (derived id.text [.oneSlotBreakR]) size width with
            name := id.text }, 0⟩] ∧
      a.IsUnit id.text := by
  unfold Merge.generate at h
  obtain ⟨⟨inner, acc₁⟩, hinner, h⟩ := bind_ok h
  obtain ⟨⟨output, acc₂⟩, houtput, h⟩ := bind_ok h
  obtain ⟨hname₁, hlat₁, hid₁, hblocks₁, -, hsound₁⟩ := (sound_start id).require_leaf hinner
  obtain ⟨hname₂, hlat₂, hid₂, hblocks₂, -, hsound₂⟩ := hsound₁.require_leaf houtput
  obtain ⟨hblocks, -, -, hunit⟩ := hsound₂.finish_ok h
  have hid : acc₂.id = id := hid₂.trans hid₁
  rw [hid₁] at hname₂ hblocks₂
  rw [hblocks₁] at hblocks₂
  rw [hid, hblocks₂, hname₁, hname₂, hlat₁, hlat₂] at hblocks
  exact ⟨hblocks, hid ▸ hunit⟩

/-- The control of an operator: a join, the delay of the valid bit, and the last stage. -/
theorem Operator.control_ok {acc acc' : Accumulator} {latency depth : Nat} {items : List Item}
    (hs : acc.Sound) (h : Operator.control acc latency = .ok (items, depth, acc')) :
    items = Operator.controlItems (derived acc.id.text [.join]) (derived acc.id.text [.buff])
        (derived acc.id.text [.oneSlotBreakDv]) ∧
      depth = 0 + (latency - 1) + 1 ∧ acc'.id = acc.id ∧
      acc'.artifact.blocks = acc.artifact.blocks ++
        [⟨{ Join.body 2 with name := derived acc.id.text [.join] }, 0⟩,
          ⟨{ DelayBuffer.body (latency - 1) with name := derived acc.id.text [.buff] },
            latency - 1⟩,
            ⟨{ DataBreak.body 0 with name := derived acc.id.text [.oneSlotBreakDv] }, 1⟩] ∧
      (∀ e, e ∈ acc'.artifact.externals ↔ e ∈ acc.artifact.externals) ∧ acc'.Sound := by
  unfold Operator.control at h
  obtain ⟨⟨join, acc₁⟩, hjoin, h⟩ := bind_ok h
  obtain ⟨⟨delay, acc₂⟩, hdelay, h⟩ := bind_ok h
  obtain ⟨⟨output, acc₃⟩, houtput, h⟩ := bind_ok h
  obtain ⟨hname₁, hlat₁, hid₁, hblocks₁, hext₁, hsound₁⟩ := hs.require_leaf hjoin
  obtain ⟨hname₂, hlat₂, hid₂, hblocks₂, hext₂, hsound₂⟩ := hsound₁.require_leaf hdelay
  obtain ⟨hname₃, hlat₃, hid₃, hblocks₃, hext₃, hsound₃⟩ := hsound₂.require_leaf houtput
  simp only [pure_eq_ok, Except.ok.injEq, Prod.mk.injEq] at h
  obtain ⟨rfl, rfl, rfl⟩ := h
  rw [hid₁] at hname₂ hblocks₂ hid₂
  rw [hid₂] at hname₃ hblocks₃ hid₃
  refine ⟨by rw [hname₁, hname₂, hname₃], by rw [hlat₁, hlat₂, hlat₃], hid₃, ?_, ?_, hsound₃⟩
  · rw [hblocks₃, hblocks₂, hblocks₁]
    simp
  · intro e
    rw [hext₃, hext₂, hext₁]

/-- A multiplier without extra signals: the core, the control, and the module that connects them. -/
theorem Multiplier.generate_ok {width : Nat} {id : Identity} {a : Artifact}
    (h : Multiplier.generate id width = .ok a) :
    a.blocks =
      [⟨{ Multiplier.coreBody width with name := derived id.text [.mul4Stage] },
          Multiplier.latency⟩,
        ⟨{ Join.body 2 with name := derived id.text [.join] }, 0⟩,
        ⟨{ DelayBuffer.body (Multiplier.latency - 1) with name := derived id.text [.buff] },
          Multiplier.latency - 1⟩,
        ⟨{ DataBreak.body 0 with name := derived id.text [.oneSlotBreakDv] }, 1⟩,
        ⟨{ anonymous (Operator.ports width)
            (Operator.controlItems (derived id.text [.join]) (derived id.text [.buff])
              (derived id.text [.oneSlotBreakDv]) ++
              [.inst (Multiplier.coreInstance (derived id.text [.mul4Stage]))]) with
            name := id.text },
          Multiplier.latency⟩] ∧
      a.externals = [] ∧ a.IsUnit id.text := by
  unfold Multiplier.generate at h
  obtain ⟨⟨core, acc₁⟩, hcore, h⟩ := bind_ok h
  obtain ⟨⟨control, depth, acc₂⟩, hcontrol, h⟩ := bind_ok h
  obtain ⟨hname₁, hlat₁, hid₁, hblocks₁, hext₁, hsound₁⟩ := (sound_start id).require_leaf hcore
  obtain ⟨hitems, hdepth, hid₂, hblocks₂, hext₂, hsound₂⟩ := Operator.control_ok hsound₁ hcontrol
  dsimp only at h
  split at h
  · exact absurd h (by simp [throw, throwThe, MonadExceptOf.throw, bind, Except.bind])
  · obtain ⟨hblocks, hext, -, hunit⟩ := hsound₂.finish_ok h
    have hid : acc₂.id = id := hid₂.trans hid₁
    rw [hid₁] at hitems hblocks₂
    rw [hid, hblocks₂, hblocks₁, hitems, hname₁, hdepth] at hblocks
    refine ⟨hblocks, ?_, hid ▸ hunit⟩
    refine externals_eq_nil fun e => ?_
    rw [hext, hext₂, hext₁]
    rfl

/-- Externals that are declared one after the other. -/
theorem Accumulator.Sound.externals_ok {acc acc' : Accumulator} (names : List String)
    (h : acc.Sound) (hf : names.foldlM Accumulator.external acc = .ok acc') :
    acc'.id = acc.id ∧ acc'.artifact.blocks = acc.artifact.blocks ∧
      (∀ e, e ∈ acc'.artifact.externals ↔ e ∈ acc.artifact.externals ∨ e ∈ names) ∧ acc'.Sound := by
  induction names generalizing acc with
  | nil =>
      rw [List.foldlM_nil, pure_eq_ok, Except.ok.injEq] at hf
      subst hf
      exact ⟨rfl, rfl, by simp, h⟩
  | cons name rest ih =>
      rw [List.foldlM_cons] at hf
      obtain ⟨acc₁, h₁, hf⟩ := bind_ok hf
      obtain ⟨hid₁, hblocks₁, hext₁, hsound₁⟩ := h.external_ok h₁
      obtain ⟨hid, hblocks, hext, hsound⟩ := ih hsound₁ hf
      refine ⟨hid.trans hid₁, hblocks.trans hblocks₁, fun e => ?_, hsound⟩
      rw [hext, hext₁, List.mem_cons, or_assoc]

/--
A floating-point operator without extra signals: the control, and the module
around the cores.
-/
theorem FloatOperator.generate_ok {op : FloatOperator} {p : Precision} {id : Identity}
    {a : Artifact} (h : op.generate p id = .ok a) :
    a.blocks =
      [⟨{ Join.body 2 with name := derived id.text [.join] }, 0⟩,
        ⟨{ DelayBuffer.body (op.latency p - 1) with name := derived id.text [.buff] },
          op.latency p - 1⟩,
          ⟨{ DataBreak.body 0 with name := derived id.text [.oneSlotBreakDv] }, 1⟩,
          ⟨{ anonymous (Operator.ports p.width)
            (Operator.controlItems (derived id.text [.join]) (derived id.text [.buff])
              (derived id.text [.oneSlotBreakDv]) ++ op.datapath p) with name := id.text },
          op.latency p⟩] ∧
      (∀ e, e ∈ a.externals ↔ e ∈ [inputConverter p, outputConverter p, op.core p]) ∧
        a.IsUnit id.text := by
  unfold FloatOperator.generate at h
  obtain ⟨⟨control, depth, acc₁⟩, hcontrol, h⟩ := bind_ok h
  obtain ⟨acc₂, hexternals, h⟩ := bind_ok h
  obtain ⟨hitems, hdepth, hid₁, hblocks₁, hext₁, hsound₁⟩ :=
    Operator.control_ok (sound_start id) hcontrol
  obtain ⟨hid₂, hblocks₂, hext₂, hsound₂⟩ := hsound₁.externals_ok _ hexternals
  obtain ⟨hblocks, hext, -, hunit⟩ := hsound₂.finish_ok h
  have hid : acc₂.id = id := hid₂.trans hid₁
  -- the join takes no time, the delay all cycles but one, and the last stage that one
  have hlatency : 0 + (op.latency p - 1) + 1 = op.latency p := by
    cases op <;> cases p <;> rfl
  rw [hlatency] at hdepth
  rw [hid, hblocks₂, hblocks₁, hitems, hdepth] at hblocks
  refine ⟨hblocks, fun e => ?_, hid ▸ hunit⟩
  rw [hext, hext₂, hext₁]
  simp [start, Artifact.empty]

/-! ## Wrappers -/

namespace Manager

/-- Extra signals through a unit: the blocks of the unit on the wider payload, then the wrapper. -/
theorem concat_ok {id : Identity} {first second : PortGroup} {ins outs : List PortGroup}
    {extra : ExtraSignals} {generateInner : Identity → Nat → Except Error Artifact} {a : Artifact}
    (hgen : ∀ width sub, combinedWidth first.width extra = .ok width →
      generateInner (id.child .inner) width = .ok sub → ∀ top, sub.top? = some top →
        sub.WellFormed top.identity)
    (h : concat id (first :: ins) (second :: outs) extra generateInner = .ok a) :
    ∃ (width : Nat) (sub : Artifact) (laidIns laidOuts : List LaidOut),
      checkPortGroups (first :: ins) (second :: outs) extra = .ok () ∧
      combinedWidth first.width extra = .ok width ∧
      (first :: ins).mapM layOut = .ok laidIns ∧ (second :: outs).mapM layOut = .ok laidOuts ∧
      generateInner (id.child .inner) width = .ok sub ∧ sub.IsUnit (id.child .inner).text ∧
      a.blocks = sub.blocks ++
        [⟨{ concatBody (derived id.text [.inner]) (outerPorts (first :: ins) (second :: outs))
          laidIns laidOuts with
            name := id.text }, sub.latency⟩] ∧
      a.IsUnit id.text := by
  unfold concat at h
  dsimp only at h
  obtain ⟨_, hcheck, h⟩ := bind_ok h
  obtain ⟨width, hwidth, h⟩ := bind_ok h
  obtain ⟨laidIns, hins, h⟩ := bind_ok h
  obtain ⟨laidOuts, houts, h⟩ := bind_ok h
  obtain ⟨⟨inner, acc⟩, hinner, h⟩ := bind_ok h
  obtain ⟨sub, hsub, hreq⟩ := (sound_start id).require_ok (fun sub => hgen width sub hwidth) hinner
  obtain ⟨hblocks, -, -, hunit⟩ := hreq.sound.finish_ok h
  have hid : acc.id = id := hreq.id_eq
  have hlatency : inner.latency = sub.latency := by rw [hreq.dependency_eq]
  refine ⟨width, sub, laidIns, laidOuts, hcheck, hwidth, hins, houts, hsub, hreq.isUnit, ?_,
    hid ▸ hunit⟩
  rw [hblocks, hreq.blocks_eq, hid, hreq.name_eq, hlatency]
  rfl

/-- Extra signals past a unit: the blocks of the unit, the delay line, then the wrapper. -/
theorem bypass_ok {id : Identity} {first drain : PortGroup} {ins outs : List PortGroup}
    {extra : ExtraSignals} {generateInner : Identity → Except Error Artifact} {latency : Nat}
    {a : Artifact}
    (hgen : ∀ sub, generateInner (id.child .inner) = .ok sub → sub.IsUnit (id.child .inner).text)
    (h : bypass id (first :: ins) (drain :: outs) extra generateInner latency = .ok a) :
    ∃ (sub : Artifact) (layout : Layout),
      checkPortGroups (first :: ins) (drain :: outs) extra = .ok () ∧
      generateInner (id.child .inner) = .ok sub ∧ sub.latency = latency ∧
      Layout.of 0 extra = .ok layout ∧
      a.blocks = sub.blocks ++
        [⟨{ (DelayLine.mk latency extra.totalWidth).body with name := derived id.text [.buff] },
          latency⟩, ⟨{ bypassBody (derived id.text [.inner]) (derived id.text [.buff])
              (outerPorts (first :: ins) (drain :: outs)) (first :: ins) (drain :: outs) first drain
                layout with
            name := id.text }, latency⟩] ∧
      (∀ e, e ∈ a.externals ↔ e ∈ sub.externals) ∧ a.latency = latency ∧ a.IsUnit id.text := by
  unfold bypass at h
  dsimp only at h
  obtain ⟨_, hcheck, h⟩ := bind_ok h
  obtain ⟨⟨inner, acc₁⟩, hinner, h⟩ := bind_ok h
  obtain ⟨sub, hsub, hreq⟩ :=
    (sound_start id).require_ok (fun sub hsub => (hgen sub hsub).wellFormed_top) hinner
  have hlatency : inner.latency = sub.latency := by rw [hreq.dependency_eq]
  dsimp only at h
  -- the latency that was announced is that of the unit, or this would have failed
  split at h
  · exact absurd h (by simp [throw, throwThe, MonadExceptOf.throw, bind, Except.bind])
  rename_i hdepth
  obtain ⟨⟨line, acc₂⟩, hline, h⟩ := bind_ok h
  obtain ⟨hname₂, -, hid₂, hblocks₂, hext₂, hsound₂⟩ := hreq.sound.require_leaf hline
  obtain ⟨layout, hlayout, h⟩ := bind_ok h
  obtain ⟨hblocks, hext, hlat, hunit⟩ := hsound₂.finish_ok h
  have hid₁ : acc₁.id = id := hreq.id_eq
  have hid : acc₂.id = id := hid₂.trans hid₁
  refine ⟨sub, layout, hcheck, hsub, ?_, hlayout, ?_, ?_, hlat, hid ▸ hunit⟩
  · exact hlatency ▸ Decidable.not_not.mp hdepth
  · rw [hid₁] at hname₂ hblocks₂
    rw [hblocks, hblocks₂, hreq.blocks_eq, hid, hreq.name_eq, hname₂, List.append_assoc]
    rfl
  · intro e
    rw [hext, hext₂, hreq.externals_iff]
    simp [start, Artifact.empty]

end Manager

end Handshake
