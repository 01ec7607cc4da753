import Handshake.Proofs.Bypassing
import Handshake.Proofs.Concatenation
import Handshake.Proofs.Feasibility
import Handshake.Proofs.Requests

/-!
# What the blocks of an artifact can be

An artifact answers a request with one block or with several, but each block is
one of a dozen bodies under a name. Seven of them have no submodules. The others
rely on the artifact for theirs: what they instantiate is a block with the ports
they connect, or an external core. What holds of every block of every artifact
is proved body by body.

`Body` lists the bodies, each with what it needs to make sense: that widths are
positive where the body depends on it, and that the artifact offers certain
ports under certain names (`Offers`). Having a body is a property of a block in
an artifact, and remains true in any larger one. That is why the blocks of a
unit keep theirs inside of a wrapper.
-/

namespace Handshake

/-- The artifact defines a module with the given name and ports. -/
def Artifact.Offers (a : Artifact) (name : String) (ports : List Port) : Prop :=
  ∃ b ∈ a.blocks, b.identity = name ∧ b.content.ports = ports

/-- The bodies of blocks, with what each needs of the artifact it stands in. -/
inductive Body (a : Artifact) : Module → Prop where
  | join {size : Nat} (hpos : 0 < size) : Body a (Join.body size)
  | priorityMerge {size : Nat} (width : Nat) (hpos : 0 < size) : Body a
      (PriorityMerge.body size width)
  | readyBreak (width : Nat) : Body a (ReadyBreak.body width)
  | dataBreak (width : Nat) : Body a (DataBreak.body width)
  | delayBuffer (slots : Nat) : Body a (DelayBuffer.body slots)
  | delayLine {line : DelayLine} (hlatency : line.latency ≠ 0) (hwidth : 0 < line.width) :
      Body a line.body
  | multiplierCore (width : Nat) : Body a (Multiplier.coreBody width)
  | merge {inner output : String} {size width : Nat}
      (hinner : a.Offers inner (passThroughPorts size width))
      (houtput : a.Offers output (passThroughPorts 1 width)) :
      Body a (Merge.body inner output size width)
  | multiplier {core join delay output : String} {width : Nat} (hpos : 0 < width)
      (hcore : a.Offers core (Multiplier.corePorts width))
      (hjoin : a.Offers join (Join.body 2).ports) (hdelay : a.Offers delay DelayBuffer.ports)
      (houtput : a.Offers output (passThroughPorts 1 0)) :
      Body a (Multiplier.operatorBody width core join delay output)
  | float {join delay output : String} (op : FloatOperator) (p : Precision)
      (hexternals : ∀ e ∈ op.externals p, e ∈ a.externals)
      (hjoin : a.Offers join (Join.body 2).ports) (hdelay : a.Offers delay DelayBuffer.ports)
      (houtput : a.Offers output (passThroughPorts 1 0)) :
      Body a (Operator.body p.width join delay output (op.datapath p))
  | bundling {inner : String} {width : Nat} {extra : ExtraSignals} {layout : Layout}
      {size : Option Nat}
      (hgrouped : Manager.Grouped width extra layout [⟨"ins", width, extra, size⟩]
        [⟨"outs", width, extra, none⟩])
      (hinner : a.Offers inner (Manager.bundledPorts [⟨"ins", width, extra, size⟩]
        [⟨"outs", width, extra, none⟩] layout.total)) :
      Body a (Manager.bundling inner [⟨"ins", width, extra, size⟩]
        [⟨"outs", width, extra, none⟩] layout)
  | bypassing {inner line : String} {width latency : Nat} {extra : ExtraSignals} {layout : Layout}
      (hpos : 0 < width) (hne : extra.signals ≠ []) (hlayout : Layout.of 0 extra = .ok layout)
      (hcheck : Manager.checkPortGroups (Manager.operands width extra) (Manager.results width extra)
        extra = .ok ())
      (hinner : a.Offers inner (Operator.ports width))
      (hline : a.Offers line (DelayLine.mk latency layout.total).ports) :
      Body a (Manager.wrapper inner line width extra layout)

/-- A block with one of the bodies. -/
def Block.Known (a : Artifact) (b : Block) : Prop :=
  ∃ m, Body a m ∧ b.content = { m with name := b.identity }

theorem Body.known {a : Artifact} {m : Module} {name : String} {latency : Nat} (h : Body a m) :
    Block.Known a ⟨{ m with name }, latency⟩ :=
  ⟨m, h, rfl⟩

theorem Artifact.offers {a : Artifact} {m : Module} {name : String} {latency : Nat}
    (h : ⟨{ m with name }, latency⟩ ∈ a.blocks) : a.Offers name m.ports :=
  ⟨_, h, rfl, rfl⟩

section

variable {kind : UnitKind} {id : Identity} {a sub : Artifact} {size : Option Nat}
    {width latency : Nat} {extra : ExtraSignals}

/-- The blocks of a unit that hands tokens on, inside any artifact that has them. -/
theorem Forwarding.known {generate : Identity → Nat → Except Error Artifact}
    (h : Forwarding kind size generate) (hsub : generate id width = .ok sub)
    (hin : ∀ b ∈ sub.blocks, b ∈ a.blocks) :
    (∀ b ∈ sub.blocks, b.Known a) ∧ a.Offers id.text (passThroughPorts (size.getD 1) width) := by
  cases h with
  | priorityMerge hpos =>
      rw [(Accumulator.finish_start hsub).1] at hin ⊢
      exact ⟨List.forall_mem_singleton.mpr (Body.priorityMerge width hpos).known,
        Artifact.offers (hin _ List.mem_cons_self)⟩
  | readyBreak | readyBuffer =>
      rw [(Accumulator.finish_start hsub).1] at hin ⊢
      exact ⟨List.forall_mem_singleton.mpr (Body.readyBreak width).known,
        Artifact.offers (hin _ List.mem_cons_self)⟩
  | dataBreak | dataBuffer =>
      rw [(Accumulator.finish_start hsub).1] at hin ⊢
      exact ⟨List.forall_mem_singleton.mpr (Body.dataBreak width).known,
        Artifact.offers (hin _ List.mem_cons_self)⟩
  | merge hpos =>
      rw [(Merge.generate_ok hsub).1] at hin ⊢
      simp only [List.forall_mem_cons, List.not_mem_nil, false_imp_iff, implies_true,
        and_true] at hin ⊢
      obtain ⟨hinner, houtput, hwhole⟩ := hin
      exact ⟨⟨(Body.priorityMerge width hpos).known, (Body.readyBreak width).known,
        (Body.merge (Artifact.offers hinner) (Artifact.offers houtput)).known⟩,
          Artifact.offers hwhole⟩

/--
The blocks of a unit that computes, inside any artifact that has them and their
external cores.
-/
theorem Computing.known {core : Identity → Except Error Artifact}
    (h : Computing kind width latency core) (hsub : core id = .ok sub)
    (hin : ∀ b ∈ sub.blocks, b ∈ a.blocks) (hexternals : ∀ e ∈ sub.externals, e ∈ a.externals) :
    (∀ b ∈ sub.blocks, b.Known a) ∧ a.Offers id.text (Operator.ports width) := by
  cases h with
  | multiplier hpos =>
      rw [(Multiplier.generate_ok hsub).1] at hin ⊢
      simp only [List.forall_mem_cons, List.not_mem_nil, false_imp_iff, implies_true,
        and_true] at hin ⊢
      obtain ⟨hcore, hjoin, hdelay, houtput, hwhole⟩ := hin
      refine ⟨⟨(Body.multiplierCore width).known, (Body.join (by decide)).known,
        (Body.delayBuffer _).known, (Body.dataBreak 0).known, Body.known ?_⟩,
        Artifact.offers hwhole⟩
      exact .multiplier hpos (Artifact.offers hcore) (Artifact.offers hjoin)
        (Artifact.offers hdelay) (Artifact.offers houtput)
  | float op p =>
      obtain ⟨hblocks, hlisted, -⟩ := FloatOperator.generate_ok hsub
      rw [hblocks] at hin ⊢
      simp only [List.forall_mem_cons, List.not_mem_nil, false_imp_iff, implies_true,
        and_true] at hin ⊢
      obtain ⟨hjoin, hdelay, houtput, hwhole⟩ := hin
      refine ⟨⟨(Body.join (by decide)).known, (Body.delayBuffer _).known, (Body.dataBreak 0).known,
        Body.known ?_⟩, Artifact.offers hwhole⟩
      exact .float op p (fun e he => hexternals e ((hlisted e).mpr he)) (Artifact.offers hjoin)
        (Artifact.offers hdelay) (Artifact.offers houtput)

/-- **Every block has one of the bodies, if no module declares a name twice.** -/
theorem Built.known (h : Built kind id a) (hdistinct : a.Distinct) : ∀ b ∈ a.blocks, b.Known a := by
  cases h with
  | join hpos ha =>
      rw [(Accumulator.finish_start ha).1]
      exact List.forall_mem_singleton.mpr (Body.join hpos).known
  | delayBuffer ha =>
      rw [(Accumulator.finish_start ha).1]
      exact List.forall_mem_singleton.mpr (Body.delayBuffer _).known
  | forwarding hunit ha => exact (hunit.known ha fun b hb => hb).1
  | @carrying _ _ _ size width extra generate hunit hne ha =>
      have hwidth :
          ∀ g ∈ [(⟨"ins", width, extra, size⟩ : PortGroup)] ++ [⟨"outs", width, extra, none⟩],
          g.width = width := by
        simp
      obtain ⟨layout, sub, hlayout, hcheck, hsub, -, hblocks⟩ :=
        Manager.concat_bundling ha hwidth fun sub hsub => (hunit.isUnit hsub).wellFormed_top
      -- the blocks of the unit keep their bodies in the larger artifact
      have hmem : ∀ b ∈ sub.blocks, b ∈ a.blocks := fun b hb => hblocks ▸ List.mem_append_left _ hb
      obtain ⟨hknown, hoffers⟩ := hunit.known hsub hmem
      have htop := hdistinct _ (hblocks ▸ List.mem_append_right _ List.mem_cons_self)
      -- only here do the names matter: a bus must not be called like a port
      have hgrouped := Manager.grouped_of_check hlayout hcheck hwidth
        (Nat.add_pos_right _ (ExtraSignals.totalWidth_pos hne)) (Module.distinct_of_declared htop)
      rw [hblocks]
      refine List.forall_mem_append.mpr
        ⟨hknown, List.forall_mem_singleton.mpr (Body.known (.bundling hgrouped ?_))⟩
      rw [← Layout.total_of hlayout, Identity.text_child_eq] at hoffers
      simpa [Manager.bundledPorts, passThroughPorts, PortGroup.channels] using hoffers
  | computing hunit ha => exact (hunit.known ha (fun b hb => hb) fun e he => he).1
  | @bypassing _ _ _ width latency extra core hunit hne ha =>
      obtain ⟨sub, layout, hcheck, hsub, -, hlayout, hblocks, hexternals, -, -⟩ :=
        Manager.bypass_ok (fun sub hsub => hunit.isUnit hsub) ha
      have hmem : ∀ b ∈ sub.blocks, b ∈ a.blocks := fun b hb => hblocks ▸ List.mem_append_left _ hb
      obtain ⟨hknown, hoffers⟩ := hunit.known hsub hmem fun e he => (hexternals e).mpr he
      have htotal : extra.totalWidth = layout.total := by rw [Layout.total_of hlayout, Nat.zero_add]
      have hlatency := hunit.latency_gt
      -- the line is what the wrapper instantiates beside the unit
      have hline := Artifact.offers (hblocks ▸ List.mem_append_right _ List.mem_cons_self)
      rw [Identity.text_child_eq] at hoffers
      rw [htotal] at hline hblocks
      rw [hblocks]
      refine List.forall_mem_append.mpr ⟨hknown, ?_⟩
      simp only [List.forall_mem_cons, List.not_mem_nil, false_imp_iff, implies_true, and_true]
      refine ⟨Body.known (.delayLine (by dsimp only; omega) ?_), Body.known ?_⟩
      · exact htotal ▸ ExtraSignals.totalWidth_pos hne
      · exact .bypassing hunit.width_pos hne hlayout hcheck hoffers hline

end

end Handshake
