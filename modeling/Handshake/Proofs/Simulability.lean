import Handshake.Proofs.Encasing
import Handshake.Proofs.Merging
import Handshake.Proofs.Requests
import Handshake.Proofs.Unfolding
import Handshake.Proofs.WrappedOperators

/-!
# Simulation never fails

A simulator may be driven in any order: signals set, inner ones included,
assigns settled, the clock raised. On a well-formed module whose assigns do not
depend on themselves no such action fails, and none spoils the next one
(`WellFormed.perform_tidy`). Every generated unit flattens into such a module,
as long as no module declares a name twice and no signal is wider than a word;
what flattening leaves uninlined are the external modules.

`Simulates` says of an artifact that it has such a flattening, and is what later
statements about generated units start from: after any actions inputs can be
driven, and what is observed then is a settled state. It is established once for
each way of building a unit, wrappers included.
-/

namespace Handshake

/-! ## Actions on a simulator -/

namespace Simulator

/-- What can be done with a simulator. -/
inductive Action where
  /-- Drives a signal from outside. -/
  | set (name : String) (value : Word)
  /-- Settles the assigns. -/
  | settle
  /-- Raises the clock. -/
  | tick

/-- The action speaks of declared signals only. -/
def Action.Declared (m : Module) : Action → Prop
  | .set name _ => name ∈ m.signals.map Prod.fst
  | .settle | .tick => True

/-- One action. -/
def act (s : Simulator) : Action → Except Fault Simulator
  | .set name value => s.set name value
  | .settle => s.settle
  | .tick => s.tick

/-- Several actions, one after the other. -/
def perform (s : Simulator) (actions : List Action) : Except Fault Simulator := actions.foldlM act s

/-- What is seen after inputs were driven: the circuit once it has settled. -/
def observe (s : Simulator) (inputs : List (String × Word)) : Except Fault Simulator := do
  (← s.drive inputs).settle

end Simulator

/-- A clock edge first settles, so it makes no difference to settle before it. -/
theorem Circuit.tick_of_settle {c : Circuit} {v w : Valuation} (h : c.settle v = .ok w) :
    c.tick v = c.tick w := by
  rw [tick, tick, h, settle_of_pass (settle_quiet h).1]

namespace Module

variable {m : Module} {rank : String → Nat}

theorem WellFormed.tick_ok (h : m.WellFormed) (hrank : m.circuit.Acyclic rank) {v : Valuation}
    (hv : v.Tidy m.circuit.widths) : ∃ w, m.circuit.tick v = .ok w ∧ w.Tidy m.circuit.widths := by
  obtain ⟨u, hsettle, hu, hpass, -, -⟩ := h.wired.settle_ok hrank hv
  obtain ⟨w, htick, hw, -⟩ := h.clocked.tick_ok h.wired hrank hu hpass
  exact ⟨w, (Circuit.tick_of_settle hsettle).trans htick, hw⟩

/-- No action fails, and each leaves the simulator as fit as it was. -/
theorem WellFormed.act_ok (h : m.WellFormed) (hrank : m.circuit.Acyclic rank) {s : Simulator}
    (hs : s.circuit = m.circuit) (ht : s.values.Tidy m.circuit.widths) {action : Simulator.Action}
    (haction : action.Declared m) :
    ∃ t, s.act action = .ok t ∧ t.circuit = m.circuit ∧ t.values.Tidy m.circuit.widths := by
  cases action with
  | set name value =>
      refine ⟨s.withValues (s.values.put name (value.low (m.circuit.widths.width name))), ?_, hs,
        ht.put _ _⟩
      rw [Simulator.act, Simulator.set, Circuit.set, hs,
        Widths.get_of_declares (declares_iff.mpr haction)]
      rfl
  | settle =>
      obtain ⟨v, hsettle, hv, -, -, -⟩ := h.wired.settle_ok hrank ht
      refine ⟨s.withValues v, ?_, hs, hv⟩
      rw [Simulator.act, Simulator.settle, hs, hsettle]
      rfl
  | tick =>
      obtain ⟨v, htick, hv⟩ := h.tick_ok hrank ht
      refine ⟨s.withValues v, ?_, hs, hv⟩
      rw [Simulator.act, Simulator.tick, hs, htick]
      rfl

/-- **No sequence of actions fails**, and what it leaves is as fit as what it started from. -/
theorem WellFormed.perform_tidy (h : m.WellFormed) (hrank : m.circuit.Acyclic rank)
    {actions : List Simulator.Action} (hactions : ∀ action ∈ actions, action.Declared m)
    {s : Simulator} (hs : s.circuit = m.circuit) (ht : s.values.Tidy m.circuit.widths) :
    ∃ t, s.perform actions = .ok t ∧ t.circuit = m.circuit ∧ t.values.Tidy m.circuit.widths := by
  induction actions generalizing s with
  | nil => exact ⟨s, rfl, hs, ht⟩
  | cons action rest ih =>
      obtain ⟨haction, hrest⟩ := List.forall_mem_cons.mp hactions
      obtain ⟨t, hact, hcircuit, htidy⟩ := h.act_ok hrank hs ht haction
      obtain ⟨u, hperform, hfit⟩ := ih hrest hcircuit htidy
      refine ⟨u, ?_, hfit⟩
      rw [Simulator.perform, List.foldlM_cons, hact, ok_bind]
      exact hperform

theorem WellFormed.perform_ok (h : m.WellFormed) (hrank : m.circuit.Acyclic rank)
    {actions : List Simulator.Action} (hactions : ∀ action ∈ actions, action.Declared m)
    {s : Simulator} (hs : s.circuit = m.circuit) (ht : s.values.Tidy m.circuit.widths) :
    ∃ t, s.perform actions = .ok t := by
  obtain ⟨t, hperform, -⟩ := h.perform_tidy hrank hactions hs ht
  exact ⟨t, hperform⟩

/--
What is seen after inputs were driven: a settled state with what was driven, and
else what was there before.
-/
theorem WellFormed.observe_ok (h : m.WellFormed) (hrank : m.circuit.Acyclic rank)
    {inputs : List (String × Word)} (hin : ∀ p ∈ inputs, p.1 ∈ m.inputs) {s : Simulator}
    (hs : s.circuit = m.circuit) (ht : s.values.Tidy m.circuit.widths) :
    ∃ t, s.observe inputs = .ok t ∧ m.circuit.Settled t.get ∧ m.circuit.widths.Fits t.get ∧
      (∀ name, m.circuit.Undriven name → name ∉ inputs.map Prod.fst → t.get name = s.get name) ∧
      ((inputs.map Prod.fst).Nodup →
        ∀ p ∈ inputs, t.get p.1 = p.2.low (m.circuit.widths.width p.1)) := by
  obtain ⟨d, hdrive, hcircuit, htidy, hframe, hvalues⟩ := drive_values hin hs ht
  obtain ⟨v, hsettle, hv, -, hsettled, hundriven⟩ := h.wired.settle_ok hrank htidy
  refine ⟨d.withValues v, ?_, hsettled, fun name _ => hv.fits name, fun name hname hnot => ?_,
    fun hnodup p hp => ?_⟩
  · rw [Simulator.observe, hdrive, ok_bind, Simulator.settle, hcircuit, hsettle]
    rfl
  · exact (hundriven name hname).trans (hframe name hnot)
  · exact (hundriven p.1 (h.undriven p.1 (hin p hp))).trans (hvalues hnodup p hp)

end Module

/-! ## Units without submodules -/

/-- An artifact that flattens into a module on which no action fails. -/
structure Artifact.Simulates (a : Artifact) (m : Module) : Prop where
  flatten : a.flatten = .ok m
  wellFormed : m.WellFormed
  acyclic : ∃ rank, m.circuit.Acyclic rank

/-- Whatever was done with a simulator, inputs can be driven and the outcome observed. -/
theorem Artifact.Simulates.observes {a : Artifact} {m : Module} (h : a.Simulates m)
    {actions : List Simulator.Action} (hactions : ∀ action ∈ actions, action.Declared m) :
    ∃ s, (Simulator.start m).perform actions = .ok s ∧
      ∀ inputs : List (String × Word), (∀ p ∈ inputs, p.1 ∈ m.inputs) →
        ∃ t, s.observe inputs = .ok t ∧ m.circuit.Settled t.get ∧ m.circuit.widths.Fits t.get ∧
          (∀ name, m.circuit.Undriven name → name ∉ inputs.map Prod.fst → t.get name = s.get name) ∧
          ((inputs.map Prod.fst).Nodup →
            ∀ p ∈ inputs, t.get p.1 = p.2.low (m.circuit.widths.width p.1)) := by
  obtain ⟨rank, hrank⟩ := h.acyclic
  obtain ⟨s, hperform, hcircuit, htidy⟩ :=
    h.wellFormed.perform_tidy hrank hactions (s := Simulator.start m) rfl
      (Valuation.tidy_zero m.circuit.widths)
  exact ⟨s, hperform, fun inputs hin => h.wellFormed.observe_ok hrank hin hcircuit htidy⟩

theorem Artifact.flatten_finish {id : Identity} {content : Module} {latency : Nat} {a : Artifact}
    (ha : (Accumulator.start id).finish content latency = .ok a)
    (hleaf : Item.instancesOf content.items = []) :
    a.flatten = .ok { content with name := id.text } := by
  obtain ⟨hblocks, -, -, -⟩ := Accumulator.finish_start ha
  have hblocks' : a.blocks = [] ++ [⟨{ content with name := id.text }, latency⟩] := hblocks
  rw [Artifact.flatten_concat hblocks']
  exact Module.flatten_leaf _ hleaf

theorem Artifact.Simulates.of_leaf {id : Identity} {content : Module} {latency : Nat} {a : Artifact}
    (ha : (Accumulator.start id).finish content latency = .ok a)
    (hleaf : Item.instancesOf content.items = []) (hwf : content.WellFormed) {rank : String → Nat}
    (hrank : content.circuit.Acyclic rank) :
    a.Simulates { content with name := id.text } :=
  ⟨flatten_finish ha hleaf, hwf.named id.text, rank, hrank⟩

/-! ## Units that hand tokens on -/

section

variable {kind : UnitKind} {id : Identity} {a : Artifact} {size : Option Nat} {width latency : Nat}
  {extra : ExtraSignals}

/-- The channels of a unit without submodules fit into words if its declared widths do. -/
theorem Lanes.of_finish {size : Nat} {content : Module} (hsize : 0 < size)
    (ha : (Accumulator.start id).finish content latency = .ok a)
    (hports : content.ports = passThroughPorts size width)
    (hbounded : ∀ b ∈ a.blocks, ∀ s ∈ b.content.signals, s.2 ≤ wordBits) : Lanes size width := by
  obtain ⟨hblocks, -, -, -⟩ := Accumulator.finish_start ha
  have hwidths : ∀ s ∈ content.signals, s.2 ≤ wordBits :=
    hbounded ⟨{ content with name := id.text }, latency⟩
      (by rw [hblocks]; exact List.mem_singleton_self _)
  refine ⟨hsize, hwidths _ (mem_signals_handshake hports).2.1, ?_⟩
  by_cases hw : 0 < width
  · exact hwidths _ (mem_signals_payload hports hw).1
  · obtain rfl : width = 0 := by omega
    exact Nat.zero_le _

/-- Units that hand tokens on can be simulated. -/
theorem Forwarding.simulates {generate : Identity → Nat → Except Error Artifact}
    (h : Forwarding kind size generate) (ha : generate id width = .ok a)
    (hbounded : ∀ b ∈ a.blocks, ∀ s ∈ b.content.signals, s.2 ≤ wordBits) :
    ∃ m, a.Simulates m ∧ m.ports = passThroughPorts (size.getD 1) width := by
  have hready : ReadyBreak.generate id width = .ok a →
      ∃ m, a.Simulates m ∧ m.ports = passThroughPorts 1 width :=
    fun ha => ⟨_, .of_leaf ha (instancesOf_readyBreak width)
      (ReadyBreak.wellFormed_body (.of_finish Nat.one_pos ha rfl hbounded))
        Merge.acyclic_buffer, rfl⟩
  have hdata : DataBreak.generate id width = .ok a →
      ∃ m, a.Simulates m ∧ m.ports = passThroughPorts 1 width :=
    fun ha => ⟨_, .of_leaf ha (instancesOf_dataBreak width)
      (DataBreak.wellFormed_body (.of_finish Nat.one_pos ha rfl hbounded))
        (DataBreak.acyclic_body width), rfl⟩
  cases h with
  | priorityMerge hpos =>
      exact ⟨_, .of_leaf ha rfl (PriorityMerge.wellFormed_body (.of_finish hpos ha rfl hbounded))
        Merge.acyclic_merge, rfl⟩
  | merge hpos =>
      have hlanes := Merge.lanes_of_blocks ha hpos hbounded
      obtain ⟨inner, output, flat, hflatten, hf⟩ := Merge.generate_flat ha
      have hm := Merge.assembled_body inner output hlanes
      obtain ⟨rank, hrank, -⟩ := hf.exists_rank hm (Merge.ranked_body hlanes)
      exact ⟨flat, ⟨hflatten, hf.wellFormed hm, rank, hrank⟩, hf.ports⟩
  | readyBreak => exact hready ha
  | readyBuffer => exact hready ha
  | dataBreak => exact hdata ha
  | dataBuffer => exact hdata ha

/--
A unit in a wrapper of payload and extra signals: both can be simulated, and the
wrapper shows the unit.
-/
structure Carries (size : Option Nat) (width : Nat) (extra : ExtraSignals) (unit a : Artifact)
    (sub whole : Module) :
    Prop where
  simulates_unit : unit.Simulates sub
  simulates : a.Simulates whole
  encases : ∃ layout inner, Manager.Encases width extra layout [⟨"ins", width, extra, size⟩]
    [⟨"outs", width, extra, none⟩] inner sub whole
  latency : a.latency = unit.latency

theorem Forwarding.carries {generate : Identity → Nat → Except Error Artifact}
    (h : Forwarding kind size generate) (hne : extra.signals ≠ [])
    (ha : Manager.concat id [⟨"ins", width, extra, size⟩] [⟨"outs", width, extra, none⟩] extra
      generate = .ok a)
    (hdistinct : a.Distinct) (hbounded : ∀ b ∈ a.blocks, ∀ s ∈ b.content.signals, s.2 ≤ wordBits) :
    ∃ unit sub whole, generate (id.child .inner) (width + extra.totalWidth) = .ok unit ∧
      (∀ b ∈ unit.blocks, b ∈ a.blocks) ∧ Carries size width extra unit a sub whole := by
  have htotal := ExtraSignals.totalWidth_pos hne
  have hwidth : ∀ g ∈ [(⟨"ins", width, extra, size⟩ : PortGroup)] ++ [⟨"outs", width, extra, none⟩],
      g.width = width := by
    simp
  have hstems : ∀ g ∈ [(⟨"ins", width, extra, size⟩ : PortGroup)] ++ [⟨"outs", width, extra, none⟩],
      ¬ "inner__".toList <+: g.name.toList ∧ ¬ g.name.toList <+: "inner__".toList := by
    simp only [List.cons_append, List.nil_append, List.forall_mem_cons, List.not_mem_nil,
      false_imp_iff, implies_true, and_true]
    exact ⟨(by decide : ¬ "inner__".toList <+: "ins".toList ∧ ¬ "ins".toList <+: "inner__".toList),
      (by decide : ¬ "inner__".toList <+: "outs".toList ∧ ¬ "outs".toList <+: "inner__".toList)⟩
  obtain ⟨layout, unit, hlayout, hunit, hblocks, hencased⟩ := Manager.concat_encases ha hwidth
    (by omega) hdistinct
    hbounded hstems fun unit hunit => h.isUnit hunit
  obtain ⟨sub, hsub, hports⟩ := h.simulates hunit fun b hb => hbounded b (hblocks b hb)
  rw [← Layout.total_of hlayout] at hports
  have hinterface : Manager.Interface [⟨"ins", width, extra, size⟩] [⟨"outs", width, extra, none⟩]
      layout.total sub := by
    refine ⟨?_, ?_⟩
    · rw [hports]
      simp [Manager.bundledPorts, passThroughPorts, PortGroup.channels]
    · rw [hports, names_passThroughPorts]
      by_cases hw : 0 < layout.total <;> simp [ifData, hw]
  obtain ⟨inner, whole, hwhole, hencases, hacyclic⟩ :=
    hencased sub hsub.flatten hsub.wellFormed hsub.acyclic hinterface
  refine ⟨unit, sub, whole, hunit, hblocks, hsub,
    ⟨hwhole, hencases.flattens.wellFormed hencases.assembled, hacyclic⟩, ⟨layout, inner, hencases⟩,
    ?_⟩
  -- the wrapper announces the latency of the unit
  obtain ⟨_, unit', -, -, hunit', -, hlisted⟩ := Manager.concat_bundling ha hwidth fun unit hunit =>
    (h.isUnit hunit).wellFormed_top
  obtain rfl : unit' = unit := Except.ok.inj (hunit'.symm.trans hunit)
  rw [Artifact.latency, Artifact.top?, hlisted, List.getLast?_append, List.getLast?_singleton]
  rfl

/-! ## Units that compute -/

theorem Artifact.Simulates.of_flattened {name : String} {m flat : Module} {parts : List Part}
    (h : Operator.IsFlattened a name width latency m parts flat) : a.Simulates flat := by
  obtain ⟨rank, hrank, -⟩ := h.flattens.exists_rank h.controlled.assembled h.ranked
  exact ⟨h.flatten, h.flattens.wellFormed h.controlled.assembled, rank, hrank⟩

theorem Computing.flattened {core : Identity → Except Error Artifact}
    (h : Computing kind width latency core) (ha : core id = .ok a) (hbound : width ≤ wordBits) :
    ∃ m parts flat, Operator.IsFlattened a id.text width latency m parts flat := by
  cases h with
  | multiplier hpos =>
      obtain ⟨_, _, _, _, flat, hflat⟩ := Multiplier.generate_flat ha hpos hbound
      exact ⟨_, _, flat, hflat⟩
  | float op p =>
      obtain ⟨_, _, _, flat, hflat⟩ := FloatOperator.generate_flat op p ha
      exact ⟨_, _, flat, hflat⟩

/-- The operands are among the signals of the operator. -/
theorem Computing.width_le {core : Identity → Except Error Artifact}
    (h : Computing kind width latency core) (ha : core id = .ok a)
    (hbounded : ∀ b ∈ a.blocks, ∀ s ∈ b.content.signals, s.2 ≤ wordBits) :
    width ≤ wordBits := by
  cases h with
  | multiplier hpos =>
      obtain ⟨hblocks, -, -⟩ := Multiplier.generate_ok ha
      rw [hblocks] at hbounded
      refine hbounded _ (List.getLast_mem (by simp)) ("lhs", width) ?_
      exact (Operator.signals_body _ _ _ _ hpos).symm ▸ by simp
  | float op p => cases p <;> decide

theorem Computing.wrapped {core : Identity → Except Error Artifact}
    (h : Computing kind width latency core) (hne : extra.signals ≠ [])
    (ha : Operator.generate id (.signalManaged width extra) latency core = .ok a)
    (hbounded : ∀ b ∈ a.blocks, ∀ s ∈ b.content.signals, s.2 ≤ wordBits) :
    1 < a.latency ∧ ∃ m parts flat whole,
      Manager.IsWrapped a width a.latency extra m parts flat whole :=
  Operator.generate_isWrapped (fun _ hsub => h.isUnit hsub)
    (fun hbound _ hsub => h.flattened hsub hbound) ha
    h.width_pos h.latency_gt hne hbounded

/-! ## Requests -/

/-- The units of all kinds can be simulated. -/
theorem Built.simulates (h : Built kind id a) (hdistinct : a.Distinct)
    (hbounded : ∀ b ∈ a.blocks, ∀ s ∈ b.content.signals, s.2 ≤ wordBits) : ∃ m, a.Simulates m := by
  cases h with
  | @join _ _ size hpos ha =>
      obtain ⟨hblocks, -, -, -⟩ := Accumulator.finish_start ha
      have hsize : size ≤ wordBits := by
        refine hbounded _ (hblocks ▸ List.mem_singleton_self _) ("ins_valid", size) ?_
        exact (Join.signals_body size).symm ▸ List.mem_cons_self
      exact ⟨_, .of_leaf ha rfl (Join.wellFormed_body hsize) (Join.acyclic_body size)⟩
  | @delayBuffer _ _ slots ha =>
      exact ⟨_, .of_leaf ha (instancesOf_delayBuffer slots) (DelayBuffer.wellFormed slots)
        (DelayBuffer.acyclic_body slots)⟩
  | forwarding hunit ha =>
      obtain ⟨m, hm, -⟩ := hunit.simulates ha hbounded
      exact ⟨m, hm⟩
  | carrying hunit hne ha =>
      obtain ⟨unit, sub, whole, -, -, hcarries⟩ := hunit.carries hne ha hdistinct hbounded
      exact ⟨whole, hcarries.simulates⟩
  | computing hunit ha =>
      obtain ⟨m, parts, flat, hflat⟩ := hunit.flattened ha (hunit.width_le ha hbounded)
      exact ⟨flat, .of_flattened hflat⟩
  | bypassing hunit hne ha =>
      obtain ⟨-, m, parts, flat, whole, hwrapped⟩ := hunit.wrapped hne ha hbounded
      exact ⟨whole, hwrapped.flatten, hwrapped.wellFormed, hwrapped.acyclic⟩

end

/--
**Simulating a generated unit never fails.** If no module of the artifact
declares a name twice and no signal is wider than a word, then the artifact can
be flattened, all instances that are left are of externals, and whatever is done
with a simulator of the flattened module, setting declared signals to any words,
settling and ticking, in any order and however often, succeeds.
-/
theorem actions_succeed {request : Request} {a : Artifact} (ha : generate request = .ok a)
    (hdistinct : ∀ b ∈ a.blocks, b.content.declared.Nodup)
    (hbounded : ∀ b ∈ a.blocks, ∀ s ∈ b.content.signals, s.2 ≤ wordBits) :
    ∃ m, a.flatten = .ok m ∧ (∀ i ∈ Item.instancesOf m.items, i.moduleName ∈ a.externals) ∧
      ∀ actions : List Simulator.Action, (∀ action ∈ actions, action.Declared m) →
        ∃ s, (Simulator.start m).perform actions = .ok s := by
  obtain ⟨kind, id, -, hbuilt⟩ := generate_built ha
  obtain ⟨m, hflatten, hwf, rank, hrank⟩ := hbuilt.simulates hdistinct hbounded
  refine ⟨m, hflatten, hbuilt.isUnit.wellFormed.left_flatten hflatten, fun actions hactions => ?_⟩
  exact hwf.perform_ok hrank hactions rfl (Valuation.tidy_zero m.circuit.widths)

/-- A request for a merge of two channels of three bits, with a tag. -/
def Request.twoChannels : Request :=
  ⟨"merge", "u",
    OrderedMap.empty.insert "size" (.int 2) |>.insert "bitwidth" (.int 3) |>.insert "extra_signals"
    (.signals (OrderedMap.empty.insert "tag" 1))⟩

/-- Drives inputs, an output and a register of a merge, between clock edges. -/
def meddling : List Simulator.Action :=
  [.set "ins_valid" 3, .tick, .set "outs_valid" (.ofNat _ (2 ^ 128 - 1)), .settle,
    .set "inner__one_slot_break_r__full" 1, .tick]

/-- A merge of two channels bears all of this. -/
theorem actions_succeed_two_channels :
    ∃ a m s, generate .twoChannels = .ok a ∧ a.flatten = .ok m ∧
      (Simulator.start m).perform meddling = .ok s := by
  have hmade : ∃ a ∈ (generate .twoChannels).toOption, (∀ b ∈ a.blocks, b.content.declared.Nodup) ∧
      (∀ b ∈ a.blocks, ∀ s ∈ b.content.signals, s.2 ≤ wordBits) ∧
      ∃ m ∈ a.flatten.toOption,
        ∀ name ∈ ["ins_valid", "outs_valid", "inner__one_slot_break_r__full"],
          name ∈ m.signals.map Prod.fst := by
    decide +kernel
  obtain ⟨a, ha, hdistinct, hbounded, m, hm, hnames⟩ := hmade
  obtain ⟨m', hm', -, hsucceed⟩ := actions_succeed (eq_ok_of_mem_toOption ha) hdistinct hbounded
  obtain rfl : m' = m := Except.ok.inj (hm'.symm.trans (eq_ok_of_mem_toOption hm))
  have hdeclared : ∀ action ∈ meddling, action.Declared m' := by
    simp only [List.forall_mem_cons] at hnames
    simp only [meddling, List.forall_mem_cons, List.not_mem_nil, false_imp_iff,
      implies_true, and_true]
    exact ⟨hnames.1, trivial, hnames.2.1, trivial, hnames.2.2.1, trivial⟩
  obtain ⟨s, hs⟩ := hsucceed meddling hdeclared
  exact ⟨a, m', s, eq_ok_of_mem_toOption ha, hm', hs⟩

end Handshake
