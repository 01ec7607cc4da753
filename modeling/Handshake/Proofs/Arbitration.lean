import Handshake.Proofs.Packing
import Handshake.Proofs.Selects
import Handshake.Proofs.Slots

/-!
# Which channels are served

Two modules without registers decide at which of their channels a token is
handed over, for any number of channels. The combinational merge serves the
lowest valid one and shows its payload; the join serves all of them or none.
Both are well formed, and what they show in a settled state is said in terms of
their ports.

`Word.lowest` is the channel that a merge serves, found in the word of valid
bits, and all that a merge does is stated with it
(`PriorityMerge.settled_body`): the output is valid if there is such a channel,
shows the payload of that channel, and the channel is ready if the output is. A
join of two channels, which is the one that operators use, has a statement of
its own (`Join.settled_pair`), without indices.
-/

namespace Handshake

/-! ## Ready bits that are driven one by one -/

/--
A module without registers that drives the ready bits of its channels one by
one, and other outputs as wholes.
-/
theorem Module.WellFormed.of_lanes {m : Module} {size : Nat} {outputs : List (String × Expr)}
    {ready : Nat → Expr} (hsize : size ≤ wordBits) (hdistinct : (m.signals.map Prod.fst).Nodup)
    (hdecls : Item.declsOf m.items = []) (hprocesses : m.circuit.processes = [])
    (hports : ∀ p ∈ m.ports, p.width ≤ wordBits) (hlanes : ⟨.output, size, "ins_ready"⟩ ∈ m.ports)
    (hassigns : m.circuit.assigns = outputs.map (fun o => ⟨.ident o.1, o.2⟩) ++
      (List.range size).map fun i => ⟨Expr.select "ins_ready" size i 1, ready i⟩)
    (hnames : ("ins_ready" :: outputs.map Prod.fst).Nodup)
    (hdrivable : ∀ o ∈ outputs, o.1 ∈ m.drivable)
    (hvalues : ∀ o ∈ outputs, o.2.Typed m.circuit.widths)
    (hready : ∀ i < size, (ready i).Typed m.circuit.widths) :
    m.WellFormed := by
  have hmem : ("ins_ready", size) ∈ m.signals :=
    List.mem_append_left _ (List.mem_map.mpr ⟨_, hlanes, rfl⟩)
  have hwidth := width_eq hdistinct hmem
  have hdeclares : ∀ name ∈ m.drivable, m.circuit.widths.Declares name := by
    intro name hname
    rw [drivable, hdecls, List.filter_nil, List.map_nil, List.append_nil] at hname
    obtain ⟨p, hp, rfl⟩ := List.mem_map.mp hname
    exact declares_of_mem
      (List.mem_append_left _ (List.mem_map.mpr ⟨p, (List.mem_filter.mp hp).1, rfl⟩))
  have hready' : "ins_ready" ∈ m.drivable :=
    List.mem_append_left _ (List.mem_map.mpr ⟨_, List.mem_filter.mpr ⟨hlanes, rfl⟩, rfl⟩)
  -- every assign is a whole output or a lane
  have hforall : ∀ {P : Assign → Prop}, (∀ o ∈ outputs, P ⟨.ident o.1, o.2⟩) →
      (∀ i < size, P ⟨Expr.select "ins_ready" size i 1, ready i⟩) →
        ∀ a ∈ m.circuit.assigns, P a := by
    intro P houtputs hrest
    rw [hassigns]
    refine List.forall_mem_append.mpr
      ⟨List.forall_mem_map.mpr houtputs, List.forall_mem_map.mpr fun i hi => ?_⟩
    exact hrest i (List.mem_range.mp hi)
  have hdriven : m.circuit.driven = outputs.map (fun o => ⟨o.1, 0, m.circuit.widths.width o.1⟩) ++
      (List.range size).map fun i => ⟨"ins_ready", i, 1⟩ := by
    have hregions : ∀ i ∈ List.range size,
        (Expr.select "ins_ready" size i 1).regions m.circuit.widths.width = [⟨"ins_ready", i, 1⟩] :=
      fun i hi => Expr.regions_select Nat.one_pos (List.mem_range.mp hi) hsize hwidth
    rw [Circuit.driven, hassigns, List.flatMap_append, List.flatMap_map, List.flatMap_map,
      List.flatMap_congr hregions, List.map_eq_flatMap, List.map_eq_flatMap]
    rfl
  obtain ⟨hnew, hnodup⟩ := List.nodup_cons.mp hnames
  refine .of_leaf hdistinct ?_ (hforall hvalues hready) ?_ ?_ ?_ ?_ ?_ ?_
  · intro s hs
    rw [signals, hdecls, List.map_nil, List.append_nil] at hs
    obtain ⟨p, hp, rfl⟩ := List.mem_map.mp hs
    exact hports p hp
  · refine hforall (fun o ho => hdeclares o.1 (hdrivable o ho)) fun i hi => ?_
    exact Expr.isTarget_select Nat.one_pos hi hsize (declares_of_mem hmem) hwidth
  · refine hforall (fun o ho => List.forall_mem_singleton.mpr (hdrivable o ho)) fun i _ => ?_
    rw [Expr.reads_select]
    exact List.forall_mem_singleton.mpr hready'
  · rw [hdriven]
    refine List.pairwise_append.mpr ⟨?_, ?_, ?_⟩
    · exact List.pairwise_map.mpr
        ((List.pairwise_map.mp hnodup).imp fun hne => Region.apart_of_ne hne)
    · exact List.pairwise_map.mpr (List.pairwise_lt_range.imp fun hlt _ => Or.inl hlt)
    · intro r hr t ht
      obtain ⟨o, ho, rfl⟩ := List.mem_map.mp hr
      obtain ⟨i, -, rfl⟩ := List.mem_map.mp ht
      exact Region.apart_of_ne fun heq => hnew (List.mem_map.mpr ⟨o, ho, heq⟩)
  · rw [hprocesses]
    exact fun p hp => absurd hp List.not_mem_nil
  · rw [hprocesses]
    exact fun p hp => absurd hp List.not_mem_nil
  · rw [hprocesses]
    exact List.Pairwise.nil

/-! ## The merge without a buffer -/

namespace Word

/-- The lowest of the first bits of a word that is set. -/
def lowest (w : Word) (size : Nat) : Option Nat := (List.range size).find? fun c => w.getLsbD c

/-- There is no lowest valid channel if none is valid. -/
theorem lowest_eq_none {w : Word} {size : Nat} :
    w.lowest size = none ↔ ∀ c < size, w.getLsbD c = false := by
  simp [lowest]

/-- The lowest bit that is set is the only one with no bit set below it. -/
theorem find_unpreceded (w : Word) (size : Nat) :
    (List.range size).find? (fun c => w.getLsbD c && (w.lowest c).isNone) = w.lowest size := by
  induction size with
  | zero => rfl
  | succ size ih =>
      have hlast : w.lowest (size + 1) =
          (w.lowest size).or (if w.getLsbD size then some size else none) := by
        rw [lowest, List.range_succ, List.find?_append, List.find?_singleton]
        rfl
      rw [List.range_succ, List.find?_append, ih, List.find?_singleton, hlast]
      cases w.lowest size <;> simp

end Word

namespace PriorityMerge

variable {size width : Nat}

/-- A merge drives its payload, its valid bit, and the ready bits one by one. -/
theorem assigns_body (size width : Nat) :
    (body size width).circuit.assigns =
      ifData width [⟨.ident "outs", selected size width⟩] ++
        (⟨.ident "outs_valid", Expr.any ((List.range size).map (valid size))⟩ ::
          (List.range size).map fun i => ⟨Expr.select "ins_ready" size i 1, ready size i⟩) := by
  simp [body, anonymous, Module.circuit, Item.drivesOf, Item.drives, drive]

/-- The assigns as whole outputs, and the ready bits one by one. -/
theorem assigns_lanes (size width : Nat) :
    (body size width).circuit.assigns =
      (ifData width [("outs", selected size width)] ++
        [("outs_valid", Expr.any ((List.range size).map (valid size)))]).map
          (fun o => ⟨.ident o.1, o.2⟩) ++
        (List.range size).map fun i => ⟨Expr.select "ins_ready" size i 1, ready size i⟩ := by
  rw [assigns_body]
  by_cases hw : 0 < width <;> simp [ifData, hw]

/-- What holds of these three kinds of assigns holds of all. -/
theorem forall_assigns {P : Assign → Prop}
    (houts : 0 < width → P ⟨.ident "outs", selected size width⟩)
    (hvalid : P ⟨.ident "outs_valid", Expr.any ((List.range size).map (valid size))⟩)
    (hready : ∀ i < size, P ⟨Expr.select "ins_ready" size i 1, ready size i⟩) :
    ∀ a ∈ (body size width).circuit.assigns, P a := by
  rw [assigns_body]
  refine List.forall_mem_append.mpr ⟨?_, List.forall_mem_cons.mpr ⟨hvalid, ?_⟩⟩
  · exact forall_mem_ifData.mpr fun hw => List.forall_mem_singleton.mpr (houts hw)
  · exact List.forall_mem_map.mpr fun i hi => hready i (List.mem_range.mp hi)

section

variable {widths : Widths} (h : Lanes size width) (hvalid : widths.Declares "ins_valid")
  (hvalid' : widths.width "ins_valid" = size)
include h hvalid hvalid'

theorem typed_valid {c : Nat} (hc : c < size) : (valid size c).Typed widths :=
  (Expr.isTarget_select Nat.one_pos (by omega) h.size_le hvalid hvalid').typed

theorem typed_valids {n : Nat} (hn : n ≤ size) :
    (Expr.any ((List.range n).map (valid size))).Typed widths := by
  refine Expr.typed_any (List.forall_mem_map.mpr fun c hc => typed_valid h hvalid hvalid' ?_)
  exact Nat.lt_of_lt_of_le (List.mem_range.mp hc) hn

theorem typed_ready (hready : widths.Declares "outs_ready") {c : Nat} (hc : c < size) :
    (ready size c).Typed widths := by
  unfold ready
  split
  · exact hready
  · exact Expr.typed_apply hready
      (Expr.typed_complement (typed_valids h hvalid hvalid' (Nat.le_of_lt hc)))

/-- The choice of a payload can be evaluated, every channel being inside of the port. -/
theorem typed_selected (hw : 0 < width) (hins : widths.Declares "ins")
    (hins' : widths.width "ins" = size * width) : (selected size width).Typed widths := by
  have hdata : ∀ c < size, (data size width c).Typed widths := fun c hc =>
    (Expr.isTarget_select hw (Lanes.reach hc width) h.data_le hins hins').typed
  have hfold : ∀ channels : List Nat, (∀ c ∈ channels, c < size) →
      (channels.foldr (fun i rest => Expr.cond (valid size i) (data size width i) rest)
        (data size width (size - 1))).Typed widths := by
    intro channels
    induction channels with
    | nil => exact fun _ => hdata (size - 1) (by have := h.pos; omega)
    | cons c rest ih =>
        intro hall
        obtain ⟨hc, hrest⟩ := List.forall_mem_cons.mp hall
        exact ⟨typed_valid h hvalid hvalid' hc, hdata c hc, ih hrest⟩
  refine hfold _ fun c hc => ?_
  have := List.mem_range.mp hc
  omega

end

theorem reads_valid (c : Nat) : (valid size c).reads = ["ins_valid"] := Expr.reads_select

theorem reads_valids (n : Nat) :
    ∀ name ∈ (Expr.any ((List.range n).map (valid size))).reads, name ∈ ["ins_valid"] := by
  refine Expr.reads_any (List.forall_mem_map.mpr fun c _ name hname => ?_)
  rwa [reads_valid] at hname

theorem reads_ready (c : Nat) :
    ∀ name ∈ (ready size c).reads, name ∈ ["outs_ready", "ins_valid"] := by
  unfold ready
  split
  · exact fun name hname => List.mem_cons.mpr (Or.inl (List.mem_singleton.mp hname))
  · rw [Expr.and, Expr.reads_apply, Expr.reads_complement]
    refine List.forall_mem_append.mpr
      ⟨?_, fun name hname => List.mem_cons_of_mem _ (reads_valids c name hname)⟩
    exact fun name hname => List.mem_cons.mpr (Or.inl (List.mem_singleton.mp hname))

/-- The choice of a payload reads valid bits and payloads, and nothing from the output. -/
theorem reads_selected : ∀ name ∈ (selected size width).reads, name ∈ ["ins_valid", "ins"] := by
  unfold selected
  generalize List.range (size - 1) = channels
  induction channels with
  | nil =>
      rw [List.foldr_nil, data, Expr.reads_select]
      simp
  | cons c rest ih =>
      rw [List.foldr_cons, Expr.reads, reads_valid, data, Expr.reads_select]
      simpa using ih

/-- A merge is well formed, for any number of channels that fit a word. -/
theorem wellFormed_body (h : Lanes size width) : (body size width).WellFormed := by
  have hdistinct := Module.distinct_of_declared (distinct_priorityMerge size width)
  have hports : (body size width).ports = passThroughPorts size width := rfl
  obtain ⟨-, hinsValid, -, -, houtsReady⟩ := mem_signals_handshake hports
  have hvalid := Module.declares_of_mem hinsValid
  have hvalid' := Module.width_eq hdistinct hinsValid
  refine .of_lanes h.size_le hdistinct rfl rfl (ports_le hports h) ?_ (assigns_lanes size width) ?_
      ?_ ?_ fun i hi =>
    typed_ready h hvalid hvalid' (Module.declares_of_mem houtsReady) hi
  · rw [ports_passThrough hports]
    simp
  · by_cases hw : 0 < width <;> simp [ifData, hw]
  · refine List.forall_mem_append.mpr
      ⟨forall_mem_ifData.mpr fun hw => ?_, List.forall_mem_singleton.mpr ?_⟩
    · exact List.forall_mem_singleton.mpr (drivable_payload hports hw)
    · exact drivable_handshake hports _ (by simp)
  · refine List.forall_mem_append.mpr
      ⟨forall_mem_ifData.mpr fun hw => List.forall_mem_singleton.mpr ?_,
      List.forall_mem_singleton.mpr (typed_valids h hvalid hvalid' (Nat.le_refl size))⟩
    have hins := (mem_signals_payload hports hw).1
    exact typed_selected h hvalid hvalid' hw (Module.declares_of_mem hins)
      (Module.width_eq hdistinct hins)

section

variable (h : Lanes size width) {x : State} (hfits : (body size width).circuit.widths.Fits x)
include h hfits

theorem low_valid : (x "ins_valid").low size = x "ins_valid" := by
  have hports : (body size width).ports = passThroughPorts size width := rfl
  exact Module.low_of_fits (wellFormed_body h).distinct hfits (mem_signals_handshake hports).2.1

theorem truth_valid {widthOf : String → Nat} {c : Nat} (hc : c < size) :
    (valid size c).truth widthOf x = (x "ins_valid").getLsbD c := by
  rw [Expr.truth, valid, Expr.value_select Nat.one_pos hc h.size_le (low_valid h hfits),
    Word.getLsbD_low, Word.getLsbD_down]
  simp

/-- Some channel among the first few is valid if there is a lowest one among them. -/
theorem truth_valids {widthOf : String → Nat} (hwidth : widthOf "ins_valid" = size) {n : Nat}
    (hn : n ≤ size) :
    (Expr.any ((List.range n).map (valid size))).truth widthOf x =
      ((x "ins_valid").lowest n).isSome := by
  have hsize : ∀ e ∈ (List.range n).map (valid size), e.size widthOf = 1 :=
    List.forall_mem_map.mpr fun c hc =>
      Expr.size_select Nat.one_pos (Nat.lt_of_lt_of_le (List.mem_range.mp hc) hn) h.size_le hwidth
  rw [Expr.truth_any hsize, Bool.eq_iff_iff, List.any_map, List.any_eq_true, Word.lowest,
    List.find?_isSome]
  refine exists_congr fun c => and_congr_right fun hc => ?_
  rw [Function.comp_apply, truth_valid h hfits (Nat.lt_of_lt_of_le (List.mem_range.mp hc) hn)]

/-- The payload that is selected is that of the lowest valid channel, if there is one. -/
theorem value_selected (hw : 0 < width) {widthOf : String → Nat} {c : Nat}
    (hc : (x "ins_valid").lowest size = some c) :
    (selected size width).value widthOf x = (x "ins").channel width c := by
  have hsize := h.pos
  have hports : (body size width).ports = passThroughPorts size width := rfl
  have hins :=
    Module.low_of_fits (wellFormed_body h).distinct hfits (mem_signals_payload hports hw).1
  have hdata : ∀ c < size, (data size width c).value widthOf x =
      (x "ins").channel width c := fun c hc =>
    Expr.value_select hw (Lanes.reach hc width) h.data_le hins
  have hfold : ∀ channels : List Nat, (∀ c ∈ channels, c < size) →
      (channels.foldr (fun i rest => Expr.cond (valid size i) (data size width i) rest)
        (data size width (size - 1))).value widthOf x =
      (x "ins").channel width
        ((channels.find? fun c => (x "ins_valid").getLsbD c).getD (size - 1)) := by
    intro channels
    induction channels with
    | nil => exact fun _ => hdata (size - 1) (by omega)
    | cons c rest ih =>
        intro hall
        obtain ⟨hc, hrest⟩ := List.forall_mem_cons.mp hall
        have htest : (valid size c).value widthOf x = 0 ↔ (x "ins_valid").getLsbD c = false := by
          rw [valid, Expr.value_select Nat.one_pos hc h.size_le (low_valid h hfits),
            Word.low_one_eq_zero, Word.getLsbD_down, Nat.add_zero]
        rw [List.foldr_cons, Expr.value, ih hrest, hdata c hc, List.find?_cons]
        cases hbit : (x "ins_valid").getLsbD c with
        | false => rw [if_pos (htest.mpr hbit)]
        | true =>
            rw [if_neg fun hzero => Bool.noConfusion ((htest.mp hzero).symm.trans hbit)]
            rfl
  -- the last channel is taken without a look at its valid bit
  have hrange : List.range size = List.range (size - 1) ++ [size - 1] := by
    rw [← List.range_succ, Nat.succ_eq_add_one, Nat.sub_add_cancel hsize]
  rw [Word.lowest, hrange, List.find?_append] at hc
  rw [selected, hfold _ fun i hi => by have := List.mem_range.mp hi; omega]
  cases hlower : (List.range (size - 1)).find? fun c => (x "ins_valid").getLsbD c with
  | some lower =>
      rw [hlower, Option.some_or, Option.some.injEq] at hc
      rw [Option.getD_some, hc]
  | none =>
      rw [hlower, Option.none_or] at hc
      have hlast := List.mem_of_find?_eq_some hc
      rw [Option.getD_none, List.mem_singleton.mp hlast]

/--
The output is valid if some channel is. A channel is ready if the output is and
no lower channel is valid, and what is offered at the output is the payload of
the lowest valid channel.
-/
theorem settled_body (hx : (body size width).circuit.Settled x) :
    high x "outs_valid" = ((x "ins_valid").lowest size).isSome ∧
      (∀ c < size, (x "ins_ready").getLsbD c =
        (high x "outs_ready" && ((x "ins_valid").lowest c).isNone)) ∧
      (0 < width → ∀ c, (x "ins_valid").lowest size = some c →
        x "outs" = (x "ins").channel width c) := by
  have hdistinct := (wellFormed_body h).distinct
  have hports : (body size width).ports = passThroughPorts size width := rfl
  obtain ⟨-, hinsValid, hinsReady, houtsValid, houtsReady⟩ := mem_signals_handshake hports
  have hvalid := Module.width_eq hdistinct hinsValid
  have hready : (Expr.ident "outs_ready").size (body size width).circuit.widths.width = 1 :=
    Module.width_eq hdistinct houtsReady
  unfold Circuit.Settled at hx
  rw [assigns_body] at hx
  obtain ⟨houts, hrest⟩ := List.forall_mem_append.mp hx
  obtain ⟨hany, hlanes⟩ := List.forall_mem_cons.mp hrest
  refine ⟨?_, fun c hc => ?_, fun hw c hc => ?_⟩
  · -- the valid bit of the output
    have hbit := hany.1 0 (by rw [Module.width_eq hdistinct houtsValid]; exact Nat.one_pos)
    exact hbit.trans (truth_valids h hfits hvalid (Nat.le_refl size))
  · -- the ready bit of one channel, driven by an assign of its own
    have hspread := hlanes _ (List.mem_map.mpr ⟨c, List.mem_range.mpr hc, rfl⟩)
    unfold Assign.Holds at hspread
    rw [Expr.regions_select Nat.one_pos hc h.size_le (Module.width_eq hdistinct hinsReady)]
      at hspread
    have hbit : (x "ins_ready").getLsbD c =
        (ready size c).truth (body size width).circuit.widths.width x :=
      hspread.1 0 Nat.one_pos
    rw [hbit, ready]
    -- the lowest channel waits for no other
    by_cases hzero : c = 0
    · rw [if_pos hzero, hzero]
      exact (Bool.and_true _).symm
    · have hsize : (Expr.any ((List.range c).map (valid size))).size
          (body size width).circuit.widths.width = 1 := by
        refine Expr.size_any (List.forall_mem_map.mpr fun i hi => ?_)
        exact Expr.size_select Nat.one_pos (by have := List.mem_range.mp hi; omega) h.size_le hvalid
      rw [if_neg hzero, Expr.truth_and hready ((Expr.size_complement _).trans hsize),
        Expr.truth_complement hsize, truth_valids h hfits hvalid (Nat.le_of_lt hc),
        Option.not_isSome]
      rfl
  · -- the payload
    have houts := List.forall_mem_singleton.mp (forall_mem_ifData.mp houts hw)
    have hmem := (mem_signals_payload hports hw).2
    have hwhole := Spread.whole houts
    rw [Module.width_eq hdistinct hmem, Module.low_of_fits hdistinct hfits hmem,
      value_selected h hfits hw hc] at hwhole
    rw [hwhole, Word.channel, Word.low_low]

end

end PriorityMerge

/-! ## The join -/

namespace Join

theorem signals_body (size : Nat) :
    (body size).signals =
      [("ins_valid", size), ("ins_ready", size), ("outs_valid", 1), ("outs_ready", 1)] := by
  simp [body, anonymous, Module.signals, handshakePorts, PortGroup.ports, PortGroup.channels,
    PortGroup.valid, PortGroup.ready, ExtraSignals.empty, Item.declsOf, Item.decls]

theorem assigns_body (size : Nat) :
    (body size).circuit.assigns =
      [("outs_valid", Expr.all ((List.range size).map (valid size)))].map
        (fun o => ⟨.ident o.1, o.2⟩) ++
        (List.range size).map fun i => ⟨Expr.select "ins_ready" size i 1, ready size i⟩ := by
  simp [body, anonymous, Module.circuit, Item.drivesOf, Item.drives, drive]

/-- A join is well formed, for any number of channels that fit a word. -/
theorem wellFormed_body {size : Nat} (hsize : size ≤ wordBits) : (body size).WellFormed := by
  have hdistinct := Module.distinct_of_declared (distinct_join size)
  have hmem : ("ins_valid", size) ∈ (body size).signals ∧
      ("outs_ready", 1) ∈ (body size).signals := by
    rw [signals_body]
    simp
  have hvalid : ∀ i < size, (valid size i).Typed (body size).circuit.widths := fun i hi =>
    (Expr.isTarget_select Nat.one_pos hi hsize (Module.declares_of_mem hmem.1)
      (Module.width_eq hdistinct hmem.1)).typed
  refine .of_lanes hsize hdistinct rfl rfl ?_ ?_ (assigns_body size) (by simp) ?_ ?_ fun i hi => ?_
  · intro p hp
    have hone : 1 ≤ wordBits := by decide
    have hsignal : (p.name, p.width) ∈ (body size).signals :=
      List.mem_append_left _ (List.mem_map.mpr ⟨p, hp, rfl⟩)
    rw [signals_body] at hsignal
    simp only [List.mem_cons, Prod.mk.injEq, List.not_mem_nil, or_false] at hsignal
    omega
  · simp [body, anonymous, handshakePorts, PortGroup.ports, PortGroup.channels, PortGroup.valid,
      PortGroup.ready, ExtraSignals.empty, Direction.flip]
  · simp [Module.drivable, body, anonymous, handshakePorts, PortGroup.ports, PortGroup.channels,
      PortGroup.valid, PortGroup.ready, ExtraSignals.empty, Direction.flip]
  · refine List.forall_mem_singleton.mpr (Expr.typed_all (List.forall_mem_map.mpr fun i hi => ?_))
    exact hvalid i (List.mem_range.mp hi)
  · refine Expr.typed_all
      (List.forall_mem_cons.mpr
        ⟨Module.declares_of_mem hmem.2, List.forall_mem_map.mpr fun j hj => ?_⟩)
    exact hvalid j (List.mem_range.mp (List.mem_filter.mp hj).1)

/-- The outputs of a join depend on its inputs only. -/
theorem acyclic_body (size : Nat) :
    (body size).circuit.Acyclic fun name =>
      if name ∈ ["ins_ready", "outs_valid"] then 1 else 0 := by
  have hvalid : ∀ channels : List Nat, ∀ e ∈ channels.map (valid size), ∀ name ∈ e.reads,
      name ∈ ["ins_valid", "outs_ready"] := by
    intro channels e he name hname
    obtain ⟨c, -, rfl⟩ := List.mem_map.mp he
    rw [valid, Expr.reads_select, List.mem_singleton] at hname
    simp [hname]
  have hinputs : ∀ name ∈ ["ins_valid", "outs_ready"],
      name ∉ ["ins_ready", "outs_valid"] := by decide
  refine Circuit.acyclic_of_outputs ?_ ?_
  · intro a ha name hname
    refine hinputs name ?_
    rw [assigns_body] at ha
    rcases List.mem_append.mp ha with ha | ha
    · rw [List.map_singleton, List.mem_singleton] at ha
      subst ha
      exact Expr.reads_all (hvalid _) name hname
    · obtain ⟨i, -, rfl⟩ := List.mem_map.mp ha
      refine Expr.reads_all (List.forall_mem_cons.mpr ⟨?_, hvalid _⟩) name hname
      exact List.forall_mem_singleton.mpr (by simp)
  · intro a ha name hname
    rw [assigns_body] at ha
    rcases List.mem_append.mp ha with ha | ha
    · rw [List.map_singleton, List.mem_singleton] at ha
      subst ha
      rw [List.mem_singleton.mp hname]
      simp
    · obtain ⟨i, -, rfl⟩ := List.mem_map.mp ha
      rw [Expr.reads_select, List.mem_singleton] at hname
      simp [hname]

section

variable {size : Nat} (hsize : size ≤ wordBits) {x : State}
    (hfits : (body size).circuit.widths.Fits x)
include hsize hfits

/-- Among the valid bits of some channels, all are true if all these channels are valid. -/
theorem truth_valids {channels : List Nat} (hchannels : ∀ c ∈ channels, c < size) :
    (∀ e ∈ channels.map (valid size), e.size (body size).circuit.widths.width = 1) ∧
      ((∀ e ∈ channels.map (valid size), e.truth (body size).circuit.widths.width x = true) ↔
        ∀ c ∈ channels, (x "ins_valid").getLsbD c = true) := by
  have hmem : ("ins_valid", size) ∈ (body size).signals := by simp [signals_body]
  have hdistinct := (wellFormed_body hsize).distinct
  have htruth : ∀ c ∈ channels,
      (valid size c).truth (body size).circuit.widths.width x = (x "ins_valid").getLsbD c := by
    intro c hc
    rw [Expr.truth, valid, Expr.value_select Nat.one_pos (hchannels c hc) hsize
      (Module.low_of_fits hdistinct hfits hmem), Word.getLsbD_low, Word.getLsbD_down]
    simp
  refine ⟨List.forall_mem_map.mpr fun c hc => ?_,
    List.forall_mem_map.trans (forall₂_congr fun c hc => ?_)⟩
  · exact Expr.size_select Nat.one_pos (hchannels c hc) hsize (Module.width_eq hdistinct hmem)
  · rw [htruth c hc]

/--
The output is valid if all channels are. A channel is ready if the output is and
all other channels are valid.
-/
theorem settled_body (hx : (body size).circuit.Settled x) :
    (high x "outs_valid" = true ↔ ∀ i < size, (x "ins_valid").getLsbD i = true) ∧
      ∀ i < size, ((x "ins_ready").getLsbD i = true ↔
        high x "outs_ready" = true ∧ ∀ j < size, j ≠ i → (x "ins_valid").getLsbD j = true) := by
  have hdistinct := (wellFormed_body hsize).distinct
  have hbits : ("ins_ready", size) ∈ (body size).signals ∧ ("outs_valid", 1) ∈ (body size).signals ∧
      ("outs_ready", 1) ∈ (body size).signals := by
    simp [signals_body]
  obtain ⟨hinsReady, houtsValid, houtsReady⟩ := hbits
  have hready : (Expr.ident "outs_ready").size (body size).circuit.widths.width = 1 :=
    Module.width_eq hdistinct houtsReady
  unfold Circuit.Settled at hx
  rw [assigns_body] at hx
  obtain ⟨hvalid, hlanes⟩ := List.forall_mem_append.mp hx
  refine ⟨?_, fun i hi => ?_⟩
  · have hbit : high x "outs_valid" =
        (Expr.all ((List.range size).map (valid size))).truth (body size).circuit.widths.width x :=
      (List.forall_mem_singleton.mp hvalid).1 0
        (by rw [Module.width_eq hdistinct houtsValid]; exact Nat.one_pos)
    obtain ⟨hsizes, htruth⟩ :=
      truth_valids hsize hfits fun c (hc : c ∈ List.range size) => List.mem_range.mp hc
    rw [hbit, Expr.truth_all hsizes, List.all_eq_true, htruth]
    simp only [List.mem_range]
  · have hspread := hlanes _ (List.mem_map.mpr ⟨i, List.mem_range.mpr hi, rfl⟩)
    unfold Assign.Holds at hspread
    rw [Expr.regions_select Nat.one_pos hi hsize (Module.width_eq hdistinct hinsReady)] at hspread
    have hbit : (x "ins_ready").getLsbD i =
        (ready size i).truth (body size).circuit.widths.width x :=
      hspread.1 0 Nat.one_pos
    -- an input waits for all channels but itself
    have hothers : ∀ c ∈ (List.range size).filter (· ≠ i), c < size := fun c hc =>
      List.mem_range.mp (List.mem_filter.mp hc).1
    obtain ⟨hsizes, htruth⟩ := truth_valids hsize hfits hothers
    rw [hbit, ready, Expr.truth_all (List.forall_mem_cons.mpr ⟨hready, hsizes⟩), List.all_eq_true,
      List.forall_mem_cons, htruth]
    simp only [List.mem_filter, List.mem_range, decide_eq_true_eq, and_imp]
    rfl

end

/-- With two channels, each is ready if the output is and the other channel is valid. -/
theorem settled_pair {x : State} (hfits : (body 2).circuit.widths.Fits x)
    (hx : (body 2).circuit.Settled x) :
    high x "outs_valid" = ((x "ins_valid").getLsbD 0 && (x "ins_valid").getLsbD 1) ∧
      (x "ins_ready").getLsbD 0 = (high x "outs_ready" && (x "ins_valid").getLsbD 1) ∧
      (x "ins_ready").getLsbD 1 = (high x "outs_ready" && (x "ins_valid").getLsbD 0) := by
  obtain ⟨hvalid, hready⟩ := settled_body (by decide) hfits hx
  have hboth : ∀ {P : Nat → Prop}, (∀ i < 2, P i) ↔ P 0 ∧ P 1 := by
    intro P
    refine ⟨fun h => ⟨h 0 (by decide), h 1 (by decide)⟩, fun h i hi => ?_⟩
    obtain rfl | rfl : i = 0 ∨ i = 1 := by omega
    · exact h.1
    · exact h.2
  refine ⟨?_, ?_, ?_⟩ <;> rw [Bool.eq_iff_iff, Bool.and_eq_true]
  · rw [hvalid, hboth]
  · rw [hready 0 (by decide), hboth]
    simp
  · rw [hready 1 (by decide), hboth]
    simp

end Join

end Handshake
