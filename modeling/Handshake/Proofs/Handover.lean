import Handshake.Proofs.DelayLines
import Handshake.Proofs.Wrapping

/-!
# One channel or all of them

Two units without registers decide at which of their channels a token is handed
over. The merge without a buffer serves one, the lowest that is valid. The join
serves all channels or none.

Both are said of a simulator in any situation: valid bits and the answer of the
consumer are driven, the circuit settles, and what is at the ports follows from
what was driven.
-/

namespace Handshake

/-- A token is handed over at a channel of a port: the channel is valid and ready. -/
def transfersAt (port : String) (channel : Nat) (x : State) : Bool :=
  (x (port ++ "_valid")).getLsbD channel && (x (port ++ "_ready")).getLsbD channel

theorem channelCount_eq {params : Params} {size : Nat} (hsize : params.count .size = .ok size)
    (hpos : 0 < size) : channelCount params = .ok size := by
  rw [channelCount, hsize, ok_bind, if_neg (Nat.ne_of_gt hpos)]

/--
A unit without submodules is generated, and whatever was done with a simulator
of it, inputs can be driven. What is then observed is a settled state in which
they have the values they were driven to, cut to their widths.
-/
theorem observed_leaf (id : Identity) {content : Module} (latency : Nat)
    (hleaf : Item.instancesOf content.items = []) (hwf : content.WellFormed) {rank : String → Nat}
    (hrank : content.circuit.Acyclic rank) :
    ∃ a m, (Accumulator.start id).finish content latency = .ok a ∧ a.flatten = .ok m ∧
      ∀ actions : List Simulator.Action, (∀ action ∈ actions, action.Declared m) →
        ∃ s, (Simulator.start m).perform actions = .ok s ∧ ∀ inputs : List (String × Word),
          (∀ p ∈ inputs, p.1 ∈ content.inputs) → (inputs.map Prod.fst).Nodup →
          ∃ t, s.observe inputs = .ok t ∧ content.circuit.Settled t.get ∧
            content.circuit.widths.Fits t.get ∧
            ∀ p ∈ inputs, ∀ width, (p.1, width) ∈ content.signals → t.get p.1 = p.2.low width := by
  obtain ⟨a, ha⟩ := Accumulator.finish_leaf_new id latency hleaf
  have hsimulates := Artifact.Simulates.of_leaf ha hleaf hwf hrank
  refine ⟨a, _, ha, hsimulates.flatten, fun actions hactions => ?_⟩
  obtain ⟨s, hperform, hobserve⟩ := hsimulates.observes hactions
  refine ⟨s, hperform, fun inputs hin hnodup => ?_⟩
  obtain ⟨t, ht, hsettled, hfits, -, hdriven⟩ := hobserve inputs hin
  refine ⟨t, ht, hsettled, hfits, fun p hp width hmem => ?_⟩
  rw [← Module.width_eq hwf.distinct hmem]
  exact hdriven hnodup p hp

/-- What was driven, read bit by bit as far as the signal goes. -/
theorem getLsbD_driven {x : State} {name : String} {width : Nat} {value : Word}
    (h : x name = value.low width) {i : Nat} (hi : i < width) :
    (x name).getLsbD i = value.getLsbD i := by
  rw [h, Word.getLsbD_low]
  simp [hi]

/-! ## The merge without a buffer -/

namespace PriorityMerge

variable {size width : Nat}

/-- What is driven at a merge are inputs of it, and each once. -/
theorem driven_inputs (size width : Nat) (data valid ready : Word) :
    (∀ p ∈ ifData width [("ins", data)] ++ [("ins_valid", valid), ("outs_ready", ready)],
        p.1 ∈ (body size width).inputs) ∧
      ((ifData width [("ins", data)] ++ [("ins_valid", valid), ("outs_ready", ready)]).map
        Prod.fst).Nodup := by
  have hports : (body size width).ports = passThroughPorts size width := rfl
  rw [Module.inputs, ports_passThrough hports]
  by_cases hw : 0 < width <;> simp [ifData, hw, clockPorts, Port.input]

variable (h : Lanes size width) {x : State} (hfits : (body size width).circuit.widths.Fits x)
  (hx : (body size width).circuit.Settled x)
include h hfits hx

theorem valid_iff : high x "outs_valid" = true ↔ ∃ i < size, (x "ins_valid").getLsbD i = true := by
  rw [(settled_body h hfits hx).1, Word.lowest, List.find?_isSome]
  simp

/-- The lowest valid channel is served as far as the consumer is ready, and no other one. -/
theorem transfersAt_eq {i : Nat} (hvalid : (x "ins_valid").getLsbD i = true)
    (hlower : ∀ j < i, (x "ins_valid").getLsbD j = false) {j : Nat} (hj : j < size) :
    transfersAt "ins" j x = if j = i then high x "outs_ready" else false := by
  obtain ⟨-, hready, -⟩ := settled_body h hfits hx
  show ((x "ins_valid").getLsbD j && (x "ins_ready").getLsbD j) = _
  rw [hready j hj]
  rcases Nat.lt_trichotomy j i with hlt | rfl | hgt
  · rw [hlower j hlt, if_neg (Nat.ne_of_lt hlt), Bool.false_and]
  · rw [hvalid, Word.lowest_eq_none.mpr hlower, if_pos rfl, Option.isNone_none, Bool.and_true,
      Bool.true_and]
  · have hsome : ((x "ins_valid").lowest j).isNone = false := by
      rw [← Option.not_isSome, Word.lowest,
        List.find?_isSome.mpr ⟨i, List.mem_range.mpr hgt, hvalid⟩]
      rfl
    rw [hsome, if_neg (Nat.ne_of_gt hgt), Bool.and_false, Bool.and_false]

theorem payload_eq (hw : 0 < width) {i : Nat} (hi : i < size)
    (hvalid : (x "ins_valid").getLsbD i = true)
    (hlower : ∀ j < i, (x "ins_valid").getLsbD j = false) :
    x "outs" = (x "ins").channel width i := by
  refine (settled_body h hfits hx).2.2 hw i ?_
  refine List.find?_range_eq_some.mpr ⟨hvalid, List.mem_range.mpr hi, fun j hj => ?_⟩
  simpa using hlower j hj

end PriorityMerge

/-! ## The join -/

namespace Join

variable {size : Nat}

theorem mem_inputs (size : Nat) :
    ∀ name ∈ ["ins_valid", "outs_ready"], name ∈ (body size).inputs := by
  simp [Module.inputs, body, anonymous, handshakePorts, PortGroup.ports, PortGroup.channels,
    PortGroup.valid, PortGroup.ready, ExtraSignals.empty, Direction.flip]

variable (hsize : size ≤ wordBits) {x : State} (hfits : (body size).circuit.widths.Fits x)
include hsize hfits

/-- Output and channels are served together. -/
theorem transfersAt_eq (hx : (body size).circuit.Settled x) {i : Nat} (hi : i < size) :
    transfersAt "ins" i x = transfers "outs" x := by
  obtain ⟨hvalid, hready⟩ := settled_body hsize hfits hx
  have hall : (∀ j < size, (x "ins_valid").getLsbD j = true) ↔
      (x "ins_valid").getLsbD i = true ∧ ∀ j < size, j ≠ i → (x "ins_valid").getLsbD j = true := by
    refine ⟨fun h => ⟨h i hi, fun j hj _ => h j hj⟩, fun h j hj => ?_⟩
    by_cases hne : j = i
    · rw [hne]
      exact h.1
    · exact h.2 j hj hne
  show ((x "ins_valid").getLsbD i && (x "ins_ready").getLsbD i) =
    (high x "outs_valid" && high x "outs_ready")
  rw [Bool.eq_iff_iff, Bool.and_eq_true, Bool.and_eq_true, hready i hi, hvalid, hall]
  tauto

end Join

/-! ## Requests -/

/--
**The merge without a buffer serves exactly the lowest valid channel.** For any
number of channels and any width of the payload that fit into words, the merge
is generated, and whatever was done with a simulator of it, payloads, valid bits
and the answer of the consumer can be driven to any words. Once the circuit has
settled, the output is valid if some channel is. The lowest valid channel has
its payload at the output and is served if the consumer is ready; no other
channel is.
-/
theorem lowest_channel_served {request : Request} {size width : Nat}
    (hkind : request.kind = "merge_notehb") (hname : isIdentifier request.name = true)
    (hsize : request.params.count .size = .ok size)
    (hwidth : request.params.count .bitwidth = .ok width)
    (hextra : request.params.extraSignals = .ok .empty) (hpos : 0 < size) (hle : size ≤ wordBits)
    (hdata : size * width ≤ wordBits) :
    ∃ a m, generate request = .ok a ∧ a.flatten = .ok m ∧
      ∀ actions : List Simulator.Action, (∀ action ∈ actions, action.Declared m) →
        ∃ s, (Simulator.start m).perform actions = .ok s ∧ ∀ data valid ready : Word,
          ∃ t, s.observe (ifData width [("ins", data)] ++
              [("ins_valid", valid), ("outs_ready", ready)]) = .ok t ∧
            (t.get "outs_valid" = 1 ↔ ∃ i < size, valid.getLsbD i = true) ∧
            ∀ i < size, valid.getLsbD i = true → (∀ j < i, valid.getLsbD j = false) →
              (0 < width → t.get "outs" = (data.down (i * width)).low width) ∧
              (transfersAt "ins" i t.get = true ↔ ready.getLsbD 0 = true) ∧
              ∀ j < size, j ≠ i → transfersAt "ins" j t.get = false := by
  have hlanes : Lanes size width := ⟨hpos, hle, hdata⟩
  have hwf := PriorityMerge.wellFormed_body hlanes
  have hports : (PriorityMerge.body size width).ports = passThroughPorts size width := rfl
  obtain ⟨-, hmemValid, -, hmemOuts, hmemReady⟩ := mem_signals_handshake hports
  -- generating, flattening and observing are the same for every unit without submodules
  obtain ⟨a, m, ha, hflatten, hobserved⟩ := observed_leaf ⟨request.name, [], hname⟩ 0
    (instancesOf_priorityMerge size width) hwf Merge.acyclic_merge
  refine ⟨a, m, generate_eq_ok_iff.mpr ⟨hname, .priorityMerge, hkind, ?_⟩, hflatten,
    fun actions hactions => ?_⟩
  · rw [UnitKind.generate, PriorityMerge.ofParams, channelCount_eq hsize hpos, ok_bind,
      passThrough_plain hwidth hextra]
    exact ha
  obtain ⟨s, hperform, hobserve⟩ := hobserved actions hactions
  refine ⟨s, hperform, fun data valid ready => ?_⟩
  obtain ⟨hinputs, hnodup⟩ := PriorityMerge.driven_inputs size width data valid ready
  obtain ⟨t, ht, hsettled, hfits, hdriven⟩ := hobserve _ hinputs hnodup
  obtain ⟨hins, hbits⟩ := List.forall_mem_append.mp hdriven
  simp only [List.forall_mem_cons, List.not_mem_nil, false_imp_iff, implies_true, and_true] at hbits
  -- what is driven is seen at the inputs
  have hvalid : ∀ i < size, (t.get "ins_valid").getLsbD i = valid.getLsbD i := fun i hi =>
    getLsbD_driven (hbits.1 size hmemValid) hi
  have hready : high t.get "outs_ready" = ready.getLsbD 0 :=
    getLsbD_driven (hbits.2 1 hmemReady) Nat.one_pos
  refine ⟨t, ht, ?_, fun i hi hset hlower => ?_⟩
  · rw [eq_one_iff_high hfits (Module.declares_of_mem hmemOuts)
      (Module.width_eq hwf.distinct hmemOuts), PriorityMerge.valid_iff hlanes hfits hsettled]
    exact exists_congr fun i => and_congr_right fun hi => by rw [hvalid i hi]
  · have hset' := (hvalid i hi).trans hset
    have hlower' : ∀ j < i, (t.get "ins_valid").getLsbD j = false := fun j hj =>
      (hvalid j (Nat.lt_trans hj hi)).trans (hlower j hj)
    have hserved := fun j hj =>
      PriorityMerge.transfersAt_eq hlanes hfits hsettled hset' hlower' (j := j) hj
    refine ⟨fun hw => ?_, ?_, fun j hj hne => (hserved j hj).trans (if_neg hne)⟩
    · have hpayload := List.forall_mem_singleton.mp (forall_mem_ifData.mp hins hw) _
        (mem_signals_payload hports hw).1
      rw [PriorityMerge.payload_eq hlanes hfits hsettled hw hi hset' hlower', hpayload,
        Word.channel, Word.low_down_low _ (Lanes.reach hi width)]
    · rw [hserved i hi, if_pos rfl, hready]

/-- A request for a merge without a buffer, of three channels of four bits. -/
def Request.threeChannels : Request :=
  ⟨"merge_notehb", "u", OrderedMap.empty.insert "size" (.int 3) |>.insert "bitwidth" (.int 4)⟩

/--
The upper two of three channels are valid, and the consumer is ready: the one in
the middle is served.
-/
theorem lowest_channel_served_second :
    ∃ a m s t, generate .threeChannels = .ok a ∧ a.flatten = .ok m ∧
      (Simulator.start m).perform [.tick] = .ok s ∧
      s.observe [("ins", 0x321), ("ins_valid", 6), ("outs_ready", 1)] = .ok t ∧
      t.get "outs_valid" = 1 ∧
      t.get "outs" = 2 ∧ transfersAt "ins" 1 t.get = true ∧ transfersAt "ins" 0 t.get = false ∧
      transfersAt "ins" 2 t.get = false := by
  have hsize : 3 ∈ (Request.threeChannels.params.count .size).toOption := by decide +kernel
  have hwidth : 4 ∈ (Request.threeChannels.params.count .bitwidth).toOption := by decide +kernel
  have hextra : .empty ∈ Request.threeChannels.params.extraSignals.toOption := by decide +kernel
  obtain ⟨a, m, ha, hm, hserved⟩ := lowest_channel_served
    (show Request.threeChannels.kind = "merge_notehb" from rfl) (by decide)
      (eq_ok_of_mem_toOption hsize)
    (eq_ok_of_mem_toOption hwidth) (eq_ok_of_mem_toOption hextra) (by decide) (by decide)
      (by decide)
  obtain ⟨s, hs, hobserved⟩ := hserved [.tick] (List.forall_mem_singleton.mpr trivial)
  obtain ⟨t, ht, hvalid, hlowest⟩ := hobserved 0x321 6 1
  obtain ⟨hpayload, htaken, hothers⟩ := hlowest 1 (by decide) (by decide) (by decide)
  refine ⟨a, m, s, t, ha, hm, hs, ht, hvalid.mpr ⟨1, by decide, by decide⟩, ?_,
    htaken.mpr (by decide), hothers 0 (by decide) (by decide), hothers 2 (by decide) (by decide)⟩
  rw [hpayload (by decide)]
  decide

/--
**A join transfers all channels together or none.** For any number of channels
up to the bits of a word, the join is generated, and whatever was done with a
simulator of it, valid bits and the answer of the consumer can be driven to any
words. Once the circuit has settled, the output is valid if all channels are,
and a channel is ready if the consumer is and all other channels are valid. So a
token is handed over at each channel if and only if one is at the output.
-/
theorem channels_joined_together {request : Request} {size : Nat} (hkind : request.kind = "join")
    (hname : isIdentifier request.name = true) (hsize : request.params.count .size = .ok size)
    (hextra : request.params.extraSignals = .ok .empty) (hpos : 0 < size) (hle : size ≤ wordBits) :
    ∃ a m, generate request = .ok a ∧ a.flatten = .ok m ∧
      ∀ actions : List Simulator.Action, (∀ action ∈ actions, action.Declared m) →
        ∃ s, (Simulator.start m).perform actions = .ok s ∧ ∀ valid ready : Word,
          ∃ t, s.observe [("ins_valid", valid), ("outs_ready", ready)] = .ok t ∧
            (t.get "outs_valid" = 1 ↔ ∀ i < size, valid.getLsbD i = true) ∧
            (∀ i < size, ((t.get "ins_ready").getLsbD i = true ↔
              ready.getLsbD 0 = true ∧ ∀ j < size, j ≠ i → valid.getLsbD j = true)) ∧
            (∀ i < size, transfersAt "ins" i t.get = transfers "outs" t.get) ∧
            ((∀ i < size, transfersAt "ins" i t.get = true) ∨
              ∀ i < size, transfersAt "ins" i t.get = false) := by
  have hwf := Join.wellFormed_body hle
  have hmem : ("ins_valid", size) ∈ (Join.body size).signals ∧
      ("outs_valid", 1) ∈ (Join.body size).signals ∧
      ("outs_ready", 1) ∈ (Join.body size).signals := by
    simp [Join.signals_body]
  obtain ⟨a, m, ha, hflatten, hobserved⟩ := observed_leaf ⟨request.name, [], hname⟩ 0
    (instancesOf_join size) hwf
    (Join.acyclic_body size)
  refine ⟨a, m, generate_eq_ok_iff.mpr ⟨hname, .join, hkind, ?_⟩, hflatten,
    fun actions hactions => ?_⟩
  · rw [UnitKind.generate, Join.ofParams, hextra, ok_bind, channelCount_eq hsize hpos]
    exact ha
  obtain ⟨s, hperform, hobserve⟩ := hobserved actions hactions
  refine ⟨s, hperform, fun valid ready => ?_⟩
  obtain ⟨t, ht, hsettled, hfits, hdriven⟩ := hobserve [("ins_valid", valid), ("outs_ready", ready)]
    (by simpa using Join.mem_inputs size) (by simp)
  simp only [List.forall_mem_cons, List.not_mem_nil, false_imp_iff, implies_true,
    and_true] at hdriven
  -- what is driven is seen at the inputs
  have hvalid : ∀ i < size, (t.get "ins_valid").getLsbD i = valid.getLsbD i := fun i hi =>
    getLsbD_driven (hdriven.1 size hmem.1) hi
  have hready : high t.get "outs_ready" = ready.getLsbD 0 :=
    getLsbD_driven (hdriven.2 1 hmem.2.2) Nat.one_pos
  obtain ⟨hall, hothers⟩ := Join.settled_body hle hfits hsettled
  have htogether : ∀ i < size, transfersAt "ins" i t.get = transfers "outs" t.get := fun i hi =>
    Join.transfersAt_eq hle hfits hsettled hi
  refine ⟨t, ht, ?_, fun i hi => ?_, htogether, ?_⟩
  · rw [eq_one_iff_high hfits (Module.declares_of_mem hmem.2.1)
      (Module.width_eq hwf.distinct hmem.2.1), hall]
    exact forall₂_congr fun i hi => by rw [hvalid i hi]
  · rw [hothers i hi, hready]
    exact and_congr_right fun _ => forall₂_congr fun j hj => by rw [hvalid j hj]
  · cases houts : transfers "outs" t.get with
    | true => exact Or.inl fun i hi => (htogether i hi).trans houts
    | false => exact Or.inr fun i hi => (htogether i hi).trans houts

/-- A request for a join of as many channels as a word has bits. -/
def Request.widestJoin : Request := ⟨"join", "u", OrderedMap.empty.insert "size" (.int 128)⟩

/-- All channels but the last are valid: only the last one is ready, and nothing is handed over. -/
theorem channels_joined_together_last_missing :
    ∃ a m s t, generate .widestJoin = .ok a ∧ a.flatten = .ok m ∧
      (Simulator.start m).perform [.settle] = .ok s ∧
      s.observe [("ins_valid", .ofNat _ (2 ^ 127 - 1)), ("outs_ready", 1)] = .ok t ∧
      t.get "outs_valid" ≠ 1 ∧
      (t.get "ins_ready").getLsbD 127 = true ∧ (t.get "ins_ready").getLsbD 0 = false ∧
      ∀ i < 128, transfersAt "ins" i t.get = false := by
  have hsize : 128 ∈ (Request.widestJoin.params.count .size).toOption := by decide +kernel
  have hextra : .empty ∈ Request.widestJoin.params.extraSignals.toOption := by decide +kernel
  have hbits : ∀ i < 128, i ≠ 127 → (BitVec.ofNat wordBits (2 ^ 127 - 1)).getLsbD i = true := by
    decide +kernel
  have hlast : (BitVec.ofNat wordBits (2 ^ 127 - 1)).getLsbD 127 = false := by decide +kernel
  obtain ⟨a, m, ha, hm, hjoined⟩ := channels_joined_together
    (show Request.widestJoin.kind = "join" from rfl) (by decide)
    (eq_ok_of_mem_toOption hsize) (eq_ok_of_mem_toOption hextra) (by decide) (by decide)
  obtain ⟨s, hs, hobserved⟩ := hjoined [.settle] (List.forall_mem_singleton.mpr trivial)
  obtain ⟨t, ht, hvalid, hready, -, hall⟩ := hobserved (.ofNat _ (2 ^ 127 - 1)) 1
  have hmissing : t.get "outs_valid" ≠ 1 :=
    fun h => Bool.false_ne_true (hlast.symm.trans (hvalid.mp h 127 (by decide)))
  have hwaits : (t.get "ins_ready").getLsbD 0 = false := Bool.eq_false_iff.mpr fun h =>
    Bool.false_ne_true
      (hlast.symm.trans (((hready 0 (by decide)).mp h).2 127 (by decide) (by decide)))
  refine ⟨a, m, s, t, ha, hm, hs, ht, hmissing,
    (hready 127 (by decide)).mpr ⟨by decide, hbits⟩, hwaits, hall.resolve_left fun h => ?_⟩
  exact Bool.false_ne_true (hwaits.symm.trans (Bool.and_eq_true_iff.mp (h 0 (by decide))).2)

end Handshake
