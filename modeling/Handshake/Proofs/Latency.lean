import Handshake.Proofs.ExtraSignalPairing
import Handshake.Proofs.Simulability

/-!
# The latency of a unit

An artifact announces a latency. After a reset, as long as the consumer takes
whatever it is shown, this is the number of cycles from a token at the input to
that token at the output, and the unit takes a token in every cycle in which it
is offered one.

Nothing stalls then, so a pipeline is a shift register of valid bits, and a slot
that only stores what the consumer refuses never holds anything.
-/

namespace Handshake

/-! ## Delays -/

/-- What leaves is what entered `latency` states before, and before that nothing leaves. -/
structure Delays {σ : Type} (latency : Nat) (enters leaves : σ → Prop) (states : List σ) :
    Prop where
  quiet : ∀ t < latency, ∀ x, states[t]? = some x → ¬ leaves x
  delayed : ∀ t x y, states[t]? = some x → states[t + latency]? = some y → (leaves y ↔ enters x)

/--
After each reset there is such a delay, as long as no other reset follows and
the consumer is ready.
-/
def DelaysUnstalled (latency : Nat) (ready : String) (enters leaves : State → Prop)
    (states : List State) : Prop :=
  ∀ before reset after, states = before ++ reset :: after → high reset "rst" = true →
    (∀ x ∈ after, high x "rst" = false ∧ high x ready = true) → Delays latency enters leaves after

theorem Delays.of_eq {σ : Type} {enters leaves : σ → Prop} {states : List σ}
    (h : ∀ x ∈ states, (leaves x ↔ enters x)) : Delays 0 enters leaves states where
  quiet t ht := absurd ht (Nat.not_lt_zero t)
  delayed t x y hx hy := by
    obtain rfl : x = y := Option.some.inj (hx.symm.trans hy)
    exact h x (List.mem_of_getElem? hx)

/-- Seen through another state, what enters and leaves is delayed as much. -/
theorem Delays.of_view {σ τ : Type} {latency : Nat} {view : τ → σ} {enters leaves : σ → Prop}
    {enters' leaves' : τ → Prop} {states : List τ}
    (h : Delays latency enters leaves (states.map view))
    (henters : ∀ x ∈ states, (enters' x ↔ enters (view x)))
    (hleaves : ∀ x ∈ states, (leaves' x ↔ leaves (view x))) :
    Delays latency enters' leaves' states where
  quiet t ht x hx := by
    rw [hleaves x (List.mem_of_getElem? hx)]
    exact h.quiet t ht (view x) (by rw [List.getElem?_map, hx]; rfl)
  delayed t x y hx hy := by
    rw [hleaves y (List.mem_of_getElem? hy), henters x (List.mem_of_getElem? hx)]
    exact h.delayed t (view x) (view y) (by rw [List.getElem?_map, hx]; rfl)
      (by rw [List.getElem?_map, hy]; rfl)

theorem DelaysUnstalled.of_view {latency : Nat} {ready : String} {view : State → State}
    {enters leaves enters' leaves' : State → Prop} {states : List State}
    (h : DelaysUnstalled latency ready enters leaves (states.map view))
    (hsame : ∀ x ∈ states, ∀ name ∈ ["rst", ready], view x name = x name)
    (henters : ∀ x ∈ states, (enters' x ↔ enters (view x)))
    (hleaves : ∀ x ∈ states, (leaves' x ↔ leaves (view x))) :
    DelaysUnstalled latency ready enters' leaves' states := by
  intro before reset after heq hreset hafter
  have hmem : ∀ x ∈ reset :: after, x ∈ states := fun x hx => heq ▸ List.mem_append_right before hx
  have hhigh : ∀ x ∈ reset :: after, ∀ name ∈ ["rst", ready], high (view x) name = high x name :=
    fun x hx name hname => by
    rw [high, high, hsame x (hmem x hx) name hname]
  refine (h (before.map view) (view reset) (after.map view) ?_ ?_ ?_).of_view
    (fun x hx => henters x (hmem x (List.mem_cons_of_mem _ hx)))
    fun x hx => hleaves x (hmem x (List.mem_cons_of_mem _ hx))
  · rw [heq, List.map_append, List.map_cons]
  · rw [hhigh reset List.mem_cons_self "rst" (by simp)]
    exact hreset
  · refine List.forall_mem_map.mpr fun x hx => ?_
    rw [hhigh x (List.mem_cons_of_mem _ hx) "rst" (by simp),
      hhigh x (List.mem_cons_of_mem _ hx) ready (by simp)]
    exact hafter x hx

/-! ## Shift registers -/

section

variable {σ : Type} {states : List σ} {depth : Nat} {occupied : Nat → σ → Bool} {offered : σ → Bool}
  (hsteps : states.IsChain fun x y => ∀ i < depth, occupied i y =
    if i = 0 then offered x else occupied (i - 1) x)
include hsteps

theorem List.IsChain.shifted {t i : Nat} {x y : σ} (hx : states[t]? = some x)
    (hy : states[t + 1]? = some y) (hi : i < depth) :
    occupied i y = if i = 0 then offered x else occupied (i - 1) x := by
  obtain ⟨_, rfl⟩ := List.getElem?_eq_some_iff.mp hx
  obtain ⟨hlt, rfl⟩ := List.getElem?_eq_some_iff.mp hy
  exact List.isChain_iff_getElem.mp hsteps t hlt i hi

/-- A stage shows what was offered as many states ago as there are stages up to it. -/
theorem occupied_eq_offered {t i : Nat} {x y : σ} (hx : states[t]? = some x)
    (hy : states[t + i + 1]? = some y) (hi : i < depth) : occupied i y = offered x := by
  induction i generalizing y with
  | zero =>
      have hshift := List.IsChain.shifted hsteps hx hy hi
      rwa [if_pos rfl] at hshift
  | succ i ih =>
      have hlt : t + i + 1 < states.length := by
        have := (List.getElem?_eq_some_iff.mp hy).1
        omega
      have hz : states[t + i + 1]? = some states[t + i + 1] := List.getElem?_eq_getElem hlt
      have hshift := List.IsChain.shifted hsteps hz hy hi
      rw [if_neg (Nat.succ_ne_zero i), Nat.add_sub_cancel] at hshift
      rw [hshift, ih hz (by omega)]

/-- What was empty at first stays so until something that was offered gets there. -/
theorem occupied_eq_false (hempty : ∀ x ∈ states.head?, ∀ i < depth, occupied i x = false)
    {t i : Nat} {x : σ} (hx : states[t]? = some x) (hi : i < depth) (ht : t ≤ i) :
    occupied i x = false := by
  induction t generalizing i x with
  | zero =>
      rw [← List.head?_eq_getElem?] at hx
      exact hempty x hx i hi
  | succ t ih =>
      have hlt : t < states.length := by
        have := (List.getElem?_eq_some_iff.mp hx).1
        omega
      have hz : states[t]? = some states[t] := List.getElem?_eq_getElem hlt
      have hshift := List.IsChain.shifted hsteps hz hx hi
      rw [if_neg (by omega : i ≠ 0)] at hshift
      rw [hshift, ih hz (by omega) (by omega)]

end

/-- **A shift register that starts empty delays by the number of its stages.** -/
theorem Delays.of_shift {σ : Type} {states : List σ} {depth : Nat} (occupied : Nat → σ → Bool)
    {offered : σ → Bool}
    (hsteps : states.IsChain fun x y => ∀ i < depth, occupied i y =
      if i = 0 then offered x else occupied (i - 1) x)
    (hempty : ∀ x ∈ states.head?, ∀ i < depth, occupied i x = false) (hdepth : 0 < depth) :
    Delays depth (offered · = true) (occupied (depth - 1) · = true) states where
  quiet t ht x hx := by
    rw [occupied_eq_false hsteps hempty hx (by omega) (by omega)]
    exact Bool.false_ne_true
  delayed t x y hx hy := by
    rw [occupied_eq_offered hsteps hx (i := depth - 1)
      (by rwa [Nat.add_assoc, Nat.sub_add_cancel hdepth]) (by omega)]

/-! ## Pipelines and slots -/

/-- **A pipeline delays by its depth, while its consumer is ready.** -/
theorem DelaysUnstalled.of_pipeline {p : Pipeline State} {ready : String}
    {enters leaves : State → Prop} {states : List State} (hsteps : states.IsChain p.Steps)
    (hdepth : 0 < p.depth) (hreset : ∀ x ∈ states, p.reset x = high x "rst")
    (hready : ∀ x ∈ states, p.ready x = high x ready)
    (henters : ∀ x ∈ states, (enters x ↔ p.accepts x = true))
    (hleaves : ∀ x ∈ states, (leaves x ↔ p.delivers x = true)) :
    DelaysUnstalled p.depth ready enters leaves states := by
  intro before reset after heq hfirst hafter
  have hmem : ∀ x ∈ reset :: after, x ∈ states := fun x hx => heq ▸ List.mem_append_right before hx
  have hlater : ∀ x ∈ after, p.reset x = false ∧ p.ready x = true := fun x hx => by
    rw [hreset x (hmem x (List.mem_cons_of_mem _ hx)),
      hready x (hmem x (List.mem_cons_of_mem _ hx))]
    exact hafter x hx
  -- with a ready consumer the pipeline never stalls
  have henabled : ∀ x ∈ after, p.enabled x = true := fun x hx => by
    rw [Pipeline.enabled, (hlater x hx).2, Bool.or_true]
  rw [heq] at hsteps
  obtain ⟨hempty, hchain⟩ := List.isChain_cons.mp (List.isChain_append.mp hsteps).2.1
  -- so it shifts in every cycle, from stages that the reset has emptied
  have hshift : after.IsChain fun x y => ∀ i < p.depth, p.occupied i y =
      if i = 0 then p.offered x else p.occupied (i - 1) x := by
    refine hchain.imp_of_mem_imp fun {x y} hx _ hstep i hi => ?_
    cases i with
    | zero => exact (hstep.entered (hlater x hx).1 (henabled x hx)).1
    | succ i => exact (hstep.moved (hlater x hx).1 (henabled x hx) i hi).1
  have hdelays := Delays.of_shift p.occupied hshift
    (fun x hx => (hempty x hx).emptied
      ((hreset reset (hmem reset List.mem_cons_self)).trans hfirst)) hdepth
  rw [← List.map_id after] at hdelays
  refine hdelays.of_view (fun x hx => ?_) fun x hx => ?_
  · rw [henters x (hmem x (List.mem_cons_of_mem _ hx)), Pipeline.accepts, henabled x hx,
      Bool.and_true]
    rfl
  · rw [hleaves x (hmem x (List.mem_cons_of_mem _ hx)), Pipeline.delivers, (hlater x hx).2,
      Bool.and_true]
    rfl

/-- A unit that is empty after a reset, and after a cycle with a ready consumer, delays nothing. -/
theorem DelaysUnstalled.of_empty (empty : State → Prop) {R : State → State → Prop}
    {enters leaves : State → Prop} {ready : String} {states : List State}
    (hsteps : states.IsChain R)
    (hempty : ∀ x y, R x y → high x "rst" = true ∨ high x ready = true → empty y)
    (hpasses : ∀ x ∈ states, empty x → high x ready = true → (leaves x ↔ enters x)) :
    DelaysUnstalled 0 ready enters leaves states := by
  intro before reset after heq hfirst hafter
  refine .of_eq fun x hx =>
    hpasses x (heq ▸ List.mem_append_right _ (List.mem_cons_of_mem _ hx)) ?_ (hafter x hx).2
  rw [heq] at hsteps
  have hchain := (List.isChain_append.mp hsteps).2.1
  obtain ⟨t, hlt, rfl⟩ := List.getElem_of_mem hx
  have hstep := List.isChain_iff_getElem.mp hchain t (by rw [List.length_cons]; omega)
  refine hempty _ _ hstep ?_
  cases t with
  | zero => exact Or.inl hfirst
  | succ t => exact Or.inr (hafter _ (List.getElem_mem _)).2

/-! ## Units -/

namespace DelayBuffer

theorem settled_wire {x : State} (hx : (body 0).circuit.Settled x) :
    high x "valid_out" = high x "valid_in" :=
  (hx ⟨.ident "valid_out", .ident "valid_in"⟩ (List.mem_singleton_self _)).1 0 Nat.one_pos

theorem delays {slots : Nat} {states : List State}
    (hb : (body slots).circuit.Behaves (fun _ => 0) states) :
    DelaysUnstalled slots "ready_in" (high · "valid_in" = true) (high · "valid_out" = true)
      states := by
  by_cases h : slots = 0
  · -- a wire
    subst h
    refine .of_empty (fun _ => True) hb.steps (fun _ _ _ _ => trivial) fun x hx _ _ => ?_
    rw [settled_wire (hb.settled x hx)]
  · -- a shift register, which moves whenever its consumer is ready
    intro before reset after heq hfirst hafter
    have hmem : ∀ x ∈ reset :: after, x ∈ states :=
      fun x hx => heq ▸ List.mem_append_right before hx
    have hnext : states.IsChain fun x y => ∀ i < slots, high y (slotName i) =
        if high x "rst" then false
        else if high x "ready_in" then
          (if i = 0 then high x "valid_in" else high x (slotName (i - 1)))
        else high x (slotName i) :=
      hb.isChain_step.imp fun x y hxy i hi => by
        rw [← next_body h hxy.fits hi, high, hxy.registers _ (mem_registers h hi), high]
    rw [heq] at hnext
    obtain ⟨hempty, hchain⟩ := List.isChain_cons.mp (List.isChain_append.mp hnext).2.1
    have hshift : after.IsChain fun x y => ∀ i < slots, high y (slotName i) =
        if i = 0 then high x "valid_in" else high x (slotName (i - 1)) := by
      refine hchain.imp_of_mem_imp fun {x y} hx _ hstep i hi => ?_
      rw [hstep i hi, (hafter x hx).1, (hafter x hx).2, if_neg Bool.false_ne_true, if_pos rfl]
    have hdelays := Delays.of_shift (fun i x => high x (slotName i)) hshift
      (fun x hx i hi => by rw [hempty x hx i hi, hfirst, if_pos rfl]) (Nat.pos_of_ne_zero h)
    rw [← List.map_id after] at hdelays
    refine hdelays.of_view (fun x hx => Iff.rfl) fun x hx => ?_
    rw [settled_body h (hb.settled x (hmem x (List.mem_cons_of_mem _ hx)))]
    rfl

end DelayBuffer

namespace Merge

/-- Some channel hands a token over if one is valid, whenever the lowest valid one is answered. -/
theorem exists_handedOver {x : State} {size : Nat} {answer : Bool}
    (hlow : (x "ins_valid").low size = x "ins_valid")
    (hready : ∀ c < size, (x "ins_ready").getLsbD c =
      (answer && ((x "ins_valid").lowest c).isNone)) :
    (∃ c, handedOver x c = true) ↔ answer = true ∧ ((x "ins_valid").lowest size).isSome = true := by
  rw [← Word.find_unpreceded, List.find?_isSome]
  constructor
  · rintro ⟨c, hc⟩
    obtain ⟨hvalid, hanswer⟩ := Bool.and_eq_true_iff.mp hc
    -- the valid signal has no bits but those of the channels
    have hlt : c < size := by
      rw [← hlow, Word.getLsbD_low] at hvalid
      simpa using (Bool.and_eq_true_iff.mp hvalid).2
    rw [hready c hlt, Bool.and_eq_true_iff] at hanswer
    exact ⟨hanswer.1, c, List.mem_range.mpr hlt, Bool.and_eq_true_iff.mpr ⟨hvalid, hanswer.2⟩⟩
  · rintro ⟨hanswer, c, hc, hfirst⟩
    obtain ⟨hvalid, hnone⟩ := Bool.and_eq_true_iff.mp hfirst
    refine ⟨c, Bool.and_eq_true_iff.mpr ⟨hvalid, ?_⟩⟩
    rw [hready c (List.mem_range.mp hc), hanswer, hnone]
    rfl

theorem delays {size width : Nat} {inner output : String} {flat : Module} {states : List State}
    (h : Lanes size width)
    (hf : Flattens (body inner output size width) (parts size width inner output) flat)
    (hb : flat.circuit.Behaves (fun _ => 0) states) :
    DelaysUnstalled 0 "outs_ready" (fun x => ∃ c, handedOver x c = true) (transfers "outs" · = true)
      states := by
  have hports : (body inner output size width).ports = passThroughPorts size width := rfl
  refine .of_empty (fun x => high x "one_slot_break_r__full" = false) hb.isChain_step
    (fun x y hxy hor => ?_) fun x hx hempty hready => ?_
  · -- the slot keeps nothing that the consumer takes
    have hheld : (slot size width).held y = none := by
      rw [steps h hf hxy]
      rcases hor with hreset | hready
      · exact if_pos hreset
      · rw [Slot.kept]
        split
        · rfl
        · exact if_pos hready
    rw [held_slot] at hheld
    cases hfull : high y "one_slot_break_r__full" with
    | false => rfl
    | true => simp [hfull] at hheld
  · obtain ⟨hchosen, hlanes, -⟩ := settled_merge h hf (hb.settled x hx) (hb.fits x hx)
    obtain ⟨hfree, hvalid, -⟩ := settled_buffer h hf (hb.settled x hx) (hb.fits x hx)
    have hlow :=
      hf.low_own (assembled_body inner output h) (hb.fits x hx) (mem_signals_handshake hports).2.1
    rw [exists_handedOver hlow hlanes, hfree, hempty]
    have htransfers : transfers "outs" x = (high x "outs_valid" && high x "outs_ready") := rfl
    rw [htransfers, hready, hvalid, hchosen, hempty]
    simp

end Merge

theorem PriorityMerge.delays {size width : Nat} {states : List State} (h : Lanes size width)
    (hb : (body size width).circuit.Behaves (fun _ => 0) states) :
    DelaysUnstalled 0 "outs_ready" (fun x => ∃ c, Merge.handedOver x c = true)
      (transfers "outs" · = true) states := by
  refine .of_empty (fun _ => True) hb.steps (fun _ _ _ _ => trivial) fun x hx _ hready => ?_
  obtain ⟨hvalid, hlanes, -⟩ := settled_body h (hb.fits x hx) (hb.settled x hx)
  have htransfers : transfers "outs" x = (high x "outs_valid" && high x "outs_ready") := rfl
  rw [Merge.exists_handedOver (low_valid h (hb.fits x hx)) hlanes, htransfers, hvalid, hready]
  simp

theorem ReadyBreak.delays {width : Nat} {states : List State} (h : Lanes 1 width)
    (hb : (body width).circuit.Behaves (fun _ => 0) states) :
    DelaysUnstalled 0 "outs_ready" (transfers "ins" · = true) (transfers "outs" · = true)
      states := by
  refine .of_empty (fun x => high x "full" = false) hb.isChain_step (fun x y hxy hor => ?_)
    fun x hx hempty hready => ?_
  · rw [high, hxy.registers _ (mem_registers_full width)]
    refine (next_full h hxy.fits).trans ?_
    rcases hor with hreset | hready
    · rw [hreset, if_pos rfl]
    · simp [hready]
  · obtain ⟨hinsReady, hvalid, -⟩ := settled_body h (hb.fits x hx) (hb.settled x hx)
    have hins : transfers "ins" x = (high x "ins_valid" && high x "ins_ready") := rfl
    have houts : transfers "outs" x = (high x "outs_valid" && high x "outs_ready") := rfl
    rw [hins, houts, hready, hvalid, hinsReady, hempty]
    simp

namespace DataBreak

variable {width : Nat}

/-- The slot as a pipeline of one stage. -/
def pipeline : Pipeline State where
  depth := 1
  reset x := high x "rst"
  offered x := high x "ins_valid"
  ready x := high x "outs_ready"
  occupied _ x := high x "valid_reg"
  carries _ _ _ := True

theorem steps (h : Lanes 1 width) {x y : State} (hxy : (body width).circuit.Step x y) :
    pipeline.Steps x y := by
  obtain ⟨hregister, hnext⟩ := next_valid h hxy.fits
  refine .of_stages Nat.one_pos (fun i hi => ?_) (fun _ _ => trivial) (fun _ _ _ _ _ => trivial)
    fun _ _ _ _ _ => trivial
  obtain rfl : i = 0 := Nat.lt_one_iff.mp hi
  rw [(settled_body h hxy.settled).1] at hnext
  show high y "valid_reg" = _
  rw [high, hxy.registers _ hregister]
  exact hnext

theorem delays {states : List State} (h : Lanes 1 width)
    (hb : (body width).circuit.Behaves (fun _ => 0) states) :
    DelaysUnstalled 1 "outs_ready" (transfers "ins" · = true) (transfers "outs" · = true)
      states := by
  refine .of_pipeline (p := pipeline) (hb.isChain_step.imp fun x y hxy => steps h hxy) Nat.one_pos
    (fun _ _ => rfl) (fun _ _ => rfl) (fun x hx => ?_) fun x hx => ?_
  · have hins : transfers "ins" x = (high x "ins_valid" && high x "ins_ready") := rfl
    rw [hins, (settled_body h (hb.settled x hx)).1]
    rfl
  · have houts : transfers "outs" x = (high x "outs_valid" && high x "outs_ready") := rfl
    rw [houts, (settled_body h (hb.settled x hx)).2]
    rfl

end DataBreak

/-! ## Requests -/

namespace UnitKind

/-- The signal with which the consumer of a unit is ready. -/
def readyName : UnitKind → String
  | .join | .priorityMerge | .merge | .buffer | .readyBreak | .dataBreak => "outs_ready"
  | .delayBuffer => "ready_in"
  | .multiplier | .float _ => "result_ready"

/-- The unit takes what it is offered: at one of its channels, or both operands. -/
def Takes : UnitKind → State → Prop
  | .join, x | .priorityMerge, x | .merge, x => ∃ channel, Merge.handedOver x channel = true
  | .buffer, x | .readyBreak, x | .dataBreak, x => transfers "ins" x = true
  | .delayBuffer, x => high x "valid_in" = true
  | .multiplier, x | .float _, x => transfers "lhs" x = true ∧ transfers "rhs" x = true

/-- The consumer of the unit takes what it is shown. -/
def Gives : UnitKind → State → Prop
  | .join, x | .priorityMerge, x | .merge, x | .buffer, x | .readyBreak, x | .dataBreak, x =>
      transfers "outs" x = true
  | .delayBuffer, x => high x "valid_out" = true
  | .multiplier, x | .float _, x => transfers "result" x = true

end UnitKind

section

variable {kind : UnitKind} {id : Identity} {a : Artifact} {size : Option Nat} {width latency : Nat}
  {extra : ExtraSignals} {m : Module} {states : List State}

/-- Units without submodules, through their flattening. -/
theorem Circuit.Behaves.of_finish {content : Module}
    (ha : (Accumulator.start id).finish content latency = .ok a)
    (hleaf : Item.instancesOf content.items = []) (hm : a.flatten = .ok m)
    (hb : m.circuit.Behaves (fun _ => 0) states) : content.circuit.Behaves (fun _ => 0) states := by
  obtain rfl : m = { content with name := id.text } :=
    Except.ok.inj (hm.symm.trans (Artifact.flatten_finish ha hleaf))
  exact ⟨hb.settled, hb.fits, hb.start, hb.steps⟩

theorem Forwarding.delays {generate : Identity → Nat → Except Error Artifact}
    (h : Forwarding kind size generate) (ha : generate id width = .ok a)
    (hbounded : ∀ b ∈ a.blocks, ∀ s ∈ b.content.signals, s.2 ≤ wordBits) (hm : a.flatten = .ok m)
    (hb : m.circuit.Behaves (fun _ => 0) states) :
    DelaysUnstalled a.latency "outs_ready" kind.Takes kind.Gives states := by
  have hready : ReadyBreak.generate id width = .ok a →
      DelaysUnstalled a.latency "outs_ready" (transfers "ins" · = true) (transfers "outs" · = true)
        states := by
    intro ha
    rw [(Accumulator.finish_start ha).2.2.1]
    exact ReadyBreak.delays (.of_finish Nat.one_pos ha rfl hbounded)
      (hb.of_finish ha (instancesOf_readyBreak width) hm)
  have hdata : DataBreak.generate id width = .ok a →
      DelaysUnstalled a.latency "outs_ready" (transfers "ins" · = true) (transfers "outs" · = true)
        states := by
    intro ha
    rw [(Accumulator.finish_start ha).2.2.1]
    exact DataBreak.delays (.of_finish Nat.one_pos ha rfl hbounded)
      (hb.of_finish ha (instancesOf_dataBreak width) hm)
  cases h with
  | priorityMerge hpos =>
      rw [(Accumulator.finish_start ha).2.2.1]
      exact PriorityMerge.delays (.of_finish hpos ha rfl hbounded) (hb.of_finish ha rfl hm)
  | merge hpos =>
      have hlatency : a.latency = 0 := by
        rw [Artifact.latency, Artifact.top?, (Merge.generate_ok ha).1]
        rfl
      obtain ⟨inner, output, flat, hflatten, hf⟩ := Merge.generate_flat ha
      obtain rfl : m = flat := Except.ok.inj (hm.symm.trans hflatten)
      rw [hlatency]
      exact Merge.delays (Merge.lanes_of_blocks ha hpos hbounded) hf hb
  | readyBreak => exact hready ha
  | readyBuffer => exact hready ha
  | dataBreak => exact hdata ha
  | dataBuffer => exact hdata ha

/-- The handshakes of a wrapper are those of the unit inside. -/
theorem Carries.handshake_eq {unit : Artifact} {sub whole : Module}
    (h : Carries size width extra unit a sub whole) {x : State} (hx : whole.circuit.Settled x)
    (hfits : whole.circuit.widths.Fits x) :
    ∀ name ∈ ["rst", "ins_valid", "ins_ready", "outs_valid", "outs_ready"],
      x ("inner__" ++ name) = x name := by
  obtain ⟨layout, inner, hencases⟩ := h.encases
  obtain ⟨-, hinsValid, hinsReady⟩ :=
    hencases.group_eq hx hfits (g := ⟨"ins", width, extra, size⟩) (by simp)
  obtain ⟨-, houtsValid, houtsReady⟩ :=
    hencases.group_eq hx hfits (g := ⟨"outs", width, extra, none⟩) (by simp)
  simp only [List.forall_mem_cons, List.not_mem_nil, false_imp_iff, implies_true, and_true]
  exact ⟨hencases.reset_eq hx hfits, hinsValid, hinsReady, houtsValid, houtsReady⟩

/-- Tokens are handed over at the same ports while the handshakes are the same. -/
theorem transfers_congr {x y : State}
    (hsame : ∀ name ∈ ["rst", "ins_valid", "ins_ready", "outs_valid", "outs_ready"],
      y name = x name) {port : String} (hport : port ∈ ["ins", "outs"]) : transfers port y =
    transfers port x := by
  have hnames : ∀ port ∈ ["ins", "outs"],
      port ++ "_valid" ∈ ["rst", "ins_valid", "ins_ready", "outs_valid", "outs_ready"] ∧
        port ++ "_ready" ∈ ["rst", "ins_valid", "ins_ready", "outs_valid", "outs_ready"] := by
    decide
  rw [transfers, transfers, high, high, high, high, hsame _ (hnames port hport).1,
    hsame _ (hnames port hport).2]

theorem Forwarding.takes_congr {generate : Identity → Nat → Except Error Artifact}
    (h : Forwarding kind size generate) {x y : State}
    (hsame : ∀ name ∈ ["rst", "ins_valid", "ins_ready", "outs_valid", "outs_ready"],
      y name = x name) :
    (kind.Takes x ↔ kind.Takes y) ∧ (kind.Gives x ↔ kind.Gives y) := by
  have htransfers : ∀ port ∈ ["ins", "outs"], transfers port y = transfers port x :=
    fun _ => transfers_congr hsame
  have hchannels : Merge.handedOver y = Merge.handedOver x := by
    funext c
    rw [Merge.handedOver, Merge.handedOver, hsame _ (by simp), hsame _ (by simp)]
  cases h with
  | priorityMerge | merge =>
      show ((∃ c, Merge.handedOver x c = true) ↔ ∃ c, Merge.handedOver y c = true) ∧
        (transfers "outs" x = true ↔ transfers "outs" y = true)
      rw [hchannels, htransfers "outs" (by simp)]
      exact ⟨Iff.rfl, Iff.rfl⟩
  | readyBreak | dataBreak | readyBuffer | dataBuffer =>
      show (transfers "ins" x = true ↔ transfers "ins" y = true) ∧
        (transfers "outs" x = true ↔ transfers "outs" y = true)
      rw [htransfers "ins" (by simp), htransfers "outs" (by simp)]
      exact ⟨Iff.rfl, Iff.rfl⟩

/-- A unit in a wrapper, seen from outside. -/
theorem Forwarding.delays_carried {generate : Identity → Nat → Except Error Artifact}
    (h : Forwarding kind size generate) (hne : extra.signals ≠ [])
    (ha : Manager.concat id [⟨"ins", width, extra, size⟩] [⟨"outs", width, extra, none⟩] extra
      generate = .ok a) (hdistinct : a.Distinct)
    (hbounded : ∀ b ∈ a.blocks, ∀ s ∈ b.content.signals, s.2 ≤ wordBits) (hm : a.flatten = .ok m)
    (hb : m.circuit.Behaves (fun _ => 0) states) :
    DelaysUnstalled a.latency "outs_ready" kind.Takes kind.Gives states := by
  obtain ⟨unit, sub, whole, hunit, hblocks, hcarries⟩ := h.carries hne ha hdistinct hbounded
  obtain rfl : m = whole := Except.ok.inj (hm.symm.trans hcarries.simulates.flatten)
  have hsame := fun x (hx : x ∈ states) => hcarries.handshake_eq (hb.settled x hx) (hb.fits x hx)
  obtain ⟨layout, inner, hencases⟩ := hcarries.encases
  have hinside := hencases.flattens.restrict hencases.assembled (List.mem_singleton_self _) hb
  rw [hcarries.latency]
  refine (h.delays hunit (fun b hb => hbounded b (hblocks b hb)) hcarries.simulates_unit.flatten
    hinside).of_view ?_ ?_ ?_
  · intro x hx name hname
    refine hsame x hx name ?_
    simp only [List.mem_cons, List.not_mem_nil, or_false] at hname
    rcases hname with rfl | rfl <;> simp
  · exact fun x hx => (h.takes_congr (hsame x hx)).1
  · exact fun x hx => (h.takes_congr (hsame x hx)).2

theorem Computing.takes_iff {core : Identity → Except Error Artifact}
    (h : Computing kind width latency core) {p : Pipeline State} {x : State}
    (htransfers : transfers "lhs" x = p.accepts x ∧ transfers "rhs" x = p.accepts x ∧
      transfers "result" x = p.delivers x) :
    kind.readyName = "result_ready" ∧ (kind.Takes x ↔ p.accepts x = true) ∧
      (kind.Gives x ↔ p.delivers x = true) := by
  obtain ⟨hleft, hright, hresult⟩ := htransfers
  have htakes : transfers "lhs" x = true ∧ transfers "rhs" x = true ↔ p.accepts x = true := by
    rw [hleft, hright, and_self]
  cases h with
  | multiplier => exact ⟨rfl, htakes, iff_of_eq (congrArg (· = true) hresult)⟩
  | float => exact ⟨rfl, htakes, iff_of_eq (congrArg (· = true) hresult)⟩

theorem Computing.delays {core : Identity → Except Error Artifact}
    (h : Computing kind width latency core) (ha : core id = .ok a)
    (hbounded : ∀ b ∈ a.blocks, ∀ s ∈ b.content.signals, s.2 ≤ wordBits) (hm : a.flatten = .ok m)
    (hb : m.circuit.Behaves (fun _ => 0) states) :
    DelaysUnstalled a.latency "result_ready" kind.Takes kind.Gives states := by
  obtain ⟨body, parts, flat, hflat⟩ := h.flattened ha (h.width_le ha hbounded)
  obtain rfl : m = flat := Except.ok.inj (hm.symm.trans hflat.flatten)
  have htransfers := fun x (hx : x ∈ states) => h.takes_iff
    (hflat.controlled.transfers_eq hflat.flattens (Nat.lt_of_succ_lt h.latency_gt) (hb.settled x hx)
      (hb.fits x hx))
  rw [h.latency_eq ha]
  exact .of_pipeline (p := Operator.pipeline latency)
    (hb.isChain_step.imp fun x y hxy => hflat.controlled.steps hflat.flattens h.latency_gt hxy)
    (Nat.lt_of_succ_lt h.latency_gt) (fun _ _ => rfl) (fun _ _ => rfl)
      (fun x hx => (htransfers x hx).2.1)
    fun x hx => (htransfers x hx).2.2

theorem Computing.delays_wrapped {core : Identity → Except Error Artifact}
    (h : Computing kind width latency core) (hne : extra.signals ≠ [])
    (ha : Operator.generate id (.signalManaged width extra) latency core = .ok a)
    (hbounded : ∀ b ∈ a.blocks, ∀ s ∈ b.content.signals, s.2 ≤ wordBits) (hm : a.flatten = .ok m)
    (hb : m.circuit.Behaves (fun _ => 0) states) :
    DelaysUnstalled a.latency "result_ready" kind.Takes kind.Gives states := by
  obtain ⟨hlatency, body, parts, flat, whole, hwrapped⟩ := h.wrapped hne ha hbounded
  obtain rfl : m = whole := Except.ok.inj (hm.symm.trans hwrapped.flatten)
  obtain ⟨inner, line, layout, hwrap, hf⟩ := hwrapped.wraps
  have htransfers := fun x (hx : x ∈ states) => h.takes_iff
    (hwrap.transfers_eq hf hwrapped.flattens hwrapped.controlled (hb.settled x hx) (hb.fits x hx))
  have hhigh :=
    fun x (hx : x ∈ states) name (hname : name ∈ (Manager.innerPorts 0).map Port.name) =>
    hwrap.inner_high hf (hb.settled x hx) (hb.fits x hx) hname
  exact .of_pipeline (p := Manager.innerPipeline a.latency)
    (hb.isChain_step.imp fun x y hxy =>
      hwrap.inner_steps hf hwrapped.flattens hwrapped.controlled hlatency hxy)
    (Nat.lt_of_succ_lt hlatency) (fun x hx => hhigh x hx "rst" (by decide))
    (fun x hx => hhigh x hx "result_ready" (by decide)) (fun x hx => (htransfers x hx).2.1)
    fun x hx => (htransfers x hx).2.2

/-- The units of all kinds but joins delay by the latency that they announce. -/
theorem Built.delays (h : Built kind id a) (hjoin : kind ≠ .join) (hdistinct : a.Distinct)
    (hbounded : ∀ b ∈ a.blocks, ∀ s ∈ b.content.signals, s.2 ≤ wordBits) (hm : a.flatten = .ok m)
    (hb : m.circuit.Behaves (fun _ => 0) states) :
    DelaysUnstalled a.latency kind.readyName kind.Takes kind.Gives states := by
  cases h with
  | join hpos ha => exact absurd rfl hjoin
  | @delayBuffer _ _ slots ha =>
      rw [(Accumulator.finish_start ha).2.2.1]
      exact DelayBuffer.delays (hb.of_finish ha (instancesOf_delayBuffer slots) hm)
  | forwarding hunit ha =>
      have hdelays := hunit.delays ha hbounded hm hb
      cases hunit <;> exact hdelays
  | carrying hunit hne ha =>
      have hdelays := hunit.delays_carried hne ha hdistinct hbounded hm hb
      cases hunit <;> exact hdelays
  | computing hunit ha =>
      have hdelays := hunit.delays ha hbounded hm hb
      cases hunit <;> exact hdelays
  | bypassing hunit hne ha =>
      have hdelays := hunit.delays_wrapped hne ha hbounded hm hb
      cases hunit <;> exact hdelays

end

/--
**The announced latency is the simulated one.** Take a generated unit other than
a join, in which no module declares a name twice and no signal is wider than a
word, and simulate it on any inputs. After each reset, as long as there is no
other and the consumer is ready, the unit gives in cycle `t + latency` if and
only if it takes in cycle `t`, and gives nothing in the first `latency` cycles.
-/
theorem latency_observed {request : Request} {a : Artifact} {kind : UnitKind}
    (hkind : UnitKind.ofTag? request.kind = some kind) (hjoin : kind ≠ .join)
    (ha : generate request = .ok a) (hdistinct : ∀ b ∈ a.blocks, b.content.declared.Nodup)
    (hbounded : ∀ b ∈ a.blocks, ∀ s ∈ b.content.signals, s.2 ≤ wordBits) :
    ∃ m, a.flatten = .ok m ∧
      ∀ cycles : List (List (String × Word)), (∀ inputs ∈ cycles, ∀ i ∈ inputs, i.1 ∈ m.inputs) →
        ∃ trace, (Simulator.start m).run cycles = .ok trace ∧ trace.length = cycles.length ∧
          ∀ before reset after, trace.map Simulator.get = before ++ reset :: after →
            high reset "rst" = true →
            (∀ x ∈ after, high x "rst" = false ∧ high x kind.readyName = true) →
            (∀ t < a.latency, ∀ x, after[t]? = some x → ¬ kind.Gives x) ∧
            ∀ t x y, after[t]? = some x → after[t + a.latency]? = some y →
              (kind.Gives y ↔ kind.Takes x) := by
  obtain ⟨kind', id, hkind', hbuilt⟩ := generate_built ha
  obtain rfl : kind' = kind := Option.some.inj (hkind'.symm.trans hkind)
  obtain ⟨m, hflatten, hwf, rank, hrank⟩ := hbuilt.simulates hdistinct hbounded
  refine ⟨m, hflatten, fun cycles hcycles => ?_⟩
  obtain ⟨trace, hrun, hlength, hb⟩ := hwf.run_start hrank hcycles
  refine ⟨trace, hrun, hlength, fun before reset after heq hreset hafter => ?_⟩
  have hdelays :=
    hbuilt.delays hjoin hdistinct hbounded hflatten hb before reset after heq hreset hafter
  exact ⟨hdelays.quiet, hdelays.delayed⟩

/-- A buffer that cuts the data path. -/
def Request.dataSlot : Request :=
  ⟨"one_slot_break_dv", "u", OrderedMap.empty.insert "bitwidth" (.int 2)⟩

/-- A reset, then a token in the first of three cycles with a ready consumer. -/
def oneToken : List (List (String × Word)) :=
  [[("rst", 1)], [("rst", 0), ("outs_ready", 1), ("ins_valid", 1), ("ins", 2)],
    [("ins_valid", 0)], []]

/-- The buffer takes a token in the first cycle after the reset, and gives it in the second. -/
theorem latency_observed_slot :
    ∃ a m trace, generate .dataSlot = .ok a ∧ a.flatten = .ok m ∧ a.latency = 1 ∧
      (Simulator.start m).run oneToken = .ok trace ∧
      ∀ t x y, (trace.tail.map Simulator.get)[t]? = some x →
        (trace.tail.map Simulator.get)[t + 1]? = some y →
        (transfers "outs" y = true ↔ transfers "ins" x = true) := by
  have hmade : ∃ a ∈ (generate .dataSlot).toOption, a.latency = 1 ∧
      (∀ b ∈ a.blocks, b.content.declared.Nodup) ∧
      (∀ b ∈ a.blocks, ∀ s ∈ b.content.signals, s.2 ≤ wordBits) ∧
      ∃ m ∈ a.flatten.toOption, (∀ inputs ∈ oneToken, ∀ i ∈ inputs, i.1 ∈ m.inputs) ∧
        ∃ trace ∈ ((Simulator.start m).run oneToken).toOption,
          (∀ s ∈ trace.head?, high s.get "rst" = true) ∧
          ∀ s ∈ trace.tail, high s.get "rst" = false ∧ high s.get "outs_ready" = true := by
    decide +kernel
  obtain ⟨a, ha, hlatency, hdistinct, hbounded, m, hm, hinputs, trace, htrace, hreset, hready⟩ :=
    hmade
  have hkind : UnitKind.ofTag? Request.dataSlot.kind = some .dataBreak := by decide
  obtain ⟨m', hm', hruns⟩ :=
    latency_observed hkind (by decide) (eq_ok_of_mem_toOption ha) hdistinct hbounded
  obtain rfl : m' = m := Except.ok.inj (hm'.symm.trans (eq_ok_of_mem_toOption hm))
  obtain ⟨trace', hrun, hlength, hobserved⟩ := hruns oneToken hinputs
  obtain rfl : trace' = trace := Except.ok.inj (hrun.symm.trans (eq_ok_of_mem_toOption htrace))
  refine ⟨a, m', trace', eq_ok_of_mem_toOption ha, hm', hlatency, hrun, ?_⟩
  cases trace' with
  | nil => exact absurd hlength (by decide)
  | cons s rest =>
      have hdelayed := (hobserved [] s.get (rest.map Simulator.get) rfl (hreset s rfl)
        (List.forall_mem_map.mpr hready)).2
      rw [hlatency] at hdelayed
      exact hdelayed

end Handshake
