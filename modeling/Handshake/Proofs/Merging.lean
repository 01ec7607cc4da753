import Mathlib.Data.List.Find
import Handshake.Proofs.Arbitration
import Handshake.Proofs.Concatenation
import Handshake.Proofs.Feasibility
import Handshake.Proofs.Pipelines

/-!
# Merges hand tokens on in their order

A merge is a slot for one token behind a choice of the lowest valid channel. In
each cycle what the slot held and what was accepted is what was delivered and
what the slot holds next; over a run this makes the tokens that left a prefix of
the tokens that entered, with at most one still inside.

With extra signals a token is a bus of payload and extra signals, and the
wrapper hands the fields of a channel over together.
-/

namespace Handshake

namespace Word

theorem low_zero (w : Word) : w.low 0 = 0 :=
  BitVec.eq_of_getLsbD_eq fun i _ => by simp [Word.getLsbD_low]

/-- Low parts need only be compared if they have bits. -/
theorem low_congr {v w : Word} {width : Nat} (h : 0 < width → v.low width = w.low width) :
    v.low width = w.low width := by
  by_cases hw : 0 < width
  · exact h hw
  · rw [Nat.eq_zero_of_not_pos hw, low_zero, low_zero]

end Word

/-! ## Order -/

/--
The tokens that left are the first of those that entered, in their order, and at
most some are still inside.
-/
structure Conveys {σ τ : Type} (states : List σ) (room : Nat) (enters leaves : σ → Option τ) :
    Prop where
  in_order : states.filterMap leaves <+: states.filterMap enters
  inside_le : (states.filterMap enters).length ≤ (states.filterMap leaves).length + room

theorem Conveys.congr {σ τ : Type} {states : List σ} {room : Nat}
    {enters leaves enters' leaves' : σ → Option τ} (h : Conveys states room enters leaves)
    (henters : ∀ s ∈ states, enters' s = enters s) (hleaves : ∀ s ∈ states, leaves' s = leaves s) :
    Conveys states room enters' leaves' := by
  refine ⟨?_, ?_⟩
  · rw [List.filterMap_congr henters, List.filterMap_congr hleaves]
    exact h.in_order
  · rw [List.filterMap_congr henters, List.filterMap_congr hleaves]
    exact h.inside_le

/-- Seen through another state, and with other tokens made of its tokens, a conveyor remains one. -/
theorem Conveys.of_view {ρ σ τ υ : Type} {view : ρ → σ} {f : τ → υ} {states : List ρ} {room : Nat}
    {enters leaves : σ → Option τ} {enters' leaves' : ρ → Option υ}
    (h : Conveys (states.map view) room enters leaves)
    (henters : ∀ s ∈ states, enters' s = (enters (view s)).map f)
    (hleaves : ∀ s ∈ states, leaves' s = (leaves (view s)).map f) :
    Conveys states room enters' leaves' := by
  have hmap : ∀ {g : σ → Option τ} {g' : ρ → Option υ}, (∀ s ∈ states, g' s = (g (view s)).map f) →
      states.filterMap g' = ((states.map view).filterMap g).map f := by
    intro g g' hg
    rw [List.filterMap_map, List.map_filterMap]
    exact List.filterMap_congr hg
  refine ⟨?_, ?_⟩
  · rw [hmap henters, hmap hleaves]
    exact h.in_order.map f
  · rw [hmap henters, hmap hleaves, List.length_map, List.length_map]
    exact h.inside_le

/-! ## A place for one token -/

/--
A place for one token, as states show it. In each state it is settled what
becomes of the tokens there are.
-/
structure Cell (σ τ : Type) where
  /-- The place is being emptied. -/
  reset : σ → Bool
  /-- The token that is there. -/
  held : σ → Option τ
  /-- The token that comes in. -/
  accepted : σ → Option τ
  /-- The token that goes out. -/
  delivered : σ → Option τ
  /-- The token that is left. -/
  kept : σ → Option τ
  /-- What is there and what comes in is what goes out and what is left, in this order. -/
  balanced : ∀ s, (held s).toList ++ (accepted s).toList = (delivered s).toList ++ (kept s).toList

namespace Cell

variable {σ τ : Type} {p : Cell σ τ}

/-- One cycle: the place holds what was left, unless it was emptied. -/
def Steps (p : Cell σ τ) (s t : σ) : Prop := p.held t = if p.reset s then none else p.kept s

/--
**Tokens are conserved.** What was held and what was accepted is what was
delivered and what is left.
-/
theorem conserved {states : List σ} (hsteps : states.IsChain p.Steps)
    (hreset : ∀ s ∈ states, p.reset s = false) {held : Option τ}
    (hheld : ∀ s ∈ states.head?, p.held s = held) :
    ∃ left : Option τ,
      held.toList ++ states.filterMap p.accepted = states.filterMap p.delivered ++ left.toList := by
  induction states generalizing held with
  | nil => exact ⟨held, by simp⟩
  | cons s rest ih =>
      obtain ⟨hs, hrest⟩ := List.forall_mem_cons.mp hreset
      have hnext : ∀ t ∈ rest.head?, p.held t = p.kept s := by
        intro t ht
        have hstep := (List.isChain_cons.mp hsteps).1 t ht
        rw [Steps, hs] at hstep
        exact hstep
      obtain ⟨left, hleft⟩ := ih (List.isChain_cons.mp hsteps).2 hrest hnext
      refine ⟨left, ?_⟩
      have hcons : ∀ f : σ → Option τ,
          (s :: rest).filterMap f = (f s).toList ++ rest.filterMap f := by
        intro f
        rw [List.filterMap_cons]
        cases f s <;> rfl
      rw [← hheld s (by simp), hcons, hcons, ← List.append_assoc, p.balanced,
        List.append_assoc, hleft, List.append_assoc]

/-- The place is empty after a reset. -/
theorem empty_sinceReset {states : List σ} (hsteps : states.IsChain p.Steps)
    (hstart : ∀ s ∈ states.head?, p.held s = none) :
    ∀ s ∈ (Pipeline.sinceReset p.reset states).head?, p.held s = none := by
  intro s hs
  rcases Pipeline.sinceReset_cases p.reset states with heq | ⟨before, last, heq, hlast⟩
  · rw [heq] at hs
    exact hstart s hs
  · rw [heq, List.append_assoc] at hsteps
    have hstep := (List.isChain_cons.mp (List.isChain_append.mp hsteps).2.1).1 s hs
    rwa [Steps, hlast, if_pos rfl] at hstep

/-- **Since the last reset, tokens were delivered in the order in which they were accepted.** -/
theorem conveys {states : List σ} (hsteps : states.IsChain p.Steps)
    (hstart : ∀ s ∈ states.head?, p.held s = none) :
    Conveys (Pipeline.sinceReset p.reset states) 1 p.accepted p.delivered := by
  obtain ⟨left, hleft⟩ := conserved (Pipeline.isChain_sinceReset _ hsteps)
    (fun s hs => Pipeline.not_reset_of_mem_sinceReset hs) (empty_sinceReset hsteps hstart)
  rw [Option.toList_none, List.nil_append] at hleft
  refine ⟨⟨left.toList, hleft.symm⟩, ?_⟩
  rw [hleft, List.length_append]
  cases left <;> simp

end Cell

/-- A slot for one token and its surroundings, as states show them. -/
structure Slot (σ τ : Type) where
  /-- The slot is being emptied. -/
  reset : σ → Bool
  /-- The token that is offered at the entry. -/
  offered : σ → Option τ
  /-- The consumer takes what it is shown. -/
  ready : σ → Bool
  /-- The token that the slot holds. -/
  held : σ → Option τ

namespace Slot

variable {σ τ : Type} (p : Slot σ τ)

/-- What the consumer is shown: the token that is held, before one that is offered. -/
def shown (s : σ) : Option τ := (p.held s).or (p.offered s)

/-- A token is accepted while none is held. It passes through unless the consumer refuses it. -/
def accepted (s : σ) : Option τ := if (p.held s).isSome then none else p.offered s

def delivered (s : σ) : Option τ := if p.ready s then p.shown s else none

/-- What the consumer is shown and does not take. -/
def kept (s : σ) : Option τ := if p.ready s then none else p.shown s

/-- The place for a token behind a slot through which tokens pass. -/
def passing : Cell σ τ where
  reset := p.reset
  held := p.held
  accepted := p.accepted
  delivered := p.delivered
  kept := p.kept
  balanced s := by
    unfold accepted delivered kept shown
    cases p.held s <;> cases p.ready s <;> simp

/-- One cycle: the slot holds what was kept. -/
def Steps (s t : σ) : Prop := p.held t = if p.reset s then none else p.kept s

variable {p}

theorem conveys {states : List σ} (hsteps : states.IsChain p.Steps)
    (hstart : ∀ s ∈ states.head?, p.held s = none) :
    Conveys (Pipeline.sinceReset p.reset states) 1 p.accepted p.delivered :=
  Cell.conveys (p := p.passing) hsteps hstart

end Slot

/-! ## Parts connected name by name -/

/-- The connections of a part are whole signals, each to a port of its own. -/
structure Part.Plugs (p : Part) (wires : List (Port × String)) : Prop where
  connections : p.1.connections = wires.map fun w => (w.1.name, some (.ident w.2))
  ports : ∀ w ∈ wires, p.2.port? w.1.name = some w.1

namespace Part.Plugs

variable {p : Part} {wires : List (Port × String)} (h : p.Plugs wires)
include h

theorem forall_connections {P : String × Option Expr → Prop}
    (hall : ∀ w ∈ wires, P (w.1.name, some (.ident w.2))) : ∀ c ∈ p.1.connections, P c := by
  rw [h.connections]
  exact List.forall_mem_map.mpr hall

theorem drivenBy_eq {w : Port × String} (hw : w ∈ wires) :
    p.drivenBy (w.1.name, some (.ident w.2)) =
      if w.1.direction = .output then [.ident w.2] else [] := by
  unfold drivenBy
  rw [h.ports w hw]
  dsimp only
  cases w.1.direction <;> rfl

theorem mem_drivenBy {w : Port × String} (hw : w ∈ wires) {e : Expr}
    (he : e ∈ p.drivenBy (w.1.name, some (.ident w.2))) : e = .ident w.2 := by
  rw [h.drivenBy_eq hw] at he
  split at he
  · exact List.mem_singleton.mp he
  · exact absurd he List.not_mem_nil

theorem connected {widths : Widths} (hdeclared : ∀ w ∈ wires, widths.Declares w.2) :
    ∀ c ∈ p.1.connections, ∀ e ∈ c.2, e.Typed widths :=
  h.forall_connections fun w hw e he => by
    rw [Option.mem_some_iff] at he
    exact he ▸ hdeclared w hw

theorem outputs {widths : Widths} (hdeclared : ∀ w ∈ wires, widths.Declares w.2) :
    ∀ c ∈ p.1.connections, ∀ e ∈ p.drivenBy c, e.IsTarget widths :=
  h.forall_connections fun w hw e he => by
    rw [h.mem_drivenBy hw he]
    exact hdeclared w hw

/-- The signals that the part drives. -/
theorem driven (width : String → Nat) :
    p.1.connections.flatMap (fun c => (p.drivenBy c).flatMap (Expr.regions width)) =
      ((wires.filter fun w => w.1.direction = .output).map Prod.snd).map fun name =>
        ⟨name, 0, width name⟩ := by
  have hone : ∀ w ∈ wires, (p.drivenBy (w.1.name, some (.ident w.2))).flatMap (Expr.regions width) =
      if w.1.direction = .output then [(⟨w.2, 0, width w.2⟩ : Region)] else [] := by
    intro w hw
    rw [h.drivenBy_eq hw]
    split <;> rfl
  rw [h.connections, List.flatMap_map, List.flatMap_congr hone]
  clear h hone
  induction wires with
  | nil => rfl
  | cons w rest ih =>
      rw [List.flatMap_cons, ih]
      by_cases hout : w.1.direction = .output <;> simp [hout]

theorem ranked (hd : (p.2.signals.map Prod.fst).Nodup) {own inner : String → Nat}
    (hrank : ∀ w ∈ wires,
      if w.1.direction = .output then inner w.1.name < own w.2 else own w.2 < inner w.1.name) :
    p.Ranked own inner := by
  refine ranked_of_ports hd (h.forall_connections fun w hw e he q hq name hname => ?_)
  rw [Option.mem_some_iff] at he
  rw [← he, Expr.reads, List.mem_singleton] at hname
  obtain rfl : w.1 = q := Option.some.inj ((h.ports w hw).symm.trans hq)
  have hrank := hrank w hw
  rw [hname]
  cases hdirection : w.1.direction with
  | input => rwa [hdirection, if_neg (by decide)] at hrank
  | output => rwa [hdirection, if_pos rfl] at hrank

theorem connects {w : Port × String} (hw : w ∈ wires) :
    (w.1.name, some (.ident w.2)) ∈ p.1.connections := by
  rw [h.connections]
  exact List.mem_map.mpr ⟨w, hw, rfl⟩

theorem isSome_port : ∀ c ∈ p.1.connections, (p.2.port? c.1).isSome = true :=
  h.forall_connections fun w hw => by rw [h.ports w hw]; rfl

/-- A port of the part and the signal at it are worth the same. -/
theorem wire_eq {m flat : Module} {parts : List Part} (hf : Flattens m parts flat)
    (hm : m.Assembled parts) {x : State} (hx : flat.circuit.Settled x)
    (hfits : flat.circuit.widths.Fits x) (hp : p ∈ parts) {w : Port × String} (hw : w ∈ wires)
    (hmem : (w.2, w.1.width) ∈ m.signals) : x (p.rename w.1.name) = x w.2 :=
  hf.wire_eq hm hx hfits hp (h.connects hw) (h.ports w hw) hmem

end Part.Plugs

/-! ## The module of a merge -/

namespace Merge

/-- The merge without a buffer, inside a merge. -/
def mergePart (size width : Nat) (name : String) : Part :=
  (mergeInstance name width, { PriorityMerge.body size width with name })

/-- The slot behind it. -/
def bufferPart (width : Nat) (name : String) : Part :=
  (bufferInstance name width, { ReadyBreak.body width with name })

def parts (size width : Nat) (inner output : String) : List Part :=
  [mergePart size width inner, bufferPart width output]

/-- What the ports of the merge without a buffer are connected to. -/
def mergeWires (size width : Nat) : List (Port × String) :=
  [(⟨.input, 1, "clk"⟩, "clk"), (⟨.input, 1, "rst"⟩, "rst")] ++
    ifData width [(⟨.input, size * width, "ins"⟩, "ins")] ++
    [(⟨.input, size, "ins_valid"⟩, "ins_valid"), (⟨.output, size, "ins_ready"⟩, "ins_ready"),
      (⟨.output, 1, "outs_valid"⟩, "one_slot_break_r_pvalid"),
        (⟨.input, 1, "outs_ready"⟩, "one_slot_break_r_ready")] ++
    ifData width [(⟨.output, 1 * width, "outs"⟩, "one_slot_break_r_data_in")]

/-- What the ports of the slot are connected to. -/
def bufferWires (width : Nat) : List (Port × String) :=
  [(⟨.input, 1, "clk"⟩, "clk"), (⟨.input, 1, "rst"⟩, "rst")] ++
    ifData width [(⟨.input, 1 * width, "ins"⟩, "one_slot_break_r_data_in")] ++
    [(⟨.input, 1, "ins_valid"⟩, "one_slot_break_r_pvalid"),
      (⟨.output, 1, "ins_ready"⟩, "one_slot_break_r_ready"),
      (⟨.output, 1, "outs_valid"⟩, "outs_valid"), (⟨.input, 1, "outs_ready"⟩, "outs_ready")] ++
    ifData width [(⟨.output, 1 * width, "outs"⟩, "outs")]

variable {size width : Nat} {inner output : String}

theorem port_passThrough {m : Module} (h : m.ports = passThroughPorts size width) {q : Port}
    (hq : q ∈ m.ports) : m.port? q.name = some q := by
  refine Module.port?_of_ports ?_ hq
  rw [h, names_passThroughPorts]
  by_cases hw : 0 < width <;> simp [ifData, hw]

theorem plugs_merge (size width : Nat) (name : String) :
    (mergePart size width name).Plugs (mergeWires size width) := by
  have hports : (mergePart size width name).2.ports = passThroughPorts size width := rfl
  refine ⟨?_, fun w hw => port_passThrough hports ?_⟩
  · by_cases hw : 0 < width
      <;> simp [mergePart, mergeInstance, mergeWires, clockWires, sameName, wire, ifData, hw]
  · rw [ports_passThrough hports]
    revert w
    by_cases hw : 0 < width <;> simp [mergeWires, ifData, hw, clockPorts, Port.input]

theorem plugs_buffer (width : Nat) (name : String) :
    (bufferPart width name).Plugs (bufferWires width) := by
  have hports : (bufferPart width name).2.ports = passThroughPorts 1 width := rfl
  refine ⟨?_, fun w hw => port_passThrough hports ?_⟩
  · by_cases hw : 0 < width
      <;> simp [bufferPart, bufferInstance, bufferWires, clockWires, sameName, wire, ifData, hw]
  · rw [ports_passThrough hports]
    revert w
    by_cases hw : 0 < width <;> simp [bufferWires, ifData, hw, clockPorts, Port.input]

theorem signals_body :
    (body inner output size width).signals =
      (passThroughPorts size width).map (fun p => (p.name, p.width)) ++
        (ifData width [("one_slot_break_r_data_in", width)] ++
          [("one_slot_break_r_pvalid", 1), ("one_slot_break_r_ready", 1)]) := by
  by_cases hw : 0 < width <;>
    simp [Module.signals, body, anonymous, Item.declsOf, Item.decls, decls, Decl.net, ifData, hw]

/-- The wires have the widths of the ports they connect. -/
theorem mem_signals_wires (inner output : String) :
    ∀ w ∈ mergeWires size width ++ bufferWires width,
      (w.2, w.1.width) ∈ (body inner output size width).signals := by
  have hports : (body inner output size width).ports = passThroughPorts size width := rfl
  rw [signals_body, ← hports, ports_passThrough hports]
  by_cases hw : 0 < width
    <;> simp [-Prod.forall, mergeWires, bufferWires, ifData, hw, clockPorts, Port.input]

theorem driven_body :
    (body inner output size width).drivenWith (parts size width inner output) =
      (["ins_ready", "one_slot_break_r_pvalid"] ++ ifData width ["one_slot_break_r_data_in"] ++
        ["one_slot_break_r_ready", "outs_valid"] ++ ifData width ["outs"]).map fun name =>
          ⟨name, 0, (body inner output size width).circuit.widths.width name⟩ := by
  have hown : Item.drivesOf (body inner output size width).items = [] := rfl
  rw [Module.drivenWith, hown, List.flatMap_nil, List.nil_append, parts, List.flatMap_cons,
    List.flatMap_cons, List.flatMap_nil, (plugs_merge size width inner).driven,
    (plugs_buffer width output).driven]
  by_cases hw : 0 < width <;> simp [mergeWires, bufferWires, ifData, hw]

theorem drivable_body :
    ∀ name ∈ ["ins_ready",
      "one_slot_break_r_pvalid"] ++ ifData width ["one_slot_break_r_data_in"] ++
      ["one_slot_break_r_ready", "outs_valid"] ++ ifData width ["outs"],
      name ∈ (body inner output size width).drivable := by
  have hports : (body inner output size width).ports = passThroughPorts size width := rfl
  rw [Module.drivable, ports_passThrough hports]
  by_cases hw : 0 < width <;>
    simp [ifData, hw, clockPorts, Port.input, body, anonymous, Item.declsOf, Item.decls,
      decls, Decl.net]

theorem wellFormed_parts (h : Lanes size width) :
    ∀ p ∈ parts size width inner output, p.2.WellFormed := by
  simp only [parts, List.forall_mem_cons, List.not_mem_nil, false_imp_iff, implies_true, and_true]
  exact ⟨(PriorityMerge.wellFormed_body h).named inner,
    (ReadyBreak.wellFormed_body h.single).named output⟩

theorem assembled_body (inner output : String) (h : Lanes size width) :
    (body inner output size width).Assembled (parts size width inner output) := by
  have hone : 1 ≤ wordBits := by decide
  have hports : (body inner output size width).ports = passThroughPorts size width := rfl
  have hdistinct := Module.distinct_of_declared (distinct_merge inner output size width)
  have happart : KeptApart ((parts size width inner output).map fun p => p.1.name)
      ["clk", "rst", "ins", "ins_valid", "ins_ready", "outs", "outs_valid", "outs_ready",
        "one_slot_break_r_data_in", "one_slot_break_r_pvalid", "one_slot_break_r_ready"] := by
    show KeptApart ["merge_ins", "one_slot_break_r"] _
    decide
  have hmerge := plugs_merge size width inner
  have hbuffer := plugs_buffer width output
  obtain ⟨hmergeWires, hbufferWires⟩ := List.forall_mem_append.mp
    fun w hw => Module.declares_of_mem (mem_signals_wires inner output w hw)
  refine ⟨⟨hdistinct, ?_, rfl, KeptApart.separate happart, ?_, ?_, ?_, ?_, ?_, ?_, ?_, ?_⟩,
    wellFormed_parts h⟩
  · rw [signals_body]
    refine List.forall_mem_append.mpr
      ⟨List.forall_mem_map.mpr (ports_le hports h), List.forall_mem_append.mpr ⟨?_, ?_⟩⟩
    · exact forall_mem_ifData.mpr fun _ => List.forall_mem_singleton.mpr h.width_le
    · simp [hone]
  · refine fun p hp name hname => KeptApart.outside happart p hp name ?_
    rw [Module.map_fst_signals, hports, names_passThroughPorts] at hname
    revert name
    by_cases hw : 0 < width
      <;> simp [ifData, hw, body, anonymous, Item.declsOf, Item.decls, decls, Decl.net]
  · -- a merge has no assigns of its own: its parts do everything
    exact fun a ha => absurd ha List.not_mem_nil
  · exact fun a ha => absurd ha List.not_mem_nil
  · simp only [parts, List.forall_mem_cons, List.not_mem_nil, false_imp_iff, implies_true, and_true]
    exact ⟨hmerge.connected hmergeWires, hbuffer.connected hbufferWires⟩
  · simp only [parts, List.forall_mem_cons, List.not_mem_nil, false_imp_iff, implies_true, and_true]
    exact ⟨hmerge.outputs hmergeWires, hbuffer.outputs hbufferWires⟩
  · simp only [parts, List.forall_mem_cons, List.not_mem_nil, false_imp_iff, implies_true, and_true,
      hmerge.connections, hbuffer.connections]
    by_cases hw : 0 < width <;> simp [mergeWires, bufferWires, ifData, hw]
  · rw [driven_body]
    refine Region.apart_of_nodup ?_ _
    by_cases hw : 0 < width <;> simp [ifData, hw]
  · intro name hname r hr
    rw [driven_body] at hr
    obtain ⟨driven, hdriven, rfl⟩ := List.mem_map.mp hr
    exact Module.input_ne_drivable hdistinct hname (drivable_body driven hdriven)

/-! ### The order in which signals settle -/

/--
The ranks of the signals of a merge: whether the slot is free, the choice, the
answer to the channels.
-/
def ownRank : String → Nat :=
  rankIn [("one_slot_break_r_ready", 2), ("one_slot_break_r_pvalid", 3),
    ("one_slot_break_r_data_in", 3), ("ins_ready", 5), ("outs", 6), ("outs_valid", 6)]

/-- The ranks inside of the parts of a merge, by the names of their instances. -/
def partRank (instanceName : String) : String → Nat :=
  rankIn <| match instanceName with
    | "merge_ins" =>
      [("clk", 1), ("rst", 1), ("ins", 1), ("ins_valid", 1), ("outs", 2), ("outs_valid", 2),
        ("outs_ready", 3), ("ins_ready", 4)]
    | _ =>
      [("clk", 1), ("rst", 1), ("outs_ready", 1), ("ins_ready", 1), ("ins", 4), ("ins_valid", 4),
        ("outs", 5), ("outs_valid", 5)]

theorem acyclic_merge : (PriorityMerge.body size width).circuit.Acyclic (partRank "merge_ins") := by
  have hvalid : ∀ n, ∀ name ∈ (Expr.any ((List.range n).map (PriorityMerge.valid size))).reads,
      partRank "merge_ins" name = 1 := by
    intro n name hname
    rw [List.mem_singleton.mp (PriorityMerge.reads_valids n name hname)]
    decide
  refine PriorityMerge.forall_assigns (fun _ name hname target htarget => ?_)
    (fun name hname target htarget => ?_) fun i _ name hname target htarget => ?_
  · have hbelow : ∀ name ∈ ["ins_valid", "ins"],
        partRank "merge_ins" name < partRank "merge_ins" "outs" := by decide
    rw [List.mem_singleton.mp htarget]
    exact hbelow name (PriorityMerge.reads_selected name hname)
  · rw [List.mem_singleton.mp htarget, hvalid size name hname]
    decide
  · have hbelow : ∀ name ∈ ["outs_ready", "ins_valid"],
        partRank "merge_ins" name < partRank "merge_ins" "ins_ready" := by decide
    rw [Expr.reads_select] at htarget
    rw [List.mem_singleton.mp htarget]
    exact hbelow name (PriorityMerge.reads_ready i name hname)

theorem acyclic_buffer : (ReadyBreak.body width).circuit.Acyclic (partRank "one_slot_break_r") := by
  have hall : ∀ a ∈ (ReadyBreak.body 1).circuit.assigns,
      a.Ascends (partRank "one_slot_break_r") := by
    unfold Assign.Ascends
    decide
  intro a ha
  -- the width of the payload does not stand in the assigns
  refine hall a ?_
  rw [ReadyBreak.assigns_body] at ha ⊢
  rcases List.mem_append.mp ha with ha | ha
  · exact List.mem_append_left _ ha
  · exact List.mem_append_right _ (mem_ifData ha)

theorem ranked_body (h : Lanes size width) :
    (body inner output size width).Ranked (parts size width inner output) ownRank fun p =>
      partRank p.1.name where
  assigns a ha := absurd ha List.not_mem_nil
  within := by
    simp only [parts, List.forall_mem_cons, List.not_mem_nil, false_imp_iff, implies_true, and_true]
    exact ⟨acyclic_merge, acyclic_buffer⟩
  connections := by
    simp only [parts, List.forall_mem_cons, List.not_mem_nil, false_imp_iff, implies_true, and_true]
    refine ⟨(plugs_merge size width inner).ranked (PriorityMerge.wellFormed_body h).distinct ?_,
      (plugs_buffer width output).ranked (ReadyBreak.wellFormed_body h.single).distinct ?_⟩
    · show ∀ w ∈ mergeWires size width,
        if w.1.direction = .output then partRank "merge_ins" w.1.name < ownRank w.2
        else ownRank w.2 < partRank "merge_ins" w.1.name
      by_cases hw : 0 < width <;> simp +decide [-Prod.forall, mergeWires, ifData, hw]
    · show ∀ w ∈ bufferWires width,
        if w.1.direction = .output then partRank "one_slot_break_r" w.1.name < ownRank w.2
        else ownRank w.2 < partRank "one_slot_break_r" w.1.name
      by_cases hw : 0 < width <;> simp +decide [-Prod.forall, bufferWires, ifData, hw]

/-! ### What is handed over -/

/-- A token is handed over at a channel: it is valid, and the merge is ready for it. -/
def handedOver (x : State) (c : Nat) : Bool :=
  (x "ins_valid").getLsbD c && (x "ins_ready").getLsbD c

/-- The token that enters in a cycle, given what a token at a channel is. -/
def accepted {τ : Type} (size : Nat) (token : State → Nat → τ) (x : State) : Option τ :=
  ((List.range size).find? (handedOver x)).map (token x)

/-- The token that leaves in a cycle. -/
def delivered {τ : Type} (token : State → τ) (x : State) : Option τ :=
  if transfers "outs" x then some (token x) else none

/--
A run of a merge: a token is handed over at one channel at a time, a valid
channel makes the output valid, and since the last reset the tokens that left
are the first of those that entered.
-/
structure Merges {τ : Type} (size : Nat) (entering : State → Nat → τ) (leaving : State → τ)
    (states : List State) :
    Prop where
  one_at_a_time : ∀ x ∈ states, ∀ c < size, ∀ d < size, handedOver x c = true →
    handedOver x d = true → c = d
  offered : ∀ x ∈ states, ∀ c < size, (x "ins_valid").getLsbD c = true → high x "outs_valid" = true
  conveys : Conveys (Pipeline.sinceReset (high · "rst") states) 1 (accepted size entering)
    (delivered leaving)

/--
Seen through another state with the same handshakes, and with other tokens made
of its tokens, a merge remains one.
-/
theorem Merges.of_view {τ υ : Type} {size : Nat} {entering : State → Nat → τ} {leaving : State → τ}
    {entering' : State → Nat → υ} {leaving' : State → υ} {view : State → State} {f : τ → υ}
    {states : List State} (h : Merges size entering leaving (states.map view))
    (hsame : ∀ x ∈ states, ∀ name ∈ ["rst", "ins_valid", "ins_ready", "outs_valid", "outs_ready"],
      view x name = x name)
    (hentering : ∀ x ∈ states, ∀ c < size, entering' x c = f (entering (view x) c))
    (hleaving : ∀ x ∈ states, leaving' x = f (leaving (view x))) :
    Merges size entering' leaving' states := by
  have htaken : ∀ x ∈ states, handedOver (view x) = handedOver x := by
    intro x hx
    funext c
    rw [handedOver, handedOver, hsame x hx _ (by simp), hsame x hx _ (by simp)]
  refine ⟨fun x hx => ?_, fun x hx => ?_, ?_⟩
  · rw [← htaken x hx]
    exact h.one_at_a_time _ (List.mem_map_of_mem hx)
  · have hvalid := h.offered _ (List.mem_map_of_mem hx)
    rwa [high, hsame x hx _ (by simp), hsame x hx _ (by simp)] at hvalid
  · -- which channel was accepted depends on the handshakes alone, so only tokens change
    have hreset : Pipeline.sinceReset (high · "rst") states =
        Pipeline.sinceReset (fun x => high (view x) "rst") states :=
      Pipeline.sinceReset_congr fun x hx => by rw [high, high, hsame x hx _ (by simp)]
    have hconveys := h.conveys
    rw [Pipeline.sinceReset_map] at hconveys
    rw [hreset]
    refine hconveys.of_view (f := f) (fun x hx => ?_) fun x hx => ?_
    · have hx := Pipeline.mem_of_mem_sinceReset hx
      unfold accepted
      rw [htaken x hx, Option.map_map]
      refine Option.map_congr fun c hc => hentering x hx c ?_
      exact List.mem_range.mp (List.mem_of_find?_eq_some hc)
    · have hx := Pipeline.mem_of_mem_sinceReset hx
      have htransfers : transfers "outs" (view x) = transfers "outs" x := by
        unfold transfers high
        rw [hsame x hx _ (by simp), hsame x hx _ (by simp)]
      unfold delivered
      rw [htransfers, hleaving x hx]
      split <;> rfl

/-! ### A merge is a slot -/

/-- A merge as a slot: it is offered the payload of the lowest valid channel. -/
def slot (size width : Nat) : Slot State Word where
  reset x := high x "rst"
  offered x := ((x "ins_valid").lowest size).map ((x "ins").channel width)
  ready x := high x "outs_ready"
  held x := if high x "one_slot_break_r__full" then some
    ((x "one_slot_break_r__data_reg").low width) else none

theorem held_slot (x : State) :
    (slot size width).held x =
      if high x "one_slot_break_r__full" then some ((x "one_slot_break_r__data_reg").low width)
      else none :=
  rfl

section

variable {flat : Module} {x y : State} (h : Lanes size width)
  (hf : Flattens (body inner output size width) (parts size width inner output) flat)
include h hf

/-- What is at the ports of the merge without a buffer. -/
theorem merge_wires (hx : flat.circuit.Settled x) (hfits : flat.circuit.widths.Fits x) :
    let port := x ∘ (mergePart size width inner).rename
    port "ins_valid" = x "ins_valid" ∧ port "ins_ready" = x "ins_ready" ∧
      port "outs_valid" = x "one_slot_break_r_pvalid" ∧
      port "outs_ready" = x "one_slot_break_r_ready" ∧
      (0 < width → port "ins" = x "ins" ∧ port "outs" = x "one_slot_break_r_data_in") := by
  have hwires : ∀ w ∈ mergeWires size width,
      (x ∘ (mergePart size width inner).rename) w.1.name = x w.2 := fun w hw =>
    (plugs_merge size width inner).wire_eq hf (assembled_body inner output h) hx hfits
      (by simp [parts]) hw
      (mem_signals_wires inner output w (List.mem_append_left _ hw))
  unfold mergeWires at hwires
  simp only [List.forall_mem_append, List.forall_mem_cons, List.not_mem_nil, false_imp_iff,
    implies_true, and_true, forall_mem_ifData] at hwires
  obtain ⟨⟨⟨-, hins⟩, hvalid, hready, houtsValid, houtsReady⟩, houts⟩ := hwires
  exact ⟨hvalid, hready, houtsValid, houtsReady, fun hw => ⟨hins hw, houts hw⟩⟩

/-- What is at the ports of the slot. -/
theorem buffer_wires (hx : flat.circuit.Settled x) (hfits : flat.circuit.widths.Fits x) :
    let port := x ∘ (bufferPart width output).rename
    port "rst" = x "rst" ∧ port "ins_valid" = x "one_slot_break_r_pvalid" ∧
      port "ins_ready" = x "one_slot_break_r_ready" ∧ port "outs_valid" = x "outs_valid" ∧
      port "outs_ready" = x "outs_ready" ∧
      (0 < width → port "ins" = x "one_slot_break_r_data_in" ∧ port "outs" = x "outs") := by
  have hwires : ∀ w ∈ bufferWires width,
      (x ∘ (bufferPart width output).rename) w.1.name = x w.2 := fun w hw =>
    (plugs_buffer width output).wire_eq hf (assembled_body inner output h) hx hfits
      (by simp [parts]) hw
      (mem_signals_wires inner output w (List.mem_append_right _ hw))
  unfold bufferWires at hwires
  simp only [List.forall_mem_append, List.forall_mem_cons, List.not_mem_nil, false_imp_iff,
    implies_true, and_true, forall_mem_ifData] at hwires
  obtain ⟨⟨⟨⟨-, hrst⟩, hins⟩, hvalid, hready, houtsValid, houtsReady⟩, houts⟩ := hwires
  exact ⟨hrst, hvalid, hready, houtsValid, houtsReady, fun hw => ⟨hins hw, houts hw⟩⟩

/-- What the merge without a buffer makes of the channels, given whether the slot is free. -/
theorem settled_merge (hx : flat.circuit.Settled x) (hfits : flat.circuit.widths.Fits x) :
    high x "one_slot_break_r_pvalid" = ((x "ins_valid").lowest size).isSome ∧
      (∀ c < size, (x "ins_ready").getLsbD c =
        (high x "one_slot_break_r_ready" && ((x "ins_valid").lowest c).isNone)) ∧
      ∀ c, (x "ins_valid").lowest size = some c →
        (x "one_slot_break_r_data_in").low width = (x "ins").channel width c := by
  have hm := assembled_body inner output h
  have hmem : mergePart size width inner ∈ parts size width inner output := by simp [parts]
  obtain ⟨hvalid, hready, houtsValid, houtsReady, hpayloads⟩ := merge_wires h hf hx hfits
  have hsettled :=
    PriorityMerge.settled_body h (hf.fits_part hm hmem hfits) (hf.settled_part hm hmem hx)
  simp only [high, hvalid, hready, houtsValid, houtsReady] at hsettled
  refine ⟨hsettled.1, hsettled.2.1, fun c hc => Word.low_congr fun hw => ?_⟩
  have hpayload := hsettled.2.2 hw c hc
  rw [(hpayloads hw).1, (hpayloads hw).2] at hpayload
  rw [hpayload, Word.channel, Word.low_low]

/-- What the slot makes of the choice. -/
theorem settled_buffer (hx : flat.circuit.Settled x) (hfits : flat.circuit.widths.Fits x) :
    high x "one_slot_break_r_ready" = !high x "one_slot_break_r__full" ∧
      high x "outs_valid" = (high x "one_slot_break_r_pvalid" || high x "one_slot_break_r__full") ∧
      (x "outs").low width =
        (if high x "one_slot_break_r__full" then x "one_slot_break_r__data_reg"
          else x "one_slot_break_r_data_in").low width := by
  have hm := assembled_body inner output h
  have hmem : bufferPart width output ∈ parts size width inner output := by simp [parts]
  obtain ⟨-, hvalid, hready, houtsValid, -, hpayloads⟩ := buffer_wires h hf hx hfits
  have hsettled :=
    ReadyBreak.settled_body h.single (hf.fits_part hm hmem hfits) (hf.settled_part hm hmem hx)
  simp only [high, hvalid, hready, houtsValid] at hsettled
  refine ⟨hsettled.1, hsettled.2.1, Word.low_congr fun hw => ?_⟩
  have hpayload := hsettled.2.2 hw
  rw [(hpayloads hw).1, (hpayloads hw).2] at hpayload
  exact congrArg (Word.low · width) hpayload

/-- The output shows what the slot is to show. -/
theorem shown_eq (hx : flat.circuit.Settled x) (hfits : flat.circuit.widths.Fits x) :
    (slot size width).shown x =
      if high x "outs_valid" then some ((x "outs").low width) else none := by
  obtain ⟨hchosen, -, hpayload⟩ := settled_merge h hf hx hfits
  obtain ⟨-, hvalid, houts⟩ := settled_buffer h hf hx hfits
  unfold Slot.shown slot
  dsimp only
  rw [hvalid, hchosen, houts]
  cases high x "one_slot_break_r__full" with
  | true => simp
  | false =>
      cases hlowest : (x "ins_valid").lowest size with
      | none => simp
      | some c => simp [hpayload c hlowest]

/-- A step of the circuit is a step of the slot. -/
theorem steps (hxy : flat.circuit.Step x y) : (slot size width).Steps x y := by
  have hm := assembled_body inner output h
  have hmem : bufferPart width output ∈ parts size width inner output := by simp [parts]
  have hstep := hf.step_part hm hmem hxy
  obtain ⟨hrst, -, -, hvalid, hready, hpayloads⟩ := buffer_wires h hf hxy.settled hxy.fits
  have hfull : high y "one_slot_break_r__full" =
      if high x "rst" then false else high x "outs_valid" && !high x "outs_ready" := by
    have hnext := ReadyBreak.next_full h.single hstep.fits
    simp only [high, hrst, hvalid, hready] at hnext
    exact (congrArg (BitVec.getLsbD · 0)
      (hstep.registers _ (ReadyBreak.mem_registers_full width))).trans hnext
  have hdata : (y "one_slot_break_r__data_reg").low width = (x "outs").low width := by
    refine Word.low_congr fun hw => ?_
    obtain ⟨hregister, hnext⟩ := ReadyBreak.next_data h.single hstep.fits hstep.settled hw
    rw [(hpayloads hw).2] at hnext
    exact congrArg (Word.low · width) ((hstep.registers _ hregister).trans hnext)
  have hreset : (slot size width).reset x = high x "rst" := rfl
  have htakes : (slot size width).ready x = high x "outs_ready" := rfl
  rw [Slot.Steps, Slot.kept, shown_eq h hf hxy.settled hxy.fits, held_slot, hreset, htakes,
    hfull, hdata]
  cases high x "rst" <;> cases high x "outs_valid" <;> cases high x "outs_ready" <;> simp

/-- The channel at which a token is handed over is the lowest valid one, while the slot is empty. -/
theorem taken_eq (hx : flat.circuit.Settled x) (hfits : flat.circuit.widths.Fits x) :
    (List.range size).find? (handedOver x) =
      if high x "one_slot_break_r__full" then none else (x "ins_valid").lowest size := by
  obtain ⟨-, hready, -⟩ := settled_merge h hf hx hfits
  obtain ⟨hfree, -, -⟩ := settled_buffer h hf hx hfits
  rw [hfree] at hready
  cases hfull : high x "one_slot_break_r__full" with
  | true =>
      refine List.find?_eq_none.mpr fun c hc => ?_
      rw [handedOver, hready c (List.mem_range.mp hc), hfull]
      simp
  | false =>
      rw [if_neg Bool.false_ne_true, ← Word.find_unpreceded]
      refine List.find?_congr fun c hc => ?_
      rw [handedOver, hready c (List.mem_range.mp hc), hfull, Bool.not_false, Bool.true_and]

theorem accepted_eq (hx : flat.circuit.Settled x) (hfits : flat.circuit.widths.Fits x) :
    accepted size (fun x c => (x "ins").channel width c) x = (slot size width).accepted x := by
  have hoffered : (slot size width).offered x =
      ((x "ins_valid").lowest size).map ((x "ins").channel width) := rfl
  rw [accepted, taken_eq h hf hx hfits, Slot.accepted, held_slot, hoffered]
  cases high x "one_slot_break_r__full" <;> rfl

theorem delivered_eq (hx : flat.circuit.Settled x) (hfits : flat.circuit.widths.Fits x) :
    delivered (fun x => (x "outs").low width) x = (slot size width).delivered x := by
  have htakes : (slot size width).ready x = high x "outs_ready" := rfl
  have htransfers : transfers "outs" x = (high x "outs_valid" && high x "outs_ready") := rfl
  rw [delivered, Slot.delivered, shown_eq h hf hx hfits, htakes, htransfers]
  cases high x "outs_valid" <;> cases high x "outs_ready" <;> rfl

/-- **A merge without extra signals hands payloads on in their order.** -/
theorem merges {states : List State} (hb : flat.circuit.Behaves (fun _ => 0) states) :
    Merges size (fun x c => (x "ins").channel width c) (fun x => (x "outs").low width) states := by
  have hm := assembled_body inner output h
  have hmem : bufferPart width output ∈ parts size width inner output := by simp [parts]
  refine ⟨?_, ?_, ?_⟩
  · intro x hx c hc d hd hcTaken hdTaken
    obtain ⟨-, hready, -⟩ := settled_merge h hf (hb.settled x hx) (hb.fits x hx)
    -- a channel that is served has no valid channel below it
    have hunpreceded : ∀ c < size, handedOver x c = true →
        (x "ins_valid").getLsbD c = true ∧ ∀ d < c, (x "ins_valid").getLsbD d = false := by
      intro c hc htaken
      rw [handedOver, hready c hc, Bool.and_eq_true, Bool.and_eq_true,
        Option.isNone_iff_eq_none] at htaken
      exact ⟨htaken.1, Word.lowest_eq_none.mp htaken.2.2⟩
    obtain ⟨hcValid, hcFirst⟩ := hunpreceded c hc hcTaken
    obtain ⟨hdValid, hdFirst⟩ := hunpreceded d hd hdTaken
    rcases Nat.lt_trichotomy c d with hlt | heq | hlt
    · exact absurd hcValid (by simp [hdFirst c hlt])
    · exact heq
    · exact absurd hdValid (by simp [hcFirst d hlt])
  · intro x hx c hc hvalid
    obtain ⟨hchosen, -, -⟩ := settled_merge h hf (hb.settled x hx) (hb.fits x hx)
    obtain ⟨-, houts, -⟩ := settled_buffer h hf (hb.settled x hx) (hb.fits x hx)
    have hsome : ((x "ins_valid").lowest size).isSome = true :=
      List.find?_isSome.mpr ⟨c, List.mem_range.mpr hc, hvalid⟩
    rw [houts, hchosen, hsome, Bool.true_or]
  · have hsteps := hb.isChain_step.imp fun x y hxy => steps h hf hxy
    have hstart : ∀ x ∈ states.head?, (slot size width).held x = none := by
      intro x hx
      have hregister := (hf.includes hm hmem).mem_registers (ReadyBreak.mem_registers_full width)
      exact if_neg (Bool.eq_false_iff.mp (hb.low_start hx hregister))
    refine (Slot.conveys hsteps hstart).congr (fun x hx => ?_) fun x hx => ?_
    · have hx := Pipeline.mem_of_mem_sinceReset hx
      exact accepted_eq h hf (hb.settled x hx) (hb.fits x hx)
    · have hx := Pipeline.mem_of_mem_sinceReset hx
      exact delivered_eq h hf (hb.settled x hx) (hb.fits x hx)

end

/-! ### Generated merges -/

/-- The channels of a merge fit into words if its declared widths do. -/
theorem lanes_of_blocks {id : Identity} {a : Artifact} {size width : Nat}
    (ha : generate size id width = .ok a) (hpos : 0 < size)
    (hbounded : ∀ b ∈ a.blocks, ∀ s ∈ b.content.signals, s.2 ≤ wordBits) : Lanes size width := by
  obtain ⟨hblocks, -⟩ := generate_ok ha
  have hports :
      ({ body (derived id.text [.inner]) (derived id.text [.oneSlotBreakR]) size width with
      name := id.text } : Module).ports = passThroughPorts size width := rfl
  have hwidths :=
    hbounded ⟨{ body (derived id.text [.inner]) (derived id.text [.oneSlotBreakR]) size width with
    name := id.text }, 0⟩ (by simp [hblocks])
  refine ⟨hpos, hwidths ("ins_valid", size) (mem_signals_handshake hports).2.1, ?_⟩
  by_cases hw : 0 < width
  · exact hwidths ("ins", size * width) (mem_signals_payload hports hw).1
  · obtain rfl : width = 0 := by omega
    exact Nat.zero_le _

/-- A generated merge without extra signals can be flattened. -/
theorem generate_flat {id : Identity} {a : Artifact} {size width : Nat}
    (ha : generate size id width = .ok a) :
    ∃ inner output flat, a.flatten = .ok flat ∧
      Flattens (body inner output size width) (parts size width inner output) flat := by
  obtain ⟨hblocks, hunit⟩ := generate_ok ha
  generalize derived id.text [.inner] = inner, derived id.text [.oneSlotBreakR] = output at hblocks
  have hsplit : a.blocks =
      [⟨(mergePart size width inner).2, 0⟩, ⟨(bufferPart width output).2, 0⟩] ++
      [⟨{ body inner output size width with name := id.text }, 0⟩] := hblocks
  have hinstances : Item.instancesOf (body inner output size width).items =
      (parts size width inner output).map Prod.fst ++ [] := rfl
  have hlisted : ∀ p ∈ parts size width inner output, p.2 ∈
      [(mergePart size width inner).2, (bufferPart width output).2] := by
    simp [parts]
  have hleaves : ∀ p ∈ parts size width inner output, p.1.moduleName = p.2.name ∧
      Item.instancesOf p.2.items = [] := by
    simp only [parts, List.forall_mem_cons, List.not_mem_nil, false_imp_iff, implies_true, and_true]
    exact ⟨⟨rfl, instancesOf_priorityMerge size width⟩, rfl, instancesOf_readyBreak width⟩
  have hports : ∀ p ∈ parts size width inner output, ∀ c ∈ p.1.connections,
      (p.2.port? c.1).isSome = true := by
    simp only [parts, List.forall_mem_cons, List.not_mem_nil, false_imp_iff, implies_true, and_true]
    exact ⟨(plugs_merge size width inner).isSome_port, (plugs_buffer width output).isSome_port⟩
  obtain ⟨flat, hflatten, hflattens⟩ :=
    hunit.wellFormed.flatten_leaves hsplit hinstances hlisted hleaves hports (by simp)
  exact ⟨inner, output, flat, hflatten,
    ⟨hflattens.ports, hflattens.signals, hflattens.assigns, hflattens.processes⟩⟩

end Merge

end Handshake
