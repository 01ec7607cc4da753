import Handshake.Proofs.Simulability

/-!
# Merges neither lose, duplicate, reorder nor mix tokens

A generated merge, with or without extra signals, can be simulated on any
inputs. In every cycle it takes a token from at most one channel; and the tokens
that left since the last reset, each as the tuple of its fields, are the first
of those that entered.

What was shown of a merge without extra signals is taken over here for both
forms. Without extra signals a token is its payload. With them it is cut out of
the bus that the merge inside takes for its payload, field by field, so fields
of different tokens cannot be mixed: they travel as one word.
-/

namespace Handshake

/-! ## Generated merges -/

namespace Merge

variable {id : Identity} {a : Artifact} {size width : Nat} {extra : ExtraSignals}

/-- The channels of a merge. -/
def channels (size width : Nat) (extra : ExtraSignals) : PortGroup :=
  ⟨"ins", width, extra, some size⟩

/-- The output of a merge. -/
def result (width : Nat) (extra : ExtraSignals) : PortGroup := ⟨"outs", width, extra, none⟩

/-- A token at a channel: the payload and the extra signals of that channel. -/
def entering (size width : Nat) (extra : ExtraSignals) (x : State) (c : Nat) : List Word :=
  (Layout.fields width extra).map fun f =>
    (x ((channels size width extra).fieldName f.1)).channel f.2 c

/-- A token at the output: the payload and the extra signals. -/
def leaving (width : Nat) (extra : ExtraSignals) (x : State) : List Word :=
  (Layout.fields width extra).map fun f => x ((result width extra).fieldName f.1)

/-- An artifact whose flattening can be simulated, and hands tokens on in their order. -/
structure Forwards (a : Artifact) (size width : Nat) (extra : ExtraSignals) (m : Module) :
    Prop where
  flatten : a.flatten = .ok m
  wellFormed : m.WellFormed
  acyclic : ∃ rank, m.circuit.Acyclic rank
  merges : ∀ states, m.circuit.Behaves (fun _ => 0) states →
    Merges size (entering size width extra) (leaving width extra) states

theorem forwards_plain (ha : generate size id width = .ok a) (hpos : 0 < size)
    (hbounded : ∀ b ∈ a.blocks, ∀ s ∈ b.content.signals, s.2 ≤ wordBits)
    (hempty : extra.signals = []) : ∃ m, Forwards a size width extra m := by
  have h := lanes_of_blocks ha hpos hbounded
  obtain ⟨inner, output, flat, hflatten, hf⟩ := generate_flat ha
  have hm := assembled_body inner output h
  obtain ⟨rank, hrank, -⟩ := hf.exists_rank hm (ranked_body h)
  refine ⟨flat, hflatten, hf.wellFormed hm, ⟨rank, hrank⟩, fun states hb => ?_⟩
  have hmerges := merges h hf hb
  rw [← List.map_id states] at hmerges
  have hports : (body inner output size width).ports = passThroughPorts size width := rfl
  refine hmerges.of_view (f := fun w => if 0 < width then [w] else []) (fun _ _ _ _ => rfl) ?_ ?_
  · intro x hx c hc
    unfold entering Layout.fields
    rw [hempty]
    by_cases hw : 0 < width <;> simp [hw, PortGroup.fieldName, channels]
  · intro x hx
    unfold leaving Layout.fields
    rw [hempty]
    by_cases hw : 0 < width
    · have hlow := hf.low_own hm (hb.fits x hx) (mem_signals_payload hports hw).2
      simp [hw, PortGroup.fieldName, result, hlow]
    · simp [hw]

theorem forwards_wrapped (hne : extra.signals ≠ [])
    (ha : Manager.concat id [channels size width extra] [result width extra] extra
      (generate size) = .ok a) (hpos : 0 < size) (hdistinct : a.Distinct)
    (hbounded : ∀ b ∈ a.blocks, ∀ s ∈ b.content.signals, s.2 ≤ wordBits) :
    ∃ m, Forwards a size width extra m := by
  obtain ⟨unit, sub, whole, hunit, hblocks, hcarries⟩ :=
    (Forwarding.merge hpos).carries hne ha hdistinct hbounded
  obtain ⟨layout, name, hencases⟩ := hcarries.encases
  -- the unit is a merge of buses
  rw [← Layout.total_of hencases.bundles.layout_of] at hunit
  have h := lanes_of_blocks hunit hpos fun b hb => hbounded b (hblocks b hb)
  obtain ⟨inner, output, flat, hflatten, hf⟩ := generate_flat hunit
  obtain rfl : sub = flat := Except.ok.inj (hcarries.simulates_unit.flatten.symm.trans hflatten)
  obtain ⟨hwhole, hwf, hacyclic⟩ := hcarries.simulates
  refine ⟨whole, hwhole, hwf, hacyclic, fun states hb => ?_⟩
  have hins : channels size width extra ∈
      [channels size width extra] ++ [result width extra] := by simp
  have houts : result width extra ∈ [channels size width extra] ++ [result width extra] := by simp
  have hmerges :=
    merges h hf (hencases.flattens.restrict hencases.assembled (List.mem_singleton_self _) hb)
  refine hmerges.of_view
    (f := fun w => layout.slices.map fun s => (w.down s.lo).low s.width) ?_ ?_ ?_
  · intro x hx
    have hreset := hencases.reset_eq (hb.settled x hx) (hb.fits x hx)
    obtain ⟨-, hinsValid, hinsReady⟩ := hencases.group_eq (hb.settled x hx) (hb.fits x hx) hins
    obtain ⟨-, houtsValid, houtsReady⟩ := hencases.group_eq (hb.settled x hx) (hb.fits x hx) houts
    simp only [List.forall_mem_cons, List.not_mem_nil, false_imp_iff, implies_true, and_true]
    exact ⟨hreset, hinsValid, hinsReady, houtsValid, houtsReady⟩
  · intro x hx c hc
    exact hencases.fields_eq (hb.settled x hx) (hb.fits x hx) hins hc
  · intro x hx
    exact hencases.token_eq (hb.settled x hx) (hb.fits x hx) houts rfl

end Merge

/-! ## Requests -/

/--
**A merge neither loses, duplicates, reorders nor mixes tokens.** A generated
merge in which no module declares a name twice and no signal is wider than a
word can be simulated on any inputs. In every cycle a token is handed over at
one channel at most, and a valid channel makes the output valid. The tokens that
left since the last reset, each with its payload and all its extra signals, are
the first of those that entered, in their order, and at most one has not left.
-/
theorem tokens_merged {request : Request} {a : Artifact} (hkind : request.kind = "merge")
    (ha : generate request = .ok a) (hdistinct : ∀ b ∈ a.blocks, b.content.declared.Nodup)
    (hbounded : ∀ b ∈ a.blocks, ∀ s ∈ b.content.signals, s.2 ≤ wordBits) :
    ∃ size width extra m, request.params.count .size = .ok size ∧ 0 < size ∧
      request.params.count .bitwidth = .ok width ∧ request.params.extraSignals = .ok extra ∧
      a.flatten = .ok m ∧
      ∀ cycles : List (List (String × Word)), (∀ inputs ∈ cycles, ∀ i ∈ inputs, i.1 ∈ m.inputs) →
        ∃ trace, (Simulator.start m).run cycles = .ok trace ∧ trace.length = cycles.length ∧
          Merge.Merges size (Merge.entering size width extra) (Merge.leaving width extra)
            (trace.map Simulator.get) := by
  obtain ⟨id, -, hunit⟩ := bind_ok ha
  rw [hkind] at hunit
  obtain ⟨size, hcount, hunit⟩ := bind_ok (show Merge.ofParams id request.params = .ok a from hunit)
  obtain ⟨hsize, hpos⟩ := channelCount_ok hcount
  obtain ⟨width, extra, hwidth, hextra, hvariant⟩ := passThrough_ok hunit
  have hforwards : ∃ m, Merge.Forwards a size width extra m := by
    rcases hvariant with ⟨hempty, hplain⟩ | ⟨hne, hwrapped⟩
    · exact Merge.forwards_plain hplain hpos hbounded hempty
    · exact Merge.forwards_wrapped hne hwrapped hpos hdistinct hbounded
  obtain ⟨m, h⟩ := hforwards
  obtain ⟨rank, hrank⟩ := h.acyclic
  refine ⟨size, width, extra, m, hsize, hpos, hwidth, hextra, h.flatten, fun cycles hcycles => ?_⟩
  obtain ⟨trace, hrun, hlength, hb⟩ := h.wellFormed.run_start hrank hcycles
  exact ⟨trace, hrun, hlength, h.merges _ hb⟩

/-- After a reset both channels offer a token, and the consumer comes late. -/
def contended : List (List (String × Word)) :=
  [[("rst", 1)], [("rst", 0), ("ins_valid", 3), ("ins", 42), ("ins_tag", 1)],
    [("ins_valid", 2), ("outs_ready", 1)], []]

/-- Two channels that offer tokens at once. -/
theorem tokens_merged_two_channels :
    ∃ a m trace extra, generate .twoChannels = .ok a ∧ a.flatten = .ok m ∧
      (Simulator.start m).run contended = .ok trace ∧ trace.length = 4 ∧
      Request.twoChannels.params.extraSignals = .ok extra ∧
      Merge.Merges 2 (Merge.entering 2 3 extra) (Merge.leaving 3 extra)
        (trace.map Simulator.get) := by
  have hmade : ∃ a ∈ (generate .twoChannels).toOption, (∀ b ∈ a.blocks, b.content.declared.Nodup) ∧
      (∀ b ∈ a.blocks, ∀ s ∈ b.content.signals, s.2 ≤ wordBits) ∧
      ∃ m ∈ a.flatten.toOption, ∀ inputs ∈ contended, ∀ i ∈ inputs, i.1 ∈ m.inputs := by
    decide +kernel
  have hsize : 2 ∈ (Request.twoChannels.params.count .size).toOption := by decide +kernel
  have hwidth : 3 ∈ (Request.twoChannels.params.count .bitwidth).toOption := by decide +kernel
  obtain ⟨a, ha, hdistinct, hbounded, m, hm, hinputs⟩ := hmade
  obtain ⟨size, width, extra, m', hsize', -, hwidth', hextra, hm', hruns⟩ :=
    tokens_merged rfl (eq_ok_of_mem_toOption ha) hdistinct hbounded
  obtain rfl : size = 2 := Except.ok.inj (hsize'.symm.trans (eq_ok_of_mem_toOption hsize))
  obtain rfl : width = 3 := Except.ok.inj (hwidth'.symm.trans (eq_ok_of_mem_toOption hwidth))
  obtain rfl : m' = m := Except.ok.inj (hm'.symm.trans (eq_ok_of_mem_toOption hm))
  obtain ⟨trace, hrun, hlength, hmerges⟩ := hruns contended hinputs
  exact ⟨a, m', trace, extra, eq_ok_of_mem_toOption ha, hm', hrun, hlength, hextra, hmerges⟩

end Handshake
