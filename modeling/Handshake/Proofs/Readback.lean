import Handshake.Proofs.Behaviour
import Handshake.Proofs.Packing
import Handshake.Proofs.Quiescence
import Handshake.Proofs.Solutions

/-!
# What was written is read back

The same expression can be a target and a value. As a target, a concatenation is
written from its last part up, each part taking what it has room for off the low
end of what is left of the value. As a value, it is read from its first part
down, and what was read is moved up to make room for the next part. In between
stand the bits of the signals, spread over the regions of the target (`Spread`).
`value_of_spread` reads them off the regions, as `write_spread` has put them
there, so the two orders meet.
-/

namespace Handshake

namespace Word

theorem up_up (w : Word) (m n : Nat) : (w.up m).up n = w.up (m + n) := by
  refine BitVec.eq_of_getLsbD_eq fun i hi => ?_
  simp only [getLsbD_up, hi, decide_true, Bool.true_and]
  by_cases hn : n ≤ i
  · have hbelow : i - n < wordBits := by omega
    have hsub : i - n - m = i - (m + n) := by omega
    have hiff : m ≤ i - n ↔ m + n ≤ i := by omega
    simp [hn, hbelow, hsub, hiff]
  · have hout : ¬ m + n ≤ i := by omega
    simp [hn, hout]

theorem or_up (v w : Word) (n : Nat) : (v ||| w).up n = v.up n ||| w.up n := by
  refine BitVec.eq_of_getLsbD_eq fun i _ => ?_
  simp only [getLsbD_up, BitVec.getLsbD_or, Bool.and_or_distrib_left]

theorem zero_up_or (w : Word) (n : Nat) : (0 : Word).up n ||| w = w := by
  refine BitVec.eq_of_getLsbD_eq fun i _ => ?_
  have hzero : (0 : Word).getLsbD (i - n) = false := BitVec.getLsbD_zero
  rw [BitVec.getLsbD_or, getLsbD_up, hzero, Bool.and_false, Bool.false_or]

/-- Some bits of a word, put together from the lowest of them and those above. -/
theorem up_low_or_low (w : Word) (m n : Nat) :
    ((w.down n).low m).up n ||| w.low n = w.low (m + n) := by
  refine BitVec.eq_of_getLsbD_eq fun i hi => ?_
  simp only [BitVec.getLsbD_or, getLsbD_up, getLsbD_low, getLsbD_down, hi, decide_true,
    Bool.true_and]
  by_cases hn : n ≤ i
  · have hbit : n + (i - n) = i := by omega
    have hiff : i - n < m ↔ i < m + n := by omega
    have hout : ¬ i < n := by omega
    simp [hn, hbit, hiff, hout]
  · have hlow : i < n := by omega
    have hin : i < m + n := by omega
    simp [hn, hlow, hin]

end Word

namespace Expr

variable {widths : Widths} {state : State} {value : Word} {offset : Nat}

/-- The bits of a region that holds a part of a value. -/
theorem field_of_spread {name : String} {lo length : Nat}
    (h : Spread state value offset [⟨name, lo, length⟩]) :
    ((state name).down lo).low length = (value.down offset).low length := by
  refine BitVec.eq_of_getLsbD_eq fun i _ => ?_
  rw [Word.getLsbD_low, Word.getLsbD_low, Word.getLsbD_down, Word.getLsbD_down]
  by_cases hi : i < length
  · rw [h.1 i hi]
  · simp [hi]

mutual
/-- A target over which a value is spread is worth that value, as far as the target goes. -/
theorem value_of_spread (hfits : ∀ name, (state name).low (widths.width name) = state name)
    {offset : Nat} :
    ∀ {e : Expr}, e.IsTarget widths → Spread state value offset (e.regions widths.width) →
    e.value widths.width state = (value.down offset).low (e.size widths.width)
  | .ident name, _, h => by
      have hfield := field_of_spread h
      rw [Word.down_zero, hfits name] at hfield
      exact hfield
  | .index name position, _, h => field_of_spread h
  | .slice name base length, _, h => field_of_spread h
  | .concat parts, hparts, h => by
      have hall := valueAll_of_spread hfits (show IsTargetAll widths parts from hparts) h 0
      rw [Word.zero_up_or] at hall
      exact hall
theorem valueAll_of_spread (hfits : ∀ name, (state name).low (widths.width name) = state name)
    {offset : Nat} :
    ∀ {parts : List Expr}, IsTargetAll widths parts →
    Spread state value offset (regionsAll widths.width parts) →
    ∀ above : Word, valueAll widths.width state above parts =
      above.up (sizeAll widths.width parts) ||| (value.down offset).low (sizeAll widths.width parts)
  | [], _, _, above => by
      refine BitVec.eq_of_getLsbD_eq fun i hi => ?_
      rw [valueAll, sizeAll, BitVec.getLsbD_or, Word.getLsbD_up, Word.getLsbD_low]
      simp [hi]
  | part :: rest, ⟨hpart, _, hrest⟩, h, above => by
      -- the regions of the first part come last, since it is the most significant one
      obtain ⟨hlater, hfirst⟩ := Spread.append.mp h
      rw [total_regionsAll hrest] at hfirst
      have hvalue := value_of_spread hfits hpart hfirst
      rw [← Word.down_down] at hvalue
      rw [valueAll, valueAll_of_spread hfits hrest hlater, hvalue, Word.or_up, Word.up_up,
        BitVec.or_assoc, Word.up_low_or_low, sizeAll]
end

/-! ## Targets by their regions -/

/--
Declared signals, selects of them at literal positions that they have, and
concatenations of these, to any depth. No bit occurs twice, and a concatenation
is narrower than a word.
-/
structure Assignable (widths : Widths) (e : Expr) : Prop where
  declared : ∀ name ∈ e.reads, widths.Declares name
  inRange : e.InRange widths.width
  /--
  All parts start within a word. Where no signal is wider than a word, this only
  excludes an empty select right behind the last bit of a signal of 128 bits: a
  select of at least one bit starts below the width of its signal.
  -/
  reach : ∀ r ∈ e.regions widths.width, r.lo < wordBits
  disjoint : (e.regions widths.width).Pairwise Region.Disjoint
  narrow : ∀ parts, e = .concat parts → e.size widths.width < wordBits

mutual
theorem InRange.isTarget :
    ∀ {e : Expr}, e.InRange widths.width → (∀ name ∈ e.reads, widths.Declares name) →
    (∀ r ∈ e.regions widths.width, r.lo < wordBits) →
    (∀ parts, e = .concat parts → e.size widths.width < wordBits) → e.IsTarget widths
  | .ident name, _, hdeclared, _, _ => hdeclared name List.mem_cons_self
  | .index name _, ⟨hlit, hfit⟩, hdeclared, hreach, _ =>
      ⟨hdeclared name List.mem_cons_self, hlit, hreach _ List.mem_cons_self, hfit⟩
  | .slice name _ _, ⟨hbase, hlength, hfit⟩, hdeclared, hreach, _ =>
      ⟨hdeclared name List.mem_cons_self, hbase, hlength, hreach _ List.mem_cons_self, hfit⟩
  | .concat parts, h, hdeclared, hreach, hnarrow =>
      InRangeAll.isTarget (show InRangeAll widths.width parts from h) hdeclared hreach
        (hnarrow parts rfl)
theorem InRangeAll.isTarget : ∀ {parts : List Expr}, InRangeAll widths.width parts →
    (∀ name ∈ readsAll parts, widths.Declares name) →
    (∀ r ∈ regionsAll widths.width parts, r.lo < wordBits) →
    sizeAll widths.width parts < wordBits → IsTargetAll widths parts
  | [], _, _, _, _ => trivial
  | part :: rest, ⟨hpart, hrest⟩, hdeclared, hreach, hnarrow => by
      have hsize : part.size widths.width + sizeAll widths.width rest < wordBits := hnarrow
      refine ⟨hpart.isTarget ?_ ?_ fun _ _ => by omega, by omega, hrest.isTarget ?_ ?_ (by omega)⟩
      · exact fun name hname => hdeclared name (List.mem_append_left _ hname)
      · exact fun r hr => hreach r (List.mem_append_right _ hr)
      · exact fun name hname => hdeclared name (List.mem_append_right _ hname)
      · exact fun r hr => hreach r (List.mem_append_left _ hr)
end

theorem Assignable.isTarget {e : Expr} (h : e.Assignable widths) : e.IsTarget widths :=
  h.inRange.isTarget h.declared h.reach h.narrow

/-- Writing to a target succeeds. It can be read back, and no other bit has changed. -/
theorem Assignable.write_eval {e : Expr} (h : e.Assignable widths)
    (hbound : ∀ name, widths.width name ≤ wordBits) {v : Valuation} (hv : v.Tidy widths)
    (value : Word) :
    ∃ w, e.write widths v value = .ok w ∧
      e.eval widths w = .ok ⟨value.low (e.size widths.width), e.size widths.width⟩ ∧
      ∀ name i, (∀ r ∈ e.regions widths.width, ¬ r.Covers name i) →
        (w.get name).getLsbD i = (v.get name).getLsbD i := by
  obtain ⟨w, hw, hwrites⟩ := write_ok hv value h.isTarget fun name _ => hbound name
  have hspread := write_spread hv hbound h.inRange hw h.disjoint
  refine ⟨w, hw, ?_, hwrites.frame⟩
  rw [eval_eq w h.isTarget.typed, value_of_spread hwrites.tidy.fits h.isTarget hspread,
    Word.down_zero]

end Expr

/--
**What is written to a target is read back from it,** cut to the target's width,
and every bit that the target does not cover is as it was, in every state that a
simulator may be in.
-/
theorem written_reads_back {m : Module} (hbound : ∀ name, m.circuit.widths.width name ≤ wordBits)
    {s : Simulator} (hs : Simulator.Reaches m s) {e : Expr} (he : e.Assignable m.circuit.widths)
    (value : Word) :
    ∃ w, e.write m.circuit.widths s.values value = .ok w ∧
      e.eval m.circuit.widths w =
        .ok ⟨.ofNat wordBits (value.toNat % 2 ^ e.size m.circuit.widths.width),
          e.size m.circuit.widths.width⟩ ∧
      ∀ name i, (∀ r ∈ e.regions m.circuit.widths.width, ¬ r.Covers name i) →
        (w.get name).getLsbD i = (s.get name).getLsbD i := by
  obtain ⟨w, hwrite, heval, hframe⟩ := he.write_eval hbound hs.tidy.2 value
  rw [Word.low_eq_ofNat] at heval
  exact ⟨w, hwrite, heval, hframe⟩

/--
A whole signal, three bits in the middle of another one, and single bits at the
end of that and of a third, in a concatenation inside a concatenation. The value
has more bits than they have.
-/
theorem written_reads_back_nested :
    let m : Module := ⟨"u", [.input 4 "a", .input 2 "b", .input 8 "x"], []⟩
    let e : Expr :=
      .concat [.ident "a", .concat [.slice "x" (.decimal 2) (.decimal 3), .index "b" (.decimal 1)],
      .index "x" (.decimal 0)]
    ∃ s w, Simulator.Reaches m s ∧ s.get "x" = 255 ∧ e.Assignable m.circuit.widths ∧
      e.write m.circuit.widths s.values 932 = .ok w ∧ e.eval m.circuit.widths w = .ok ⟨420, 9⟩ ∧
      (w.get "x").getLsbD 7 = true ∧ w.get "x" = 230 := by
  intro m e
  have hrun : ∃ s ∈ ((Simulator.start m).set "x" 511).toOption, s.get "x" = 255 ∧
      ∃ w ∈ (e.write m.circuit.widths s.values 932).toOption, w.get "x" = 230 := by
    decide +kernel
  obtain ⟨s, hs, hvalue, w, hw, hx⟩ := hrun
  have hreaches : Simulator.Reaches m s := .set .start (eq_ok_of_mem_toOption hs)
  have hdeclared : ∀ name ∈ e.reads, (m.circuit.widths.entries.lookup name).isSome = true := by
    decide +kernel
  have hinRange : e.InRange m.circuit.widths.width :=
    ⟨trivial, ⟨⟨rfl, rfl, by decide +kernel⟩, ⟨rfl, by decide +kernel⟩, trivial⟩,
      ⟨rfl, by decide +kernel⟩, trivial⟩
  have hapart : (e.regions m.circuit.widths.width).Pairwise Region.Apart := by decide +kernel
  have hassignable : e.Assignable m.circuit.widths :=
    ⟨hdeclared, hinRange, by decide +kernel, hapart.imp Region.Apart.disjoint,
      fun _ _ => by decide +kernel⟩
  have hbound : ∀ name, m.circuit.widths.width name ≤ wordBits :=
    Module.width_le (by decide) (by decide)
  obtain ⟨w', hw', heval, hframe⟩ := written_reads_back hbound hreaches hassignable 932
  obtain rfl : w' = w := Except.ok.inj (hw'.symm.trans (eq_ok_of_mem_toOption hw))
  have hbits : (⟨.ofNat wordBits ((932 : Word).toNat % 2 ^ e.size m.circuit.widths.width),
      e.size m.circuit.widths.width⟩ : Bits) = ⟨420, 9⟩ := by
    decide +kernel
  have hout : ∀ r ∈ e.regions m.circuit.widths.width,
      ¬ (r.name = "x" ∧ r.lo ≤ 7 ∧ 7 < r.lo + r.length) := by
    decide +kernel
  refine ⟨s, w', hreaches, hvalue, hassignable, hw', heval.trans (congrArg Except.ok hbits), ?_, hx⟩
  rw [hframe "x" 7 hout, hvalue]
  rfl

end Handshake
