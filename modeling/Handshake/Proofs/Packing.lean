import Handshake.Proofs.Layouts
import Handshake.Proofs.Writing

/-!
# Values on a bus

Packing puts one value into each slice of a bus, unpacking takes the values out
again. Since every bit of the bus belongs to one slice, a bit of a packed bus is
a bit of one value (`getLsbD_fill`, `getLsbD_fill_covered`). Both round trips
follow from that bit by bit: values come back without the bits that their slices
have no room for, and a bus comes back without the bits above its width.

The slices of a layout enter in two ways only. They lie apart, so filling one
does not disturb another, whatever the order; and they leave no gap, so every
bit of the bus is in one of them.
-/

namespace Handshake

namespace Word

/-- Cutting a word is reducing its number. -/
theorem low_eq_ofNat (w : Word) (width : Nat) :
    w.low width = BitVec.ofNat wordBits (w.toNat % 2 ^ width) := by
  have hlt : w.toNat % 2 ^ width < 2 ^ wordBits := Nat.lt_of_le_of_lt (Nat.mod_le _ _) w.isLt
  refine BitVec.eq_of_toNat_eq ?_
  rw [toNat_low, BitVec.toNat_ofNat, Nat.mod_eq_of_lt hlt]

/--
Bits `lo` to `lo + length` of the low bits of a word are those of the word, if
they lie that low.
-/
theorem low_down_low (w : Word) {lo length total : Nat} (h : lo + length ≤ total) :
    ((w.low total).down lo).low length = (w.down lo).low length := by
  refine BitVec.eq_of_getLsbD_eq fun i _ => ?_
  rw [getLsbD_low, getLsbD_low, getLsbD_down, getLsbD_down, getLsbD_low]
  by_cases hi : i < length
  · have hbelow : lo + i < total := by omega
    simp [hbelow]
  · simp [hi]

/-- One channel of a signal that holds channels of `width` bits side by side. -/
def channel (w : Word) (width c : Nat) : Word := (w.down (c * width)).low width

theorem channel_zero (w : Word) (width : Nat) : w.channel width 0 = w.low width := by
  rw [channel, Nat.zero_mul, down_zero]

end Word

namespace Layout

/-! ## Filling slices -/

/-- Slots of which the slices have no bit in common, one lying below the other. -/
def SlotsApart (p q : Slice × Word) : Prop := p.1.hi ≤ q.1.lo ∨ q.1.hi ≤ p.1.lo

instance : Std.Symm SlotsApart := ⟨fun _ _ h => h.symm⟩

/-- Puts values into slices of a bus. -/
def fill (bus : Word) (slots : List (Slice × Word)) : Word :=
  slots.foldl (fun bus (s, value) => bus ||| (value.low s.width).up s.lo) bus

theorem pack_eq_fill {layout : Layout} {values : List Word} (hfits : layout.total ≤ wordBits)
    (hlength : values.length = layout.slices.length) :
    layout.pack values = some (fill 0 (layout.slices.zip values)) :=
  if_pos ⟨hfits, hlength⟩

/--
A bit of a bus is set if it was set before, or if it is set in the value of a
slice that has the bit.
-/
theorem getLsbD_fill (bus : Word) (slots : List (Slice × Word)) {i : Nat} (hi : i < wordBits) :
    (fill bus slots).getLsbD i = true ↔
      bus.getLsbD i = true ∨ ∃ slot ∈ slots, slot.1.Covers i ∧
        slot.2.getLsbD (i - slot.1.lo) = true := by
  induction slots generalizing bus with
  | nil => simp [fill]
  | cons slot rest ih =>
      obtain ⟨s, value⟩ := slot
      -- what this slot alone contributes
      have hslot : ((value.low s.width).up s.lo).getLsbD i = true ↔
          s.Covers i ∧ value.getLsbD (i - s.lo) = true := by
        rw [Word.getLsbD_up, Word.getLsbD_low, Slice.Covers, Slice.hi]
        simp only [hi, decide_true, Bool.true_and, Bool.and_eq_true, decide_eq_true_eq]
        constructor
        · rintro ⟨hlo, hbit, hwidth⟩
          exact ⟨⟨hlo, by omega⟩, hbit⟩
        · rintro ⟨⟨hlo, hhi⟩, hbit⟩
          exact ⟨hlo, hbit, by omega⟩
      have hstep : fill bus ((s, value) :: rest) =
          fill (bus ||| (value.low s.width).up s.lo) rest := rfl
      rw [hstep, ih, BitVec.getLsbD_or, Bool.or_eq_true, hslot, List.exists_mem_cons_iff, or_assoc]

section

variable {primary : Nat} {extra : ExtraSignals} {layout : Layout}
    (h : Layout.of primary extra = .ok layout)
include h

/-- A bit lies in a slice if it lies in the bus. -/
theorem exists_covers_iff (i : Nat) : (∃ s ∈ layout.slices, s.Covers i) ↔ i < layout.total := by
  have hcount := countP_covers h i
  have hpos : 0 < layout.slices.countP (fun s => s.Covers i) ↔ ∃ s ∈ layout.slices, s.Covers i := by
    simp [List.countP_pos_iff]
  rw [← hpos, hcount]
  split <;> simp_all

/-- Two slots that have a bit in common are the same. -/
theorem slot_eq_of_covers {values : List Word} (hlength : values.length = layout.slices.length)
    {p q : Slice × Word} (hp : p ∈ layout.slices.zip values)
    (hq : q ∈ layout.slices.zip values) {i : Nat} (hpi : p.1.Covers i) (hqi : q.1.Covers i) :
    p = q := by
  have hapart : (layout.slices.zip values).Pairwise SlotsApart := by
    have hslices := pairwise_place 0 (fields primary extra)
    rw [← slices_eq h, ← List.map_fst_zip (Nat.le_of_eq hlength.symm), List.pairwise_map] at hslices
    exact hslices.imp fun hpq => Or.inl hpq
  by_contra hne
  rcases hapart.forall hp hq hne with hpq | hpq
  · exact Nat.lt_irrefl i (Nat.lt_of_lt_of_le hpi.2 (Nat.le_trans hpq hqi.1))
  · exact Nat.lt_irrefl i (Nat.lt_of_lt_of_le hqi.2 (Nat.le_trans hpq hpi.1))

/-- A bit of a filled bus is the bit of the value whose slice has it. -/
theorem getLsbD_fill_covered {values : List Word} (hlength : values.length = layout.slices.length)
    {slot : Slice × Word} (hslot : slot ∈ layout.slices.zip values) {i : Nat}
    (hcovers : slot.1.Covers i) (hi : i < wordBits) :
    (fill 0 (layout.slices.zip values)).getLsbD i = slot.2.getLsbD (i - slot.1.lo) := by
  rw [Bool.eq_iff_iff, getLsbD_fill 0 _ hi]
  constructor
  · rintro (hbit | ⟨other, hother, hcovers', hbit⟩)
    · exact absurd hbit (by simp)
    · rwa [slot_eq_of_covers h hlength hslot hother hcovers hcovers']
  · intro hbit
    exact Or.inr ⟨slot, hslot, hcovers, hbit⟩

/-! ## Round trips -/

/-- **Unpacking a packed bus gives the values, cut to the widths of their slices.** -/
theorem unpack_fill (hfits : layout.total ≤ wordBits) {values : List Word}
    (hlength : values.length = layout.slices.length) :
    layout.unpack (fill 0 (layout.slices.zip values)) =
      some (List.zipWith (fun s value => value.low s.width) layout.slices values) := by
  have hzip : layout.slices = (layout.slices.zip values).map Prod.fst :=
    (List.map_fst_zip (Nat.le_of_eq hlength.symm)).symm
  unfold unpack
  rw [if_pos hfits, Option.some.injEq]
  -- both sides go through the slots
  calc layout.slices.map (fun s => ((fill 0 (layout.slices.zip values)).down s.lo).low s.width)
      = (layout.slices.zip values).map
          (fun slot => ((fill 0 (layout.slices.zip values)).down slot.1.lo).low slot.1.width) := by
        conv_lhs => arg 2; rw [hzip]
        rw [List.map_map]
        rfl
    _ = (layout.slices.zip values).map (fun slot => slot.2.low slot.1.width) := by
        refine List.map_congr_left fun slot hslot => BitVec.eq_of_getLsbD_eq fun i _ => ?_
        rw [Word.getLsbD_low, Word.getLsbD_low, Word.getLsbD_down]
        by_cases hi : i < slot.1.width
        · have hreach := (slice_reach h (List.of_mem_zip hslot).1).2
          have hcovers : slot.1.Covers (slot.1.lo + i) := ⟨by omega, by unfold Slice.hi; omega⟩
          rw [getLsbD_fill_covered h hlength hslot hcovers (by omega), Nat.add_sub_cancel_left]
        · simp [hi]
    _ = List.zipWith (fun s value => value.low s.width) layout.slices values :=
      List.map_zip_eq_zipWith

/-- **Packing what was taken from the slices of a bus gives the bus.** -/
theorem pack_slices (hfits : layout.total ≤ wordBits) (w : Word) :
    layout.pack (layout.slices.map fun s => (w.down s.lo).low s.width) =
      some (w.low layout.total) := by
  rw [pack_eq_fill hfits (List.length_map _), Option.some.injEq]
  refine BitVec.eq_of_getLsbD_eq fun i hi => ?_
  rw [Bool.eq_iff_iff, getLsbD_fill 0 _ hi, Word.getLsbD_low, Bool.and_eq_true, decide_eq_true_eq,
    ← exists_covers_iff h]
  -- the bit that a slice of the bus has at `i` is bit `i` of the bus
  have hbit : ∀ s : Slice, s.Covers i →
      ((w.down s.lo).low s.width).getLsbD (i - s.lo) = w.getLsbD i := by
    rintro s ⟨hlo, hhi⟩
    unfold Slice.hi at hhi
    rw [Word.getLsbD_low, Word.getLsbD_down, decide_eq_true (by omega), Bool.and_true,
      Nat.add_sub_cancel' hlo]
  rw [← List.map_prod_left_eq_zip]
  constructor
  · rintro (hzero | ⟨slot, hslot, hcovers, hset⟩)
    · exact absurd hzero (by simp)
    · obtain ⟨s, hs, rfl⟩ := List.mem_map.mp hslot
      exact ⟨hbit s hcovers ▸ hset, s, hs, hcovers⟩
  · rintro ⟨hset, s, hs, hcovers⟩
    exact Or.inr ⟨_, List.mem_map_of_mem hs, hcovers, (hbit s hcovers).trans hset⟩

theorem unpack_slices (hfits : layout.total ≤ wordBits) (w : Word) :
    layout.unpack (w.low layout.total) =
      some (layout.slices.map fun s => (w.down s.lo).low s.width) := by
  unfold unpack
  rw [if_pos hfits, Option.some.injEq]
  exact List.map_congr_left fun s hs => Word.low_down_low w (slice_reach h hs).2

/-- A filled bus has no bits above its width. -/
theorem fill_lt {values : List Word} :
    (fill 0 (layout.slices.zip values)).toNat < 2 ^ layout.total := by
  refine Nat.lt_pow_two_of_testBit _ fun i hi => ?_
  rw [BitVec.testBit_toNat]
  by_cases hword : i < wordBits
  · refine Bool.eq_false_iff.mpr fun hset => ?_
    rcases (getLsbD_fill 0 _ hword).mp hset with hzero | ⟨slot, hslot, hcovers, -⟩
    · exact absurd hzero (by simp)
    · exact absurd ((exists_covers_iff h i).mp ⟨slot.1, (List.of_mem_zip hslot).1, hcovers⟩)
        (Nat.not_lt.mpr hi)
  · exact BitVec.getLsbD_of_ge _ _ (Nat.le_of_not_lt hword)

end

end Layout

/--
**Packing and unpacking are inverse to each other.** On a bus that fits a word,
every value comes back modulo its slice, and every bus modulo its width; no
value leaves the bus, and no shift reaches the length of a word. Without a word
to fit in, and with the wrong number of values, there is no result, and there
always is one otherwise.
-/
theorem packing_round_trips {primary : Nat} {extra : ExtraSignals} {layout : Layout}
    (h : Layout.of primary extra = .ok layout) :
    (layout.total ≤ wordBits →
      (∀ s ∈ layout.slices, s.lo < wordBits) ∧
      (∀ values : List Word, values.length = layout.slices.length →
        ∃ bus, layout.pack values = some bus ∧ bus.toNat < 2 ^ layout.total ∧
          layout.unpack bus =
            some (List.zipWith (fun s value => BitVec.ofNat wordBits (value.toNat % 2 ^ s.width))
            layout.slices values)) ∧
      ∀ bus : Word, ∃ values, layout.unpack bus = some values ∧
        layout.pack values = some (BitVec.ofNat wordBits (bus.toNat % 2 ^ layout.total))) ∧
    (∀ values : List Word, layout.pack values = none ↔
      wordBits < layout.total ∨ values.length ≠ layout.slices.length) ∧
    ∀ bus : Word, layout.unpack bus = none ↔ wordBits < layout.total := by
  refine ⟨fun hfits => ⟨fun s hs => ?_, fun values hlength => ?_, fun bus => ?_⟩, fun values => ?_,
    fun bus => ?_⟩
  · obtain ⟨hpos, hreach⟩ := Layout.slice_reach h hs
    omega
  · refine ⟨_, Layout.pack_eq_fill hfits hlength, Layout.fill_lt h, ?_⟩
    simp only [← Word.low_eq_ofNat]
    exact Layout.unpack_fill h hfits hlength
  · rw [← Word.low_eq_ofNat]
    exact ⟨_, if_pos hfits, Layout.pack_slices h hfits bus⟩
  · unfold Layout.pack
    rw [ite_eq_right_iff, ← Nat.not_le, ne_eq, ← not_and_or]
    simp
  · unfold Layout.unpack
    rw [ite_eq_right_iff, ← Nat.not_le]
    simp

/-- A bus as wide as a word, and values that are too large for all of its slices. -/
theorem packing_round_trips_whole_word :
    ∃ extra layout, Layout.of 120 extra = .ok layout ∧
      layout.slices = [⟨.primary, 0, 120⟩, ⟨.extra "spec", 120, 3⟩, ⟨.extra "tag", 123, 5⟩] ∧
      layout.total = wordBits ∧
      ∃ bus, layout.pack [BitVec.ofNat wordBits (2 ^ 120 + 1), 9, 255] = some bus ∧
        layout.unpack bus = some [1, 1, 31] := by
  let extra : ExtraSignals := ⟨[⟨"spec", 3⟩, ⟨"tag", 5⟩], by unfold Declarable; decide, by decide⟩
  have h : Layout.of 120 extra = .ok ⟨_, _⟩ := rfl
  obtain ⟨bus, hpack, -, hunpack⟩ :=
    ((packing_round_trips h).1 (by decide)).2.1 [BitVec.ofNat wordBits (2 ^ 120 + 1), 9, 255] rfl
  refine ⟨extra, _, h, rfl, rfl, bus, hpack, hunpack.trans ?_⟩
  decide +kernel

end Handshake
