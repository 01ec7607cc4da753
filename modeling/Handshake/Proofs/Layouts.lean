import Mathlib.Data.List.Chain
import Mathlib.Data.List.Nodup
import Handshake.Layout
import Handshake.Proofs.Reading

/-!
# Where the fields of a bus lie

A layout places the payload and the extra signals of a token one above the
other. Wrappers cut their buses at these slices, on the way in and on the way
out, and nobody looks at the slices again: they have to cover every bit once,
and a field has to be found under its name.

Positions and widths are numbers of 32 bits. Two sums are checked for overflow,
the one over the extra signals when they are declared and the one of payload and
extra signals when the layout is made. All the others are plain sums: the
running position of the slices, their upper ends, and the width of the extra
signals each time it is asked for. `Layout.of32?` computes the layout with
*every* sum checked, and finds the same layout.
-/

namespace Handshake

theorem sumWidths_eq (signals : List ExtraSignal) :
    sumWidths signals = (signals.map ExtraSignal.width).sum := by
  induction signals with
  | nil => rfl
  | cons s rest ih => rw [sumWidths, ih, List.map_cons, List.sum_cons]

theorem combinedWidth_ok {width total : Nat} {extra : ExtraSignals}
    (h : combinedWidth width extra = .ok total) : total = width + extra.totalWidth := by
  unfold combinedWidth at h
  split at h
  · exact (Except.ok.inj h).symm
  · exact absurd h (by simp)

/-- A slice has a bit of the bus. -/
def Slice.Covers (s : Slice) (i : Nat) : Prop := s.lo ≤ i ∧ i < s.hi

instance (s : Slice) (i : Nat) : Decidable (s.Covers i) := inferInstanceAs (Decidable (_ ∧ _))

namespace Layout

/-! ## Fields placed one above the other -/

theorem map_place (lo : Nat) (fields : List (Field × Nat)) :
    (place lo fields).map (fun s => (s.field, s.width)) = fields := by
  induction fields generalizing lo with
  | nil => rfl
  | cons field rest ih => rw [place, List.map_cons, ih]

/-- Placed fields lie between the first bit and the sum of the widths. -/
theorem mem_place {lo : Nat} {fields : List (Field × Nat)} {s : Slice} (h : s ∈ place lo fields) :
    lo ≤ s.lo ∧ s.lo + s.width ≤ lo + (fields.map Prod.snd).sum := by
  induction fields generalizing lo with
  | nil => exact absurd h List.not_mem_nil
  | cons field rest ih =>
      rw [place] at h
      rw [List.map_cons, List.sum_cons]
      rcases List.mem_cons.mp h with rfl | h
      · exact ⟨Nat.le_refl lo, by dsimp only; omega⟩
      · have := ih h
        omega

/-- Placed fields follow one another. -/
theorem pairwise_place (lo : Nat) (fields : List (Field × Nat)) :
    (place lo fields).Pairwise fun s t => s.lo + s.width ≤ t.lo := by
  induction fields generalizing lo with
  | nil => exact List.Pairwise.nil
  | cons field rest ih => exact List.pairwise_cons.mpr ⟨fun t ht => (mem_place ht).1, ih _⟩

theorem head?_place {lo : Nat} {fields : List (Field × Nat)} {s : Slice}
    (h : s ∈ (place lo fields).head?) : s.lo = lo := by
  cases fields with
  | nil => exact absurd h (by simp [place])
  | cons field rest =>
      obtain rfl : _ = s := Option.some.inj h
      rfl

/-- A field begins where the one below it ends. -/
theorem isChain_place (lo : Nat) (fields : List (Field × Nat)) :
    (place lo fields).IsChain fun s t => t.lo = s.hi := by
  induction fields generalizing lo with
  | nil => exact List.IsChain.nil
  | cons field rest ih =>
      rw [place, List.isChain_cons]
      exact ⟨fun t ht => head?_place ht, ih _⟩

theorem getLast?_place {lo : Nat} {fields : List (Field × Nat)} {s : Slice}
    (h : s ∈ (place lo fields).getLast?) : s.hi = lo + (fields.map Prod.snd).sum := by
  induction fields generalizing lo with
  | nil => exact absurd h (by simp [place])
  | cons field rest ih =>
      rw [List.map_cons, List.sum_cons, ← Nat.add_assoc]
      cases rest with
      | nil =>
          obtain rfl : _ = s := Option.some.inj h
          rfl
      | cons next rest => exact ih h

/-- Each bit that placed fields reach lies in one of them. -/
theorem countP_place (lo : Nat) (fields : List (Field × Nat)) (i : Nat) :
    (place lo fields).countP (fun s => s.Covers i) =
      if lo ≤ i ∧ i < lo + (fields.map Prod.snd).sum then 1 else 0 := by
  induction fields generalizing lo with
  | nil =>
      rw [if_neg (by simp)]
      rfl
  | cons field rest ih =>
      obtain ⟨field, width⟩ := field
      have hcovers : (⟨field, lo, width⟩ : Slice).Covers i ↔ lo ≤ i ∧ i < lo + width := Iff.rfl
      rw [place, List.countP_cons, ih, List.map_cons, List.sum_cons]
      simp only [decide_eq_true_eq, hcovers]
      split <;> split <;> split <;> omega

/-! ## The layout of a bus -/

theorem sum_fields (primary : Nat) (extra : ExtraSignals) :
    ((fields primary extra).map Prod.snd).sum = primary + extra.totalWidth := by
  rw [fields, ExtraSignals.totalWidth, sumWidths_eq, List.map_append, List.sum_append, List.map_map]
  congr 1
  by_cases h : 0 < primary
  · simp [h]
  · have hzero : primary = 0 := by omega
    simp [hzero]

theorem nodup_fields (primary : Nat) (extra : ExtraSignals) :
    ((fields primary extra).map Prod.fst).Nodup := by
  have hextra : ((extra.signals.map fun s => (Field.extra s.name, s.width)).map
      Prod.fst).Nodup := by
    have hnames := extra.declarable.2.map (f := Field.extra) fun _ _ h => Field.extra.inj h
    rwa [List.map_map] at hnames ⊢
  rw [fields, List.map_append, List.nodup_append]
  refine ⟨?_, hextra, ?_⟩
  · split <;> simp
  · intro a ha b hb heq
    obtain ⟨s, -, rfl⟩ : ∃ s ∈ extra.signals, Field.extra s.name = b := by simpa using hb
    split at ha <;> simp_all

/-- A layout exists if payload and extra signals together have a number of bits of 32 bits. -/
theorem of_ok_iff {primary : Nat} {extra : ExtraSignals} {layout : Layout} :
    Layout.of primary extra = .ok layout ↔
      primary + extra.totalWidth < countLimit ∧
        layout = ⟨place 0 (fields primary extra), primary + extra.totalWidth⟩ := by
  unfold Layout.of combinedWidth
  by_cases h : primary + extra.totalWidth < countLimit
  · rw [if_pos h, ok_bind, pure_eq_ok, Except.ok.injEq, eq_comm]
    exact (and_iff_right h).symm
  · rw [if_neg h]
    exact ⟨fun hof => absurd hof (by simp [bind, Except.bind]), fun hof => absurd hof.1 h⟩

section

variable {primary : Nat} {extra : ExtraSignals} {layout : Layout}

theorem slices_eq (h : Layout.of primary extra = .ok layout) :
    layout.slices = place 0 (fields primary extra) := by
  rw [(of_ok_iff.mp h).2]

theorem total_of (h : Layout.of primary extra = .ok layout) :
    layout.total = primary + extra.totalWidth := by
  rw [(of_ok_iff.mp h).2]

theorem map_fields (h : Layout.of primary extra = .ok layout) :
    layout.slices.map (fun s => (s.field, s.width)) = fields primary extra := by
  rw [slices_eq h, map_place]

/-- The slices hold the fields in their order. -/
theorem map_slices (h : Layout.of primary extra = .ok layout) (name : Field → String) :
    layout.slices.map (fun s => name s.field) = (fields primary extra).map fun f => name f.1 := by
  rw [← map_fields h, List.map_map]
  rfl

theorem mem_fields (h : Layout.of primary extra = .ok layout) {s : Slice} (hs : s ∈ layout.slices) :
    (s.field, s.width) ∈ fields primary extra := by
  rw [← map_fields h]
  exact List.mem_map_of_mem (f := fun s : Slice => (s.field, s.width)) hs

/-- A slice is not empty, and lies inside the bus. -/
theorem slice_reach (h : Layout.of primary extra = .ok layout) {s : Slice}
    (hs : s ∈ layout.slices) : 0 < s.width ∧ s.lo + s.width ≤ layout.total := by
  have hfield := mem_fields h hs
  rw [slices_eq h] at hs
  have hreach := (mem_place hs).2
  rw [sum_fields] at hreach
  rw [total_of h]
  refine ⟨?_, by omega⟩
  rcases List.mem_append.mp hfield with hmem | hmem
  · by_cases hpos : 0 < primary
    · rw [if_pos hpos, List.mem_singleton] at hmem
      exact (Prod.mk.inj hmem).2 ▸ hpos
    · rw [if_neg hpos] at hmem
      exact absurd hmem List.not_mem_nil
  · obtain ⟨e, he, heq⟩ := List.mem_map.mp hmem
    exact (Prod.mk.inj heq).2 ▸ (extra.declarable.1 e he).2

/-- **Each bit of a bus lies in one slice.** -/
theorem countP_covers (h : Layout.of primary extra = .ok layout) (i : Nat) :
    layout.slices.countP (fun s => s.Covers i) = if i < layout.total then 1 else 0 := by
  rw [slices_eq h, countP_place, sum_fields, total_of h, Nat.zero_add]
  simp only [Nat.zero_le, true_and]

/-- A field is found under its name. -/
theorem get?_eq_some_iff (h : Layout.of primary extra = .ok layout) {field : Field} {s : Slice} :
    layout.get? field = some s ↔ s ∈ layout.slices ∧ s.field = field := by
  have hnodup : (layout.slices.map Slice.field).Nodup := by
    have hfields := nodup_fields primary extra
    rwa [← map_fields h, List.map_map] at hfields
  unfold get?
  constructor
  · intro hfind
    exact ⟨List.mem_of_find?_eq_some hfind, by simpa using List.find?_some hfind⟩
  · rintro ⟨hs, rfl⟩
    cases hfind : layout.slices.find? (fun t => t.field == s.field) with
    | none => exact absurd (List.find?_eq_none.mp hfind s hs) (by simp)
    | some t =>
        have hfield : t.field = s.field := by simpa using List.find?_some hfind
        exact congrArg some
          (List.inj_on_of_nodup_map hnodup (List.mem_of_find?_eq_some hfind) hs hfield)

theorem slices_of (h : Layout.of 0 extra = .ok layout) :
    layout.slices = place 0 (extra.signals.map fun e => (Field.extra e.name, e.width)) :=
  slices_eq h

/-- The slices of a bus without payload are the extra signals, inside the bus. -/
theorem mem_slices (h : Layout.of 0 extra = .ok layout) {s : Slice} (hs : s ∈ layout.slices) :
    ∃ e ∈ extra.signals, s.field = .extra e.name ∧ s.width = e.width ∧ 0 < s.width ∧
      s.lo + s.width ≤ extra.totalWidth := by
  obtain ⟨hpos, hreach⟩ := slice_reach h hs
  rw [total_of h, Nat.zero_add] at hreach
  obtain ⟨e, he, heq⟩ := List.mem_map.mp (mem_fields h hs)
  obtain ⟨hfield, hwidth⟩ := Prod.mk.inj heq
  exact ⟨e, he, hfield.symm, hwidth.symm, hpos, hreach⟩

theorem exists_slice (h : Layout.of 0 extra = .ok layout) {e : ExtraSignal}
    (he : e ∈ extra.signals) :
    ∃ s ∈ layout.slices, s.field = .extra e.name ∧ s.width = e.width := by
  have hmem : (Field.extra e.name, e.width) ∈ layout.slices.map fun s => (s.field, s.width) := by
    rw [slices_of h, map_place]
    exact List.mem_map_of_mem he
  obtain ⟨s, hs, heq⟩ := List.mem_map.mp hmem
  exact ⟨s, hs, (Prod.mk.inj heq).1, (Prod.mk.inj heq).2⟩

end

end Layout

theorem layout_ok {primary : Nat} {extra : ExtraSignals}
    (h : primary + extra.totalWidth < countLimit) :
    combinedWidth primary extra = .ok (primary + extra.totalWidth) ∧
      ∃ layout, Layout.of primary extra = .ok layout :=
  ⟨if_pos h, _, Layout.of_ok_iff.mpr ⟨h, rfl⟩⟩

/-! ## Sums of 32 bits -/

/-- The sum of two numbers, if it is a number of 32 bits. -/
def sum32? (a b : Nat) : Option Nat := if a + b < countLimit then some (a + b) else none

/-- The upper end of a slice, if it is a number of 32 bits. -/
def Slice.hi32? (s : Slice) : Option Nat := sum32? s.lo s.width

/--
The width of all signals, added up from the first on; there is none if a sum on
the way overflows.
-/
def ExtraSignals.totalWidth32? (extra : ExtraSignals) : Option Nat :=
  extra.signals.foldlM (fun total s => sum32? total s.width) 0

namespace Layout

/--
Places fields from bit `lo` on, and gives the first bit above them, unless a
position overflows.
-/
def place32? (lo : Nat) : List (Field × Nat) → Option (List Slice × Nat)
  | [] => some ([], lo)
  | (field, width) :: rest => do
    let next ← sum32? lo width
    let (slices, top) ← place32? next rest
    return (⟨field, lo, width⟩ :: slices, top)

/-- The layout with every sum checked, and the slices checked against the width of the bus. -/
def of32? (primary : Nat) (extra : ExtraSignals) : Option Layout := do
  let total ← sum32? primary (← extra.totalWidth32?)
  let (slices, top) ← place32? 0 (fields primary extra)
  if top = total then return ⟨slices, total⟩ else none

end Layout

theorem sum32?_eq {a b : Nat} (h : a + b < countLimit) : sum32? a b = some (a + b) := if_pos h

theorem foldlM_sum32? (signals : List ExtraSignal) (start : Nat)
    (h : start + sumWidths signals < countLimit) :
    signals.foldlM (fun total s => sum32? total s.width) start =
      some (start + sumWidths signals) := by
  induction signals generalizing start with
  | nil => rfl
  | cons s rest ih =>
      rw [sumWidths, ← Nat.add_assoc] at h ⊢
      rw [List.foldlM_cons, sum32?_eq (by omega)]
      exact ih _ h

/-- The width of signals that could be declared is a sum without overflow. -/
theorem ExtraSignals.totalWidth32?_eq (extra : ExtraSignals) :
    extra.totalWidth32? = some extra.totalWidth := by
  have hsum := foldlM_sum32? extra.signals 0 (by rw [Nat.zero_add]; exact extra.fits)
  rwa [Nat.zero_add] at hsum

namespace Layout

theorem place32?_eq (lo : Nat) (fields : List (Field × Nat))
    (h : lo + (fields.map Prod.snd).sum < countLimit) :
    place32? lo fields = some (place lo fields, lo + (fields.map Prod.snd).sum) := by
  induction fields generalizing lo with
  | nil => rfl
  | cons field rest ih =>
      obtain ⟨field, width⟩ := field
      rw [List.map_cons, List.sum_cons, ← Nat.add_assoc] at h ⊢
      rw [place32?, sum32?_eq (by omega)]
      dsimp only [bind, Option.bind]
      rw [ih _ h]
      rfl

/-- **A layout is computed without overflow.** -/
theorem of32?_eq {primary : Nat} {extra : ExtraSignals} {layout : Layout}
    (h : Layout.of primary extra = .ok layout) : of32? primary extra = some layout := by
  obtain ⟨hfits, rfl⟩ := of_ok_iff.mp h
  have hplace : place32? 0 (fields primary extra) =
      some (place 0 (fields primary extra), primary + extra.totalWidth) := by
    have hplace :=
      place32?_eq 0 (fields primary extra) (by rw [Nat.zero_add, sum_fields]; exact hfits)
    rwa [Nat.zero_add, sum_fields] at hplace
  rw [of32?, extra.totalWidth32?_eq]
  dsimp only [bind, Option.bind]
  rw [sum32?_eq hfits, hplace]
  exact if_pos rfl

theorem hi32?_eq {primary : Nat} {extra : ExtraSignals} {layout : Layout}
    (h : Layout.of primary extra = .ok layout) {s : Slice} (hs : s ∈ layout.slices) :
    s.hi32? = some s.hi := by
  have hreach := (slice_reach h hs).2
  have htotal := total_of h
  have hfits := (of_ok_iff.mp h).1
  exact sum32?_eq (by omega)

/-! ## Buses of declared signals -/

/--
A layout of a payload and some signals that has a place for everything, and
every bit in one place.
-/
structure Partitions (layout : Layout) (primary : Nat) (signals : SignalList) : Prop where
  /-- The slices are the payload, unless it is empty, and the signals in their order. -/
  fields : layout.slices.map (fun s => (s.field, (s.width : Int))) =
    (if 0 < primary then [(Field.primary, (primary : Int))] else []) ++
      signals.map fun signal => (.extra signal.1, signal.2)
  /-- The bus is as wide as all of them together. -/
  total : (layout.total : Int) = primary + (signals.map Prod.snd).sum
  /-- The first slice begins at the lowest bit. -/
  first : ∀ s ∈ layout.slices.head?, s.lo = 0
  /-- Each other slice begins where the one before it ends. -/
  adjacent : layout.slices.IsChain fun s t => t.lo = s.hi
  /-- The last slice ends with the bus. -/
  last : ∀ s ∈ layout.slices.getLast?, s.hi = layout.total
  /-- A bit of the bus belongs to one slice, and no slice has other bits. -/
  covered : ∀ i, layout.slices.countP (fun s => s.Covers i) = if i < layout.total then 1 else 0
  /-- The slice of a field is found under the name of the field, and nothing else is. -/
  found : ∀ field s, layout.get? field = some s ↔ s ∈ layout.slices ∧ s.field = field

end Layout

/-- Declared signals are what they were declared as, and so is the sum of their widths. -/
theorem ExtraSignals.signals_ofPairs {pairs : SignalList} {extra : ExtraSignals}
    (h : ofPairs pairs = .ok extra) :
    extra.signals.map (fun s => (s.name, (s.width : Int))) = pairs ∧
      (extra.totalWidth : Int) = (pairs.map Prod.snd).sum := by
  obtain ⟨hlegal, hsignals⟩ := (ofPairs_ok_iff (nodup_of_ofPairs h)).mp h
  refine ⟨?_, by rw [totalWidth, hsignals, SignalList.sum_declared hlegal.widths]⟩
  rw [hsignals, SignalList.declared, List.map_map]
  refine (List.map_congr_left fun s hs => ?_).trans (List.map_id pairs)
  have hwidth := (hlegal.widths s hs).1
  exact Prod.ext rfl (Int.toNat_of_nonneg (by omega))

theorem Layout.partitions {pairs : SignalList} {extra : ExtraSignals}
    (h : ExtraSignals.ofPairs pairs = .ok extra) {primary : Nat} {layout : Layout}
    (hlayout : Layout.of primary extra = .ok layout) :
    layout.Partitions primary pairs := by
  obtain ⟨hsignals, hsum⟩ := ExtraSignals.signals_ofPairs h
  have hslices := slices_eq hlayout
  have htotal : 0 + ((Layout.fields primary extra).map Prod.snd).sum = layout.total := by
    rw [sum_fields, total_of hlayout, Nat.zero_add]
  refine ⟨?_, ?_, fun s hs => ?_, ?_, fun s hs => ?_, countP_covers hlayout,
    fun field s => get?_eq_some_iff hlayout⟩
  · -- the fields of the layout, with their widths as integers
    have hfields :=
      congrArg (List.map fun f : Field × Nat => (f.1, (f.2 : Int))) (map_fields hlayout)
    rw [List.map_map, Layout.fields, List.map_append, List.map_map] at hfields
    rw [← hsignals, List.map_map]
    refine hfields.trans (congrArg (· ++ _) ?_)
    split <;> rfl
  · rw [total_of hlayout, Nat.cast_add, hsum]
  · rw [hslices] at hs
    exact head?_place hs
  · rw [hslices]
    exact isChain_place _ _
  · rw [hslices] at hs
    rw [← htotal]
    exact getLast?_place hs

/--
**A layout partitions its bus, without overflow.** Signals that could be
declared have a layout beside a payload exactly if all together are a number of
bits of 32 bits. No sum in the computation of it overflows, and its slices cover
the bus.
-/
theorem layout_partitions_bus {pairs : SignalList} {extra : ExtraSignals}
    (h : ExtraSignals.ofPairs pairs = .ok extra) (primary : Nat) :
    extra.totalWidth32? = some extra.totalWidth ∧
    ((∃ layout, Layout.of primary extra = .ok layout) ↔
      primary + (pairs.map Prod.snd).sum ≤ 2 ^ 32 - 1) ∧
    (¬ primary + (pairs.map Prod.snd).sum ≤ 2 ^ 32 - 1 →
      Layout.of primary extra = .error (.invalidParameter "bitwidth"
        (primary.repr ++ " bits plus " ++ extra.totalWidth.repr ++ " extra bits overflow"))) ∧
    ∀ layout, Layout.of primary extra = .ok layout →
      Layout.of32? primary extra = some layout ∧ (∀ s ∈ layout.slices, s.hi32? = some s.hi) ∧
        layout.Partitions primary pairs := by
  have hsum := (ExtraSignals.signals_ofPairs h).2
  have hlimit : primary + (pairs.map Prod.snd).sum ≤ 2 ^ 32 - 1 ↔
      primary + extra.totalWidth < countLimit := by
    unfold countLimit UInt32.size
    omega
  refine ⟨extra.totalWidth32?_eq, ?_, fun hwide => ?_, fun layout hlayout => ?_⟩
  · rw [hlimit]
    exact ⟨fun ⟨_, hlayout⟩ => (Layout.of_ok_iff.mp hlayout).1, fun hfits => (layout_ok hfits).2⟩
  · rw [hlimit] at hwide
    unfold Layout.of combinedWidth
    rw [if_neg hwide]
    rfl
  · exact ⟨Layout.of32?_eq hlayout, fun s hs => Layout.hi32?_eq hlayout hs,
      Layout.partitions h hlayout⟩

/-- The widest bus there is: one more bit of payload, and there would be no layout. -/
theorem layout_partitions_widest_bus :
    ∃ extra layout, ExtraSignals.ofPairs [("spec", 1), ("tag", 2)] = .ok extra ∧
      Layout.of (2 ^ 32 - 4) extra = .ok layout ∧ layout.total = 2 ^ 32 - 1 ∧
      layout.Partitions (2 ^ 32 - 4) [("spec", 1), ("tag", 2)] ∧
      ¬ ∃ layout, Layout.of (2 ^ 32 - 3) extra = .ok layout := by
  let extra : ExtraSignals := ⟨[⟨"spec", 1⟩, ⟨"tag", 2⟩], by unfold Declarable; decide, by decide⟩
  have h : ExtraSignals.ofPairs [("spec", 1), ("tag", 2)] = .ok extra := by decide +kernel
  obtain ⟨-, hexists, -, hlayout⟩ := layout_partitions_bus h (2 ^ 32 - 4)
  obtain ⟨layout, hof⟩ := hexists.mpr (by decide)
  refine ⟨extra, layout, h, hof, Layout.total_of hof, (hlayout layout hof).2.2, ?_⟩
  rw [(layout_partitions_bus h (2 ^ 32 - 3)).2.1]
  decide

end Handshake
