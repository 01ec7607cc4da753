import Mathlib.Algebra.Ring.Nat
import Handshake.Proofs.Denotation

/-!
# What writing changes

A target is a signal, a selected part of one, or several of these side by side.
`regions` lists the parts of signals that it consists of, the least significant
first. Writing a value spreads its bits over the regions (`Spread`), in order,
and leaves all other bits as they were. If the regions of a target do not
overlap, this says what every bit is afterwards.

* `Writes` is the specification of one write: the bits inside the regions, the
  frame of all other bits, and tidiness of the values that are stored.
* `Expr.write_ok` says that a write to a target succeeds and meets it.
* `Spread` is also how settled states are described later: a state is settled
  where each value is spread over its target.

The widths of signals come in through the proviso that no signal is wider than a
word, without which the upper bits of a value would have nowhere to go.
-/

namespace Handshake

namespace Word

/-- Moving a word up moves its bits, as far as the word reaches. -/
theorem getLsbD_up (w : Word) (n i : Nat) :
    (w.up n).getLsbD i = (decide (i < wordBits) && decide (n ≤ i) && w.getLsbD (i - n)) := by
  unfold up
  split
  · rw [BitVec.getLsbD_shiftLeft]
    by_cases hi : n ≤ i
    · simp [hi, Nat.not_lt.mpr hi]
    · simp [hi, Nat.not_le.mp hi]
  · rename_i hn
    by_cases hi : i < wordBits
    · have hlt : ¬ n ≤ i := by omega
      simp [hlt]
    · simp [hi]

/-- Moving a word down drops its lowest bits. -/
theorem getLsbD_down (w : Word) (n i : Nat) : (w.down n).getLsbD i = w.getLsbD (n + i) := by
  unfold down
  split
  · exact BitVec.getLsbD_ushiftRight w n i
  · rename_i hn
    have hout : w.getLsbD (n + i) = false := BitVec.getLsbD_of_ge w _ (by omega)
    simp [hout]

theorem down_down (w : Word) (m n : Nat) : (w.down m).down n = w.down (m + n) := by
  refine BitVec.eq_of_getLsbD_eq fun i _ => ?_
  rw [getLsbD_down, getLsbD_down, getLsbD_down, Nat.add_assoc]

@[simp] theorem down_zero (w : Word) : w.down 0 = w := by
  refine BitVec.eq_of_getLsbD_eq fun i _ => ?_
  rw [getLsbD_down, Nat.zero_add]

@[simp] theorem low_low (w : Word) (n : Nat) : (w.low n).low n = w.low n := by
  refine BitVec.eq_of_getLsbD_eq fun i _ => ?_
  simp [getLsbD_low]

/-- Cutting a word is taking a remainder. -/
theorem toNat_low (w : Word) (width : Nat) : (w.low width).toNat = w.toNat % 2 ^ width := by
  refine Nat.eq_of_testBit_eq fun i => ?_
  rw [BitVec.testBit_toNat, getLsbD_low, Nat.testBit_mod_two_pow, BitVec.testBit_toNat,
    Bool.and_comm]

/-- Replacing bits of a word changes these and no others. -/
theorem getLsbD_splice (old value : Word) (lo length i : Nat) (hi : i < wordBits) :
    (old.splice lo length value).getLsbD i =
      if lo ≤ i ∧ i < lo + length then value.getLsbD (i - lo) else old.getLsbD i := by
  unfold splice
  simp only [BitVec.getLsbD_or, BitVec.getLsbD_and, BitVec.getLsbD_not, getLsbD_up, getLsbD_mask,
    hi, decide_true, Bool.true_and]
  by_cases hlo : lo ≤ i
  · have hsub : i - lo < wordBits := by omega
    by_cases hlen : i < lo + length
    · have hin : i - lo < length := by omega
      simp [hlo, hlen, hsub, hin]
    · have hout : ¬ i - lo < length := by omega
      simp [hlo, hlen, hsub, hout]
  · simp [hlo]

end Word

/-! ## The entries of a valuation -/

namespace Valuation

/-- The names that have an entry. -/
def keys (v : Valuation) : List String := v.entries.map Prod.fst

theorem map_fst_store (name : String) (value : Word) (entries : List (String × Word)) :
    (store name value entries).map Prod.fst =
      if name ∈ entries.map Prod.fst then entries.map Prod.fst
      else entries.map Prod.fst ++ [name] := by
  induction entries with
  | nil => simp [store]
  | cons entry rest ih =>
      obtain ⟨key, old⟩ := entry
      unfold store
      split
      · rename_i hkey
        simp [hkey]
      · rename_i hkey
        simp only [List.map_cons, ih, List.mem_cons, Ne.symm hkey, false_or]
        by_cases hmem : name ∈ rest.map Prod.fst
        · rw [if_pos hmem, if_pos hmem]
        · rw [if_neg hmem, if_neg hmem, List.cons_append]

/-- Storing a value appends its name, unless the name is there already. -/
theorem keys_put (v : Valuation) (name : String) (value : Word) :
    (v.put name value).keys = if name ∈ v.keys then v.keys else v.keys ++ [name] :=
  map_fst_store name value v.entries

/--
Valuations with the same names, in the same order and each once, that agree on
all values, are the same.
-/
theorem eq_of_keys {v w : Valuation} (hkeys : v.keys = w.keys) (hnodup : v.keys.Nodup)
    (hget : ∀ name, v.get name = w.get name) : v = w := by
  obtain ⟨entries⟩ := v
  obtain ⟨others⟩ := w
  simp only [Valuation.mk.injEq]
  simp only [keys] at hkeys hnodup
  simp only [get] at hget
  induction entries generalizing others with
  | nil => simpa using hkeys
  | cons entry rest ih =>
      cases others with
      | nil => simp at hkeys
      | cons other others =>
          obtain ⟨key, value⟩ := entry
          obtain ⟨key', value'⟩ := other
          simp only [List.map_cons, List.cons.injEq] at hkeys
          obtain ⟨rfl, hkeys⟩ := hkeys
          simp only [List.map_cons, List.nodup_cons] at hnodup
          have hvalue : value = value' := by simpa [lookup_cons] using hget key
          have hrest : rest = others := by
            refine ih hnodup.2 others hkeys fun name => ?_
            by_cases hname : name = key
            · -- the name has no second entry on either side
              have hnone : ∀ l : List (String × Word), key ∉ l.map Prod.fst →
                  l.lookup key = none := by
                intro l hl
                rw [List.lookup_eq_none_iff]
                intro p hp
                simpa using fun h : key = p.1 => hl (h ▸ List.mem_map_of_mem hp)
              rw [hname, hnone rest hnodup.1, hnone others (hkeys ▸ hnodup.1)]
            · simpa [lookup_cons, hname] using hget name
          rw [hvalue, hrest]

/-- One entry for each name, and no value wider than its signal. -/
structure Tidy (v : Valuation) (widths : Widths) : Prop where
  nodup : v.keys.Nodup
  fits : ∀ name, (v.get name).low (widths.width name) = v.get name

theorem tidy_zero (widths : Widths) : zero.Tidy widths where
  nodup := List.nodup_nil
  fits name := by simp [Word.low]

/-- A value that is cut to the width of its signal keeps the values tidy. -/
theorem Tidy.put {v : Valuation} {widths : Widths} (h : v.Tidy widths) (name : String)
    (value : Word) :
    (v.put name (value.low (widths.width name))).Tidy widths where
  nodup := by
    rw [keys_put]
    split
    · exact h.nodup
    · rename_i hnew
      refine List.nodup_append.mpr ⟨h.nodup, by simp, ?_⟩
      intro a ha b hb hab
      exact hnew (List.mem_singleton.mp hb ▸ hab ▸ ha)
  fits other := by
    rw [get_put]
    split
    · rename_i heq
      rw [heq, Word.low_low]
    · exact h.fits other

end Valuation

/-! ## Regions -/

/-- Some bits of a signal. -/
structure Region where
  /-- The signal. -/
  name : String
  /-- The lowest bit. -/
  lo : Nat
  /-- The number of bits. -/
  length : Nat
deriving DecidableEq

namespace Region

/-- A bit of a signal lies in the region. -/
def Covers (r : Region) (name : String) (i : Nat) : Prop :=
  r.name = name ∧ r.lo ≤ i ∧ i < r.lo + r.length

/-- Regions that have no bit in common. -/
def Apart (r s : Region) : Prop := r.name = s.name → r.lo + r.length ≤ s.lo ∨ s.lo + s.length ≤ r.lo

instance : DecidableRel Apart := fun r s =>
  inferInstanceAs (Decidable (r.name = s.name → r.lo + r.length ≤ s.lo ∨ s.lo + s.length ≤ r.lo))

theorem Apart.symm {r s : Region} (h : r.Apart s) : s.Apart r := fun hname => (h hname.symm).symm

/-- A bit lies in one of two regions that are apart, at most. -/
theorem Apart.not_covers {r s : Region} (h : r.Apart s) {name : String} {i : Nat}
    (hr : r.Covers name i) : ¬ s.Covers name i := by
  rintro ⟨hname, hlo, hhi⟩
  have hcases := h (hr.1.trans hname.symm)
  have := hr.2
  omega

/-- A region with its signal renamed. -/
def renamed (f : String → String) (r : Region) : Region := { r with name := f r.name }

end Region

/--
The bits of a value, from bit `offset` on, stand in the regions, the first one
taking the lowest.
-/
def Spread (state : State) (value : Word) : Nat → List Region → Prop
  | _, [] => True
  | offset, r :: rest =>
    (∀ j < r.length, (state r.name).getLsbD (r.lo + j) = value.getLsbD (offset + j)) ∧
      Spread state value (offset + r.length) rest

theorem Spread.renamed {f : String → String} {state : State} {value : Word} {offset : Nat}
    {rs : List Region} :
    Spread state value offset (rs.map (Region.renamed f)) ↔ Spread (state ∘ f) value offset rs := by
  induction rs generalizing offset with
  | nil => exact Iff.rfl
  | cons r rest ih => exact and_congr Iff.rfl ih

/-- The number of bits of some regions. -/
def Region.total (rs : List Region) : Nat := (rs.map Region.length).sum

/-- Regions one after the other take up the bits of a value one after the other. -/
theorem Spread.append {state : State} {value : Word} {offset : Nat} {rs ts : List Region} :
    Spread state value offset (rs ++ ts) ↔
      Spread state value offset rs ∧ Spread state value (offset + Region.total rs) ts := by
  induction rs generalizing offset with
  | nil => simp [Spread, Region.total]
  | cons r rest ih =>
      simp only [List.cons_append, Spread, ih, Region.total, List.map_cons, List.sum_cons,
        and_assoc, Nat.add_assoc]

/-- Spreading looks at the bits inside the regions, and at no others. -/
theorem Spread.congr {s t : State} {value other : Word} {offset offset' : Nat} {rs : List Region}
    (hstate : ∀ r ∈ rs, ∀ j < r.length,
      (t r.name).getLsbD (r.lo + j) = (s r.name).getLsbD (r.lo + j))
    (hvalue : ∀ j < Region.total rs, value.getLsbD (offset + j) = other.getLsbD (offset' + j))
    (h : Spread s value offset rs) : Spread t other offset' rs := by
  induction rs generalizing offset offset' with
  | nil => trivial
  | cons r rest ih =>
      have htotal : Region.total (r :: rest) = r.length + Region.total rest := by
        simp [Region.total]
      refine ⟨fun j hj => ?_,
        ih (fun q hq => hstate q (List.mem_cons_of_mem _ hq)) (fun j hj => ?_) h.2⟩
      · rw [hstate r List.mem_cons_self j hj, h.1 j hj, hvalue j (by omega)]
      · have := hvalue (r.length + j) (by omega)
        rwa [← Nat.add_assoc, ← Nat.add_assoc] at this

/-! ## Targets -/

namespace Expr

mutual
/-- The parts of signals that a target consists of, the least significant first. -/
def regions (width : String → Nat) : Expr → List Region
  | .ident name => [⟨name, 0, width name⟩]
  | .index name position => [⟨name, position.position, 1⟩]
  | .slice name base length => [⟨name, base.position, length.position⟩]
  | .concat parts => regionsAll width parts
  | .number _ | .paren _ | .not _ | .binary _ _ _ | .cond _ _ _ => []
/-- The parts of signals that targets side by side consist of. -/
def regionsAll (width : String → Nat) : List Expr → List Region
  | [] => []
  | part :: rest => regionsAll width rest ++ regions width part
end

section

variable (widths : Widths)

mutual
/-- An expression that can be written to: what it selects lies inside a declared signal. -/
def IsTarget : Expr → Prop
  | .ident name => widths.Declares name
  | .index name position =>
    widths.Declares name ∧ position.IsLiteral ∧ position.position < wordBits ∧
      position.position < widths.width name
  | .slice name base length =>
    widths.Declares name ∧ base.IsLiteral ∧ length.IsLiteral ∧ base.position < wordBits ∧
      base.position + length.position ≤ widths.width name
  | .concat parts => IsTargetAll parts
  | .number _ | .paren _ | .not _ | .binary _ _ _ | .cond _ _ _ => False
/-- Parts that can be written to side by side. -/
def IsTargetAll : List Expr → Prop
  | [] => True
  | part :: rest => IsTarget part ∧ part.size widths.width < wordBits ∧ IsTargetAll rest
end

end

mutual
/-- A target can be read as well as written. -/
theorem IsTarget.typed {widths : Widths} : ∀ {e : Expr}, e.IsTarget widths → e.Typed widths
  | .ident _, h => h
  | .index _ _, ⟨hname, hlit, hreach, _⟩ => ⟨hname, hlit, hreach⟩
  | .slice _ _ _, ⟨hname, hbase, hlength, hreach, _⟩ => ⟨hname, hbase, hlength, hreach⟩
  | .concat parts, h => IsTargetAll.typed (show IsTargetAll widths parts from h)
theorem IsTargetAll.typed {widths : Widths} : ∀ {parts : List Expr}, IsTargetAll widths parts →
    TypedAll widths parts
  | [], _ => trivial
  | _ :: _, ⟨hpart, hreach, hrest⟩ => ⟨hpart.typed, hreach, hrest.typed⟩
end

mutual
/-- The regions of a target are as wide as the target. -/
theorem total_regions {widths : Widths} : ∀ {e : Expr}, e.IsTarget widths →
    Region.total (e.regions widths.width) = e.size widths.width
  | .ident _, _ => by simp [regions, Region.total, size]
  | .index _ _, _ => by simp [regions, Region.total, size]
  | .slice _ _ _, _ => by simp [regions, Region.total, size]
  | .concat parts, h => by
      simp only [regions, size]
      exact total_regionsAll (show IsTargetAll widths parts from h)
theorem total_regionsAll {widths : Widths} : ∀ {parts : List Expr}, IsTargetAll widths parts →
    Region.total (regionsAll widths.width parts) = sizeAll widths.width parts
  | [], _ => rfl
  | part :: rest, ⟨hpart, _, hrest⟩ => by
      have hp := total_regions hpart
      have hr := total_regionsAll hrest
      simp only [Region.total] at hp hr ⊢
      simp only [regionsAll, sizeAll, List.map_append, List.sum_append, hp, hr, Nat.add_comm]
end

mutual
/-- The regions of a renamed target are those of the target, renamed. -/
theorem regions_renamed {f : String → String} {width inner : String → Nat} : ∀ {e : Expr},
    (∀ name ∈ e.reads, width (f name) = inner name) →
    (e.renamed f).regions width = (e.regions inner).map (Region.renamed f)
  | .ident name, h => by simp [renamed, regions, Region.renamed, h name (by simp [reads])]
  | .index _ _, _ => by simp [renamed, regions, Region.renamed]
  | .slice _ _ _, _ => by simp [renamed, regions, Region.renamed]
  | .concat parts, h => by
      simp only [renamed, regions]
      exact regionsAll_renamed h
  | .number _, _ => rfl
  | .paren _, _ => rfl
  | .not _, _ => rfl
  | .binary _ _ _, _ => rfl
  | .cond _ _ _, _ => rfl
theorem regionsAll_renamed {f : String → String} {width inner : String → Nat} :
    ∀ {parts : List Expr},
    (∀ name ∈ readsAll parts, width (f name) = inner name) →
    regionsAll width (renamedAll f parts) = (regionsAll inner parts).map (Region.renamed f)
  | [], _ => rfl
  | part :: rest, h => by
      simp only [renamedAll, regionsAll, List.map_append]
      rw [regions_renamed fun name hname => h name (List.mem_append_left _ hname),
        regionsAll_renamed fun name hname => h name (List.mem_append_right _ hname)]
end

mutual
theorem isTarget_renamed {f : String → String} {inner outer : Widths} (hf : inner.Embeds f outer) :
    ∀ {e : Expr},
    e.IsTarget inner → (e.renamed f).IsTarget outer
  | .ident name, h => (hf name h).1
  | .index name position, ⟨hname, hlit, hreach, hfit⟩ => by
      simpa [renamed, IsTarget, (hf name hname).2] using ⟨(hf name hname).1, hlit, hreach, hfit⟩
  | .slice name base length, ⟨hname, hbase, hlength, hreach, hfit⟩ => by
      simpa [renamed, IsTarget, (hf name hname).2]
        using ⟨(hf name hname).1, hbase, hlength, hreach, hfit⟩
  | .concat parts, h => isTargetAll_renamed hf (show IsTargetAll inner parts from h)
theorem isTargetAll_renamed {f : String → String} {inner outer : Widths}
    (hf : inner.Embeds f outer) :
    ∀ {parts : List Expr}, IsTargetAll inner parts → IsTargetAll outer (renamedAll f parts)
  | [], _ => trivial
  | part :: rest, ⟨hpart, hreach, hrest⟩ => by
      refine ⟨isTarget_renamed hf hpart, ?_, isTargetAll_renamed hf hrest⟩
      rw [size_renamed (reads_embed hf hpart.typed)]
      exact hreach
end

mutual
/-- A target consists of parts of signals that it names. -/
theorem mem_reads_of_region {width : String → Nat} :
    ∀ {e : Expr}, ∀ r ∈ e.regions width, r.name ∈ e.reads
  | .ident name, r, hr => by
      rw [List.mem_singleton.mp hr]
      exact List.mem_singleton_self name
  | .index name _, r, hr => by
      rw [List.mem_singleton.mp hr]
      exact List.mem_singleton_self name
  | .slice name _ _, r, hr => by
      rw [List.mem_singleton.mp hr]
      exact List.mem_singleton_self name
  | .concat parts, r, hr => mem_readsAll_of_region r (show r ∈ regionsAll width parts from hr)
  | .number _, _, hr => absurd hr List.not_mem_nil
  | .paren _, _, hr => absurd hr List.not_mem_nil
  | .not _, _, hr => absurd hr List.not_mem_nil
  | .binary _ _ _, _, hr => absurd hr List.not_mem_nil
  | .cond _ _ _, _, hr => absurd hr List.not_mem_nil
theorem mem_readsAll_of_region {width : String → Nat} :
    ∀ {parts : List Expr}, ∀ r ∈ regionsAll width parts,
    r.name ∈ readsAll parts
  | [], _, hr => absurd hr List.not_mem_nil
  | part :: rest, r, hr => by
      rcases List.mem_append.mp hr with hr | hr
      · exact List.mem_append_right _ (mem_readsAll_of_region r hr)
      · exact List.mem_append_left _ (mem_reads_of_region r hr)
end

end Expr

/-! ## Writing -/

/--
What writing a value, from bit `offset` on, to regions that do not overlap does
to a valuation: the regions hold the value, every other bit is as before, and
the valuation has an entry for each signal written to.
-/
structure Writes (widths : Widths) (rs : List Region) (offset : Nat) (value : Word)
    (v w : Valuation) : Prop where
  frame : ∀ name i, (∀ r ∈ rs, ¬ r.Covers name i) → (w.get name).getLsbD i = (v.get name).getLsbD i
  spread : rs.Pairwise Region.Apart → Spread w.get value offset rs
  tidy : w.Tidy widths
  mem_keys : ∀ name, name ∈ w.keys ↔ name ∈ v.keys ∨ ∃ r ∈ rs, r.name = name
  keys_eq : (∀ r ∈ rs, r.name ∈ v.keys) → w.keys = v.keys

theorem Writes.nil {widths : Widths} (offset : Nat) (value : Word) {v : Valuation}
    (hv : v.Tidy widths) : Writes widths [] offset value v v :=
  ⟨fun _ _ _ => rfl, fun _ => trivial, hv, by simp, fun _ => rfl⟩

/--
Writing to some regions and then to more of them, with the bits that are left,
writes to all: the second write cannot spoil the first where they are apart.
-/
theorem Writes.append {widths : Widths} {rs ts : List Region} {offset : Nat} {value : Word}
    {u v w : Valuation} (h : Writes widths rs offset value u v)
    (h' : Writes widths ts (offset + Region.total rs) value v w) :
    Writes widths (rs ++ ts) offset value u w where
  frame name i hout := by
    rw [h'.frame name i fun r hr => hout r (List.mem_append_right _ hr),
      h.frame name i fun r hr => hout r (List.mem_append_left _ hr)]
  spread hapart := by
    obtain ⟨hrs, hts, hcross⟩ := List.pairwise_append.mp hapart
    refine Spread.append.mpr ⟨Spread.congr ?_ (fun _ _ => rfl) (h.spread hrs), h'.spread hts⟩
    -- the second write leaves alone what the first one put into its regions
    intro r hr j hj
    have hcovers : r.Covers r.name (r.lo + j) := ⟨rfl, by omega, by omega⟩
    exact h'.frame _ _ fun s hs => (hcross r hr s hs).not_covers hcovers
  tidy := h'.tidy
  mem_keys name := by
    rw [h'.mem_keys, h.mem_keys]
    simp only [List.mem_append, or_and_right, exists_or, or_assoc]
  keys_eq hin := by
    have hv : v.keys = u.keys := h.keys_eq fun r hr => hin r (List.mem_append_left _ hr)
    rw [h'.keys_eq fun r hr => hv ▸ hin r (List.mem_append_right _ hr), hv]

theorem Writes.shift {widths : Widths} {rs : List Region} {offset : Nat} {value : Word}
    {v w : Valuation} (h : Writes widths rs 0 ((value.down offset).low (Region.total rs)) v w) :
    Writes widths rs offset value v w where
  frame := h.frame
  spread hapart := by
    refine Spread.congr (fun _ _ _ _ => rfl) (fun j hj => ?_) (h.spread hapart)
    simp [Word.getLsbD_low, Word.getLsbD_down, hj]
  tidy := h.tidy
  mem_keys := h.mem_keys
  keys_eq := h.keys_eq

/-- Writing to a part of a signal. -/
theorem writeSignal_ok {widths : Widths} {name : String} {part : Nat → Except Fault (Nat × Nat)}
    {lo length : Nat} {v : Valuation} (value : Word) (hv : v.Tidy widths)
    (hbound : widths.width name ≤ wordBits) (hname : widths.Declares name)
    (hpart : part (widths.width name) = .ok (lo, length)) (hreach : lo < wordBits)
    (hfit : lo + length ≤ widths.width name) :
    ∃ w, writeSignal widths v name part value = .ok w ∧
      Writes widths [⟨name, lo, length⟩] 0 value v w := by
  refine ⟨v.put name (((v.get name).splice lo length value).low (widths.width name)), ?_, ?_⟩
  · simp [writeSignal, Widths.get_of_declares hname, hpart, checkShift, hreach]
  -- every bit of the signal after the write; cutting to the width takes nothing away
  have hbit : ∀ i, (((v.get name).splice lo length value).low (widths.width name)).getLsbD i =
      if lo ≤ i ∧ i < lo + length then value.getLsbD (i - lo) else (v.get name).getLsbD i := by
    intro i
    rw [← hv.fits name, Word.getLsbD_low, Word.getLsbD_low, hv.fits name]
    by_cases hi : i < wordBits
    · rw [Word.getLsbD_splice _ _ _ _ _ hi]
      split
      · rename_i hin
        simp [Nat.lt_of_lt_of_le hin.2 hfit]
      · rfl
    · have hout : ¬ i < widths.width name := by omega
      have hregion : ¬ (lo ≤ i ∧ i < lo + length) := by omega
      simp [hout, hregion]
  refine ⟨?_, ?_, hv.put _ _, ?_, ?_⟩
  · intro other i hout
    rw [Valuation.get_put]
    split
    · rename_i heq
      have hregion : ¬ (lo ≤ i ∧ i < lo + length) :=
        fun hin => hout _ (List.mem_singleton_self _) ⟨heq.symm, hin⟩
      rw [hbit, if_neg hregion, heq]
    · rfl
  · intro _
    refine ⟨fun j hj => ?_, trivial⟩
    have hin : lo ≤ lo + j ∧ lo + j < lo + length := ⟨by omega, Nat.add_lt_add_left hj lo⟩
    rw [Valuation.get_put, if_pos rfl, hbit, if_pos hin, Nat.add_sub_cancel_left, Nat.zero_add]
  · intro other
    rw [Valuation.keys_put]
    split
    · rename_i hin
      simp only [List.mem_singleton, exists_eq_left, iff_self_or]
      exact fun heq => heq ▸ hin
    · simp [eq_comm]
  · intro hin
    rw [Valuation.keys_put, if_pos (hin _ (List.mem_singleton_self _))]

mutual
/-- Writing to a target succeeds. -/
theorem Expr.write_ok {widths : Widths} {v : Valuation} (hv : v.Tidy widths) (value : Word) :
    ∀ {e : Expr},
    e.IsTarget widths → (∀ name ∈ e.reads, widths.width name ≤ wordBits) →
    ∃ w, e.write widths v value = .ok w ∧ Writes widths (e.regions widths.width) 0 value v w
  | .ident name, h, hbound =>
      writeSignal_ok value hv (hbound name List.mem_cons_self) h rfl (by decide) (by omega)
  | .index name position, ⟨hname, hlit, hreach, hfit⟩, hbound => by
      obtain ⟨bits, hbits, hindex⟩ := Expr.eval_literal widths v hlit
      -- the position is a literal, so the region is the same in every valuation
      have hpart : (do let lo ← position.eval widths v; return (lo.value.toIndex, 1) : Except Fault
        (Nat × Nat)) =
          .ok (position.position, 1) := by
        rw [hbits, ok_bind, hindex]
        rfl
      exact writeSignal_ok value hv (hbound name List.mem_cons_self) hname hpart hreach hfit
  | .slice name base length, ⟨hname, hbase, hlength, hreach, hfit⟩, hbound => by
      obtain ⟨lo, hlo, hloIndex⟩ := Expr.eval_literal widths v hbase
      obtain ⟨len, hlen, hlenIndex⟩ := Expr.eval_literal widths v hlength
      have hpart : (do
            let lo ← base.eval widths v
            let len ← length.eval widths v
            return (lo.value.toIndex, len.value.toIndex) : Except Fault (Nat × Nat)) =
          .ok (base.position, length.position) := by
        rw [hlo, hlen, ok_bind, ok_bind, hloIndex, hlenIndex]
        rfl
      exact writeSignal_ok value hv (hbound name List.mem_cons_self) hname hpart hreach hfit
  | .concat parts, h, hbound => by
      obtain ⟨w, hw, hwrites⟩ :=
        Expr.writeParts_ok hv value (show Expr.IsTargetAll widths parts from h) hbound
      exact ⟨w, by rw [Expr.write, hw]; rfl, hwrites⟩
/--
Writing to parts side by side succeeds. The last part takes the lowest bits, and
what is handed on is the value moved down past all parts.
-/
theorem Expr.writeParts_ok {widths : Widths} {v : Valuation} (hv : v.Tidy widths) (value : Word) :
    ∀ {parts : List Expr}, Expr.IsTargetAll widths parts →
    (∀ name ∈ Expr.readsAll parts, widths.width name ≤ wordBits) →
    ∃ w, Expr.writeParts widths v value parts =
      .ok (value.down (Expr.sizeAll widths.width parts), w) ∧
      Writes widths (Expr.regionsAll widths.width parts) 0 value v w
  | [], _, _ => ⟨v, by simp [Expr.writeParts, Expr.sizeAll], Writes.nil 0 value hv⟩
  | part :: rest, ⟨hpart, _, hrest⟩, hbound => by
      -- the last part is least significant: the rest is written first, and shifted out of the value
      obtain ⟨u, hu, hwrites⟩ :=
        Expr.writeParts_ok hv value hrest fun n hn => hbound n (List.mem_append_right _ hn)
      obtain ⟨w, hw, hwrites'⟩ := Expr.write_ok hwrites.tidy
        ((value.down (Expr.sizeAll widths.width rest)).low (part.size widths.width)) hpart
        fun n hn => hbound n (List.mem_append_left _ hn)
      refine ⟨w, ?_, hwrites.append ?_⟩
      · rw [Expr.writeParts, hu, ok_bind]
        dsimp only
        rw [Expr.eval_eq u hpart.typed, ok_bind, hw, ok_bind, Word.down_down, Expr.sizeAll,
          Nat.add_comm]
        rfl
      · rw [← Expr.total_regions hpart, ← Expr.total_regionsAll hrest] at hwrites'
        rw [Nat.zero_add]
        exact hwrites'.shift
end

end Handshake
