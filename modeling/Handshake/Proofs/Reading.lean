import Mathlib.Algebra.Order.Ring.Int
import Handshake.Params
import Handshake.Proofs.Outcome

/-!
# What the accessors accept

A parameter is read by a typed accessor, and each accessor refuses in several
places. Here every accessor is turned into a condition on the map alone: which
value must stand under the key. Only the extra signals need an argument. They
are declared one by one, and a declaration looks at the names before it; since a
signal map never repeats a name, what is left of that is a condition on each
signal and one on the sum of the widths.

Conditions are stated with the integers that stand in the map, before they are
converted to numbers: `IntegerFrom` for a number of 32 bits with a lower bound,
`Legal` for extra signals. That a value is missing, of another type or out of
range makes no difference here, as all three are refused.
-/

namespace Handshake

namespace Params

/-- The parameter is an integer, at least `least` and of 32 bits. -/
def IntegerFrom (p : Params) (key : ParamKey) (least : Int) : Prop :=
  ∃ i : Int64, p.find? key = some (.int i) ∧ least ≤ i.toInt ∧ i.toInt ≤ 2 ^ 32 - 1

/-- The parameter is a truth value, or one of the integers that are taken for one. -/
def Boolean (p : Params) (key : ParamKey) : Prop :=
  (∃ b, p.find? key = some (.bool b)) ∨ p.find? key = some (.int 0) ∨ p.find? key = some (.int 1)

theorem require_ok_iff {p : Params} {key : ParamKey} {value : ParamValue} :
    p.require key = .ok value ↔ p.find? key = some value := by
  unfold require
  cases p.find? key <;> simp

theorem has_eq_false_iff {p : Params} {key : ParamKey} :
    p.has key = false ↔ p.find? key = none := by
  unfold has
  cases p.find? key <;> simp

theorem count_ok_iff {p : Params} {key : ParamKey} {n : Nat} :
    p.count key = .ok n ↔ ∃ i : Int64, p.find? key = some (.int i) ∧ i.toInt = n ∧
      n < countLimit := by
  unfold count
  rw [bind_eq_ok_iff]
  simp only [require_ok_iff]
  constructor
  · rintro ⟨value, hvalue, h⟩
    cases value with
    | int i =>
        dsimp only at h
        split at h
        · rename_i hrange
          cases h
          exact ⟨i, hvalue, by omega, by omega⟩
        · exact absurd h (by simp)
    | bool _ | str _ | signals _ => exact absurd h (by simp)
  · rintro ⟨i, hfind, hi, hn⟩
    refine ⟨.int i, hfind, ?_⟩
    dsimp only
    rw [if_pos (by omega), hi]
    rfl

/-- A number can be read if the parameter is an integer from zero on. -/
theorem exists_count_iff {p : Params} {key : ParamKey} :
    (∃ n, p.count key = .ok n) ↔ p.IntegerFrom key 0 := by
  simp only [count_ok_iff, countLimit, UInt32.size]
  constructor
  · rintro ⟨n, i, hfind, hi, hn⟩
    exact ⟨i, hfind, by omega, by omega⟩
  · rintro ⟨i, hfind, hlo, hhi⟩
    exact ⟨i.toInt.toNat, i, hfind, by omega, by omega⟩

/-- A positive number can be read if the parameter is an integer from one on. -/
theorem exists_count_pos_iff {p : Params} {key : ParamKey} :
    (∃ n, p.count key = .ok n ∧ n ≠ 0) ↔ p.IntegerFrom key 1 := by
  simp only [count_ok_iff, countLimit, UInt32.size]
  constructor
  · rintro ⟨n, ⟨i, hfind, hi, hn⟩, hpos⟩
    exact ⟨i, hfind, by omega, by omega⟩
  · rintro ⟨i, hfind, hlo, hhi⟩
    exact ⟨i.toInt.toNat, ⟨i, hfind, by omega, by omega⟩, by omega⟩

theorem exists_flag_iff {p : Params} {key : ParamKey} :
    (∃ b, p.flag key = .ok b) ↔ p.Boolean key := by
  unfold flag
  rw [exists_bind_ok]
  simp only [require_ok_iff]
  constructor
  · rintro ⟨value, hvalue, b, h⟩
    split at h
    · exact Or.inl ⟨_, hvalue⟩
    · exact Or.inr (Or.inl hvalue)
    · exact Or.inr (Or.inr hvalue)
    · exact absurd h (by simp)
  · rintro (⟨b, h⟩ | h | h)
    · exact ⟨_, h, b, rfl⟩
    · exact ⟨_, h, false, rfl⟩
    · exact ⟨_, h, true, rfl⟩

theorem exists_flagOr_iff {p : Params} {key : ParamKey} {default : Bool} :
    (∃ b, p.flagOr key default = .ok b) ↔ p.find? key = none ∨ p.Boolean key := by
  unfold flagOr
  cases h : p.has key with
  | false => simp [has_eq_false_iff.mp h]
  | true =>
      have hne : p.find? key ≠ none := fun hnone => by simp [has_eq_false_iff.mpr hnone] at h
      rw [if_pos rfl, exists_flag_iff, or_iff_right hne]

theorem countOr_ok_iff {p : Params} {key : ParamKey} {default n : Nat} :
    p.countOr key default = .ok n ↔ (p.find? key = none ∧ n = default) ∨ p.count key = .ok n := by
  unfold countOr
  cases h : p.has key with
  | false =>
      have hnone := has_eq_false_iff.mp h
      rw [count_ok_iff, hnone]
      simp [eq_comm]
  | true =>
      have hne : p.find? key ≠ none := fun hnone => by simp [has_eq_false_iff.mpr hnone] at h
      simp [hne]

theorem string_ok_iff {p : Params} {key : ParamKey} {text : String} :
    p.string key = .ok text ↔ p.find? key = some (.str text) := by
  unfold string
  rw [bind_eq_ok_iff]
  simp only [require_ok_iff]
  constructor
  · rintro ⟨value, hvalue, h⟩
    cases value with
    | str s =>
        cases h
        exact hvalue
    | bool _ | int _ | signals _ => exact absurd h (by simp)
  · intro h
    exact ⟨_, h, rfl⟩

end Params

/-! ## Extra signals -/

/-- Names with widths, as they stand in a signal map. -/
abbrev SignalList : Type := List (String × Int)

namespace SignalList

/--
Every name is an identifier, every width positive and of 32 bits, and so is the
sum of the widths.
-/
structure Legal (signals : SignalList) : Prop where
  names : ∀ s ∈ signals, isIdentifier s.1 = true
  widths : ∀ s ∈ signals, 1 ≤ s.2 ∧ s.2 ≤ 2 ^ 32 - 1
  total : (signals.map Prod.snd).sum ≤ 2 ^ 32 - 1

/-- No signal takes the name of a handshake signal. -/
def CollisionFree (signals : SignalList) : Prop := ∀ s ∈ signals, s.1 ≠ "valid" ∧ s.1 ≠ "ready"

/-- The signals with their widths as natural numbers. -/
def declared (signals : SignalList) : List ExtraSignal := signals.map fun s => ⟨s.1, s.2.toNat⟩

theorem sum_declared {signals : SignalList} (h : ∀ s ∈ signals, 1 ≤ s.2 ∧ s.2 ≤ 2 ^ 32 - 1) :
    (sumWidths signals.declared : Int) = (signals.map Prod.snd).sum := by
  induction signals with
  | nil => rfl
  | cons s rest ih =>
      have hs := (h s List.mem_cons_self).1
      have hrest := ih fun t ht => h t (List.mem_cons_of_mem _ ht)
      simp only [declared, List.map_cons, sumWidths, List.sum_cons] at hrest ⊢
      omega

end SignalList

namespace ExtraSignals

theorem declare_ok_iff {seen result : { signals : List ExtraSignal // Declarable signals }}
    {name : String} {width : Int} :
    declare seen name width = .ok result ↔
      isIdentifier name = true ∧ name ∉ seen.val.map ExtraSignal.name ∧
        (0 < width ∧ width < countLimit) ∧
        result.val = seen.val ++ [⟨name, width.toNat⟩] := by
  unfold declare
  split
  · rename_i hname
    split
    · rename_i hin
      simp [hin]
    · rename_i hnew
      split
      · rename_i hwidth
        rw [Except.ok.injEq, Subtype.ext_iff, eq_comm]
        exact ⟨fun h => ⟨hname, hnew, hwidth, h⟩, fun h => h.2.2.2⟩
      · rename_i hwidth
        simp [hwidth]
  · rename_i hname
    simp [hname]

/-- Signals that are declared one after the other, none of them under a name that is taken. -/
theorem declareAll_ok_iff {pairs : SignalList}
    {seen result : { signals : List ExtraSignal // Declarable signals }}
    (hnodup : (seen.val.map ExtraSignal.name ++ pairs.map Prod.fst).Nodup) :
    pairs.foldlM (fun seen pair => declare seen pair.1 pair.2) seen = .ok result ↔
      (∀ s ∈ pairs, isIdentifier s.1 = true ∧ 0 < s.2 ∧ s.2 < countLimit) ∧
        result.val = seen.val ++ pairs.declared := by
  induction pairs generalizing seen with
  | nil =>
      rw [List.foldlM_nil, pure_eq_ok, Except.ok.injEq, Subtype.ext_iff, eq_comm]
      simp [SignalList.declared]
  | cons pair rest ih =>
      obtain ⟨name, width⟩ := pair
      have hfresh : name ∉ seen.val.map ExtraSignal.name := by
        intro hin
        exact (List.nodup_append.mp hnodup).2.2 name hin name List.mem_cons_self rfl
      -- the names seen and those to come stay the same list, cut one further on
      have hshift : ∀ next : { signals : List ExtraSignal // Declarable signals },
          next.val = seen.val ++ [⟨name, width.toNat⟩] →
          (next.val.map ExtraSignal.name ++ rest.map Prod.fst).Nodup := by
        intro next hnext
        rw [hnext]
        simpa using hnodup
      rw [List.foldlM_cons, bind_eq_ok_iff]
      constructor
      · rintro ⟨next, hdeclare, hrest⟩
        obtain ⟨hname, -, hwidth, hnext⟩ := declare_ok_iff.mp hdeclare
        obtain ⟨hall, hresult⟩ := (ih (hshift next hnext)).mp hrest
        refine ⟨?_, ?_⟩
        · intro s hs
          rcases List.mem_cons.mp hs with rfl | hs
          · exact ⟨hname, hwidth⟩
          · exact hall s hs
        · rw [hresult, hnext]
          simp [SignalList.declared]
      · rintro ⟨hall, hresult⟩
        obtain ⟨hname, hwidth⟩ := hall _ List.mem_cons_self
        have hpos : 0 < width.toNat := by omega
        refine ⟨⟨seen.val ++ [⟨name, width.toNat⟩],
          declarable_concat seen.property hname hfresh hpos⟩, ?_, ?_⟩
        · exact declare_ok_iff.mpr ⟨hname, hfresh, hwidth, rfl⟩
        · refine (ih (hshift _ rfl)).mpr ⟨fun s hs => hall s (List.mem_cons_of_mem _ hs), ?_⟩
          rw [hresult]
          simp [SignalList.declared]

theorem declareAll_val {pairs : SignalList}
    {seen result : { signals : List ExtraSignal // Declarable signals }}
    (h : pairs.foldlM (fun seen pair => declare seen pair.1 pair.2) seen = .ok result) :
    result.val = seen.val ++ pairs.declared := by
  induction pairs generalizing seen with
  | nil =>
      rw [List.foldlM_nil, pure_eq_ok, Except.ok.injEq] at h
      simp [h, SignalList.declared]
  | cons pair rest ih =>
      rw [List.foldlM_cons] at h
      obtain ⟨next, hdeclare, hrest⟩ := bind_ok h
      rw [ih hrest, (declare_ok_iff.mp hdeclare).2.2.2]
      simp [SignalList.declared]

/-- Signals that are accepted have distinct names. -/
theorem nodup_of_ofPairs {pairs : SignalList} {extra : ExtraSignals}
    (h : ofPairs pairs = .ok extra) : (pairs.map Prod.fst).Nodup := by
  obtain ⟨declared, hdeclared, -⟩ := bind_ok h
  have hnames := declared.property.2
  rw [declareAll_val hdeclared] at hnames
  simpa [SignalList.declared, Function.comp_def] using hnames

/-- Signals under distinct names are accepted if they are legal, and then as they stand. -/
theorem ofPairs_ok_iff {pairs : SignalList} {extra : ExtraSignals}
    (hnodup : (pairs.map Prod.fst).Nodup) :
    ofPairs pairs = .ok extra ↔ pairs.Legal ∧ extra.signals = pairs.declared := by
  have hstart :
      ((⟨[], by simp [Declarable]⟩ : { signals : List ExtraSignal // Declarable signals }).val.map
      ExtraSignal.name ++ pairs.map Prod.fst).Nodup := by simpa using hnodup
  unfold ofPairs
  rw [bind_eq_ok_iff]
  constructor
  · rintro ⟨declared, hdeclared, h⟩
    obtain ⟨hall, hval⟩ := (declareAll_ok_iff hstart).mp hdeclared
    rw [List.nil_append] at hval
    -- what the reader rejects as too wide is what does not fit a count
    have hwidths : ∀ s ∈ pairs, 1 ≤ s.2 ∧ s.2 ≤ 2 ^ 32 - 1 := by
      intro s hs
      have := (hall s hs).2
      unfold countLimit UInt32.size at this
      omega
    split at h
    · rename_i hsum
      cases h
      refine ⟨⟨fun s hs => (hall s hs).1, hwidths, ?_⟩, hval⟩
      rw [hval] at hsum
      have := SignalList.sum_declared hwidths
      unfold countLimit UInt32.size at hsum
      omega
    · exact absurd h (by simp)
  · rintro ⟨hlegal, hsignals⟩
    refine ⟨⟨extra.signals, extra.declarable⟩, (declareAll_ok_iff hstart).mpr ⟨?_, ?_⟩, ?_⟩
    · intro s hs
      have := hlegal.widths s hs
      refine ⟨hlegal.names s hs, ?_⟩
      unfold countLimit UInt32.size
      omega
    · rw [List.nil_append]
      exact hsignals
    · dsimp only
      rw [dif_pos extra.fits]

end ExtraSignals

namespace Params

/--
The signals that parameters list: those of the signal map, or none if there is
no such parameter.
-/
def Lists (p : Params) (signals : SignalList) : Prop :=
  (p.find? .extraSignals = none ∧ signals = []) ∨
    ∃ m, p.find? .extraSignals = some (.signals m) ∧
      signals = m.entries.map fun (name, width) => (name, width.toInt)

theorem Lists.nodup {p : Params} {signals : SignalList} (h : p.Lists signals) :
    (signals.map Prod.fst).Nodup := by
  rcases h with ⟨-, rfl⟩ | ⟨m, -, rfl⟩
  · exact List.nodup_nil
  · rw [List.map_map]
    exact m.nodup

theorem extraSignals_ok_iff {p : Params} {extra : ExtraSignals} :
    p.extraSignals = .ok extra ↔
      ∃ signals, p.Lists signals ∧ signals.Legal ∧ extra.signals = signals.declared := by
  have hread : ∀ m, p.find? .extraSignals = some (.signals m) →
      p.extraSignals = ExtraSignals.ofPairs
        (m.entries.map fun (name, width) => (name, width.toInt)) := by
    intro m hm
    unfold extraSignals
    rw [hm]
  have habsent : p.find? .extraSignals = none → p.extraSignals = ExtraSignals.ofPairs [] := by
    intro hnone
    unfold extraSignals
    rw [hnone]
    rfl
  constructor
  · intro h
    cases hfind : p.find? .extraSignals with
    | none =>
        have hlists : p.Lists [] := Or.inl ⟨hfind, rfl⟩
        rw [habsent hfind] at h
        exact ⟨[], hlists, (ExtraSignals.ofPairs_ok_iff hlists.nodup).mp h⟩
    | some value =>
        cases value with
        | signals m =>
            have hlists : p.Lists _ := Or.inr ⟨m, hfind, rfl⟩
            rw [hread m hfind] at h
            exact ⟨_, hlists, (ExtraSignals.ofPairs_ok_iff hlists.nodup).mp h⟩
        | bool _ | int _ | str _ =>
            unfold extraSignals at h
            rw [hfind] at h
            exact absurd h (by simp)
  · rintro ⟨signals, hlists, hlegal⟩
    have hok := (ExtraSignals.ofPairs_ok_iff hlists.nodup).mpr hlegal
    rcases hlists with ⟨hfind, rfl⟩ | ⟨m, hfind, rfl⟩
    · rw [habsent hfind, hok]
    · rw [hread m hfind, hok]

/-- Legal signals are what the accessor gives. -/
theorem exists_extraSignals {p : Params} {signals : SignalList} (hlists : p.Lists signals)
    (hlegal : signals.Legal) :
    ∃ extra, p.extraSignals = .ok extra ∧ extra.signals = signals.declared := by
  have hdeclarable : Declarable signals.declared := by
    refine ⟨?_, ?_⟩
    · intro s hs
      obtain ⟨pair, hpair, rfl⟩ := List.mem_map.mp hs
      have := hlegal.widths pair hpair
      exact ⟨hlegal.names pair hpair, by dsimp only; omega⟩
    · have hnames : signals.declared.map ExtraSignal.name = signals.map Prod.fst := by
        simp [SignalList.declared]
      rw [hnames]
      exact hlists.nodup
  have hfits : sumWidths signals.declared < countLimit := by
    have := SignalList.sum_declared hlegal.widths
    have := hlegal.total
    unfold countLimit UInt32.size
    omega
  exact ⟨⟨_, hdeclarable, hfits⟩, extraSignals_ok_iff.mpr ⟨signals, hlists, hlegal, rfl⟩, rfl⟩

end Params

end Handshake
