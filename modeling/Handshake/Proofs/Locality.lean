import Handshake.Proofs.Outcome
import Handshake.Proofs.Writing

/-!
# What evaluation and writing depend on

`Denotation` and `Writing` give typed expressions their meaning. This file is
about expressions as they come: selects at computed positions, signals wider
than a word, names that nobody declared. They may stop with a fault, so every
statement starts from an evaluation or a write that went through.

Three things are said of them. Evaluation looks only at the values of the names
that occur, and so does a write. A write is a sequence of puts into names that
it mentions, each cut to the declared width (`Stores`); frame, tidiness and the
order of entries all follow from that. And a write to a *range*, a target whose
positions are literals, does the same thing to any two valuations: it succeeds
on both or on neither, and the bits that it covers come out equal.
-/

namespace Handshake

namespace Expr

mutual
/-- The names that occur in an expression, those in its positions included. -/
def names : Expr → List String
  | .number _ => []
  | .ident name => [name]
  | .index name position => name :: names position
  | .slice name base length => name :: (names base ++ names length)
  | .concat parts => namesAll parts
  | .paren inner => names inner
  | .not operand => names operand
  | .binary _ lhs rhs => names lhs ++ names rhs
  | .cond test onTrue onFalse => names test ++ (names onTrue ++ names onFalse)
/-- The names that occur in some expressions. -/
def namesAll : List Expr → List String
  | [] => []
  | part :: rest => names part ++ namesAll rest
end

mutual
/-- What an expression reads occurs in it. Positions occur in it as well. -/
theorem reads_subset_names : ∀ (e : Expr), ∀ name ∈ e.reads, name ∈ e.names
  | .number _, _, h => h
  | .ident _, _, h => h
  | .index _ _, _, h => List.mem_cons.mpr (Or.inl (List.mem_singleton.mp h))
  | .slice _ _ _, _, h => List.mem_cons.mpr (Or.inl (List.mem_singleton.mp h))
  | .concat parts, name, h => readsAll_subset_names parts name h
  | .paren inner, name, h => reads_subset_names inner name h
  | .not operand, name, h => reads_subset_names operand name h
  | .binary _ lhs rhs, name, h => by
      simp only [reads, names, List.mem_append] at h ⊢
      exact h.imp (reads_subset_names lhs name) (reads_subset_names rhs name)
  | .cond test onTrue onFalse, name, h => by
      simp only [reads, names, List.mem_append] at h ⊢
      exact h.imp (reads_subset_names test name)
        (Or.imp (reads_subset_names onTrue name) (reads_subset_names onFalse name))
theorem readsAll_subset_names :
    ∀ (parts : List Expr), ∀ name ∈ readsAll parts, name ∈ namesAll parts
  | [], _, h => h
  | part :: rest, name, h => by
      simp only [readsAll, namesAll, List.mem_append] at h ⊢
      exact h.imp (reads_subset_names part name) (readsAll_subset_names rest name)
end

theorem IsLiteral.names_eq {e : Expr} (h : e.IsLiteral) : e.names = [] := by
  cases e with
  | number _ => rfl
  | _ => exact absurd h (by simp [IsLiteral])

mutual
/-- The positions of a typed expression are literals, so it names only what it reads. -/
theorem names_subset_reads {widths : Widths} :
    ∀ {e : Expr}, e.Typed widths → ∀ name ∈ e.names, name ∈ e.reads
  | .number _, _, _, h => h
  | .ident _, _, _, h => h
  | .index _ _, ⟨_, hlit, _⟩, _, h => by
      rw [names, hlit.names_eq] at h
      exact h
  | .slice _ _ _, ⟨_, hbase, hlength, _⟩, _, h => by
      rw [names, hbase.names_eq, hlength.names_eq] at h
      exact h
  | .concat parts, hparts, name, h =>
      namesAll_subset_reads (show TypedAll widths parts from hparts) name h
  | .paren inner, hinner, name, h => names_subset_reads (show inner.Typed widths from hinner) name h
  | .not operand, hoperand, name, h =>
      names_subset_reads (show operand.Typed widths from hoperand) name h
  | .binary _ _ _, ⟨hlhs, hrhs⟩, name, h => by
      simp only [reads, names, List.mem_append] at h ⊢
      exact h.imp (names_subset_reads hlhs name) (names_subset_reads hrhs name)
  | .cond _ _ _, ⟨htest, htrue, hfalse⟩, name, h => by
      simp only [reads, names, List.mem_append] at h ⊢
      exact h.imp (names_subset_reads htest name)
        (Or.imp (names_subset_reads htrue name) (names_subset_reads hfalse name))
theorem namesAll_subset_reads {widths : Widths} : ∀ {parts : List Expr}, TypedAll widths parts →
    ∀ name ∈ namesAll parts, name ∈ readsAll parts
  | [], _, _, h => h
  | _ :: _, ⟨hpart, _, hrest⟩, name, h => by
      simp only [readsAll, namesAll, List.mem_append] at h ⊢
      exact h.imp (names_subset_reads hpart name) (namesAll_subset_reads hrest name)
end

section
variable {widths : Widths} {v w : Valuation}

mutual
/-- An expression evaluates alike where the names that occur in it have the same values. -/
theorem eval_congr : ∀ {e : Expr}, (∀ name ∈ e.names, v.get name = w.get name) →
    e.eval widths v = e.eval widths w
  | .number _, _ => rfl
  | .ident name, h => by
      simp only [eval]
      rw [h name List.mem_cons_self]
  | .index name position, h => by
      simp only [eval]
      rw [h name List.mem_cons_self, eval_congr fun n hn => h n (List.mem_cons_of_mem _ hn)]
  | .slice name base length, h => by
      simp only [eval]
      rw [h name List.mem_cons_self,
        eval_congr fun n hn => h n (List.mem_cons_of_mem _ (List.mem_append_left _ hn)),
        eval_congr fun n hn => h n (List.mem_cons_of_mem _ (List.mem_append_right _ hn))]
  | .concat parts, h => by
      simp only [eval]
      exact evalParts_congr (show ∀ name ∈ namesAll parts, _ from h) ⟨0, 0⟩
  | .paren inner, h => by
      simp only [eval]
      exact eval_congr (show ∀ name ∈ inner.names, _ from h)
  | .not operand, h => by
      simp only [eval]
      rw [eval_congr (show ∀ name ∈ operand.names, _ from h)]
  | .binary _ lhs rhs, h => by
      simp only [eval]
      rw [eval_congr fun n hn => h n (List.mem_append_left _ hn),
        eval_congr fun n hn => h n (List.mem_append_right _ hn)]
  | .cond test onTrue onFalse, h => by
      simp only [eval]
      rw [eval_congr fun n hn => h n (List.mem_append_left _ hn),
        eval_congr fun n hn => h n (List.mem_append_right _ (List.mem_append_left _ hn)),
        eval_congr fun n hn => h n (List.mem_append_right _ (List.mem_append_right _ hn))]
/-- Parts side by side, likewise, whatever stands above them. -/
theorem evalParts_congr :
    ∀ {parts : List Expr}, (∀ name ∈ namesAll parts, v.get name = w.get name) →
    ∀ above, evalParts widths v above parts = evalParts widths w above parts
  | [], _, _ => rfl
  | part :: rest, h, above => by
      simp only [evalParts]
      rw [eval_congr fun n hn => h n (List.mem_append_left _ hn)]
      refine bind_congr fun bits => bind_congr fun both => ?_
      exact evalParts_congr (fun n hn => h n (List.mem_append_right _ hn)) both
end

end

end Expr

/-! ## What a write depends on -/

section

variable {widths : Widths} {P : String → Prop}

/-- Two valuations that agree on some names still do after the same write to one of them. -/
theorem writeSignal_local {v v' w : Valuation} {value : Word} {name : String}
    {part part' : Nat → Except Fault (Nat × Nat)} (hname : P name)
    (hagree : ∀ n, P n → w.get n = v.get n) (hpart : ∀ width, part' width = part width)
    (h : writeSignal widths v name part value = .ok v') :
    ∃ w', writeSignal widths w name part' value = .ok w' ∧ ∀ n, P n → w'.get n = v'.get n := by
  obtain ⟨width, hwidth, h⟩ := bind_ok h
  obtain ⟨⟨lo, length⟩, hlo, h⟩ := bind_ok h
  obtain ⟨_, hshift, h⟩ := bind_ok h
  cases h
  refine ⟨w.put name (((w.get name).splice lo length value).low width), ?_, fun n hn => ?_⟩
  · exact bind_ok_of hwidth (bind_ok_of ((hpart width).trans hlo) (bind_ok_of hshift rfl))
  · rw [Valuation.get_put, Valuation.get_put, hagree name hname, hagree n hn]

namespace Expr

mutual
/-- A write does the same wherever the names that occur in its target have the same values. -/
theorem write_local {v v' w : Valuation} {value : Word} (hagree : ∀ n, P n → w.get n = v.get n) :
    ∀ {e : Expr},
    (∀ n ∈ e.names, P n) → e.write widths v value = .ok v' →
    ∃ w', e.write widths w value = .ok w' ∧ ∀ n, P n → w'.get n = v'.get n
  | .ident name, hnames, h =>
      writeSignal_local (hnames name List.mem_cons_self) hagree (fun _ => rfl) h
  | .index name position, hnames, h => by
      have hposition : position.eval widths w = position.eval widths v :=
        eval_congr fun n hn => hagree n (hnames n (List.mem_cons_of_mem _ hn))
      refine writeSignal_local (hnames name List.mem_cons_self) hagree (fun _ => ?_) h
      rw [hposition]
  | .slice name base length, hnames, h => by
      have hbase : base.eval widths w = base.eval widths v :=
        eval_congr fun n hn => hagree n
          (hnames n (List.mem_cons_of_mem _ (List.mem_append_left _ hn)))
      have hlength : length.eval widths w = length.eval widths v :=
        eval_congr fun n hn => hagree n
          (hnames n (List.mem_cons_of_mem _ (List.mem_append_right _ hn)))
      refine writeSignal_local (hnames name List.mem_cons_self) hagree (fun _ => ?_) h
      rw [hbase, hlength]
  | .concat parts, hnames, h => by
      obtain ⟨⟨left, written⟩, h, hwritten⟩ := bind_ok h
      cases hwritten
      obtain ⟨w', hw', hsame⟩ :=
        writeParts_local hagree (show ∀ n ∈ namesAll parts, P n from hnames) h
      exact ⟨w', bind_ok_of hw' rfl, hsame⟩
  | .number _, _, h | .paren _, _, h | .not _, _, h | .binary _ _ _, _, h | .cond _ _ _, _, h =>
      absurd h (by simp [write])
theorem writeParts_local {v v' w : Valuation} {value left : Word}
    (hagree : ∀ n, P n → w.get n = v.get n) :
    ∀ {parts : List Expr}, (∀ n ∈ namesAll parts, P n) →
    writeParts widths v value parts = .ok (left, v') →
    ∃ w', writeParts widths w value parts = .ok (left, w') ∧ ∀ n, P n → w'.get n = v'.get n
  | [], _, h => by
      cases h
      exact ⟨w, rfl, hagree⟩
  | part :: rest, hnames, h => by
      obtain ⟨⟨above, u⟩, hu, h⟩ := bind_ok h
      obtain ⟨bits, hbits, h⟩ := bind_ok h
      obtain ⟨u', hu', h⟩ := bind_ok h
      cases h
      have hpart : ∀ n ∈ part.names, P n := fun n hn => hnames n (List.mem_append_left _ hn)
      obtain ⟨x, hx, hsame⟩ :=
        writeParts_local hagree (fun n hn => hnames n (List.mem_append_right _ hn)) hu
      have hbits' : part.eval widths x = .ok bits :=
        (eval_congr fun n hn => hsame n (hpart n hn)).trans hbits
      obtain ⟨x', hx', hsame'⟩ := write_local hsame hpart hu'
      exact ⟨x', bind_ok_of hx (bind_ok_of hbits' (bind_ok_of hx' rfl)), hsame'⟩
end

end Expr

end

/-! ## Writes as sequences of puts -/

/--
A valuation is reached from another by puts into some declared names, each cut
to the declared width.
-/
inductive Stores (widths : Widths) (names : List String) : Valuation → Valuation → Prop where
  | refl (v : Valuation) : Stores widths names v v
  | put {v w : Valuation} (name : String) (value : Word) : name ∈ names → widths.Declares name →
      Stores widths names v w → Stores widths names v (w.put name (value.low (widths.width name)))

namespace Stores

variable {widths : Widths} {names : List String} {u v w : Valuation}

/-- Puts after puts are puts. -/
theorem trans (h : Stores widths names u v) (h' : Stores widths names v w) :
    Stores widths names u w := by
  induction h' with
  | refl => exact h
  | put name value hname hdeclared _ ih => exact .put name value hname hdeclared ih

theorem mono {names' : List String} (h : Stores widths names v w)
    (hsub : ∀ name ∈ names, name ∈ names') : Stores widths names' v w := by
  induction h with
  | refl => exact .refl _
  | put name value hname hdeclared _ ih => exact .put name value (hsub name hname) hdeclared ih

/-- Other names keep their values. -/
theorem frame (h : Stores widths names v w) {name : String} (hname : name ∉ names) :
    w.get name = v.get name := by
  induction h with
  | refl => rfl
  | put other value hother _ _ ih =>
      rw [Valuation.get_put, if_neg (fun heq : name = other => hname (heq ▸ hother)), ih]

/-- Puts that are cut to the widths of their signals keep a valuation tidy. -/
theorem tidy (h : Stores widths names v w) (hv : v.Tidy widths) : w.Tidy widths := by
  induction h with
  | refl => exact hv
  | put name value _ _ _ ih => exact ih.put name value

/-- No entry is ever removed. -/
theorem keys_mono (h : Stores widths names v w) : ∀ name ∈ v.keys, name ∈ w.keys := by
  induction h with
  | refl => exact fun _ h => h
  | put other value _ _ _ ih =>
      intro name hname
      rw [Valuation.keys_put]
      split
      · exact ih name hname
      · exact List.mem_append_left _ (ih name hname)

/-- Entries keep their order once all names have one. -/
theorem keys_eq (h : Stores widths names v w) (hkeys : ∀ name ∈ names, name ∈ v.keys) :
    w.keys = v.keys := by
  induction h with
  | refl => rfl
  | put name value hname _ _ ih => rw [Valuation.keys_put, if_pos (ih ▸ hkeys name hname), ih]

end Stores

section
variable {widths : Widths}

theorem Widths.get_ok {name : String} {width : Nat} (h : widths.get name = .ok width) :
    widths.Declares name ∧ width = widths.width name := by
  unfold Widths.get at h
  unfold Widths.Declares Widths.width
  cases hl : widths.entries.lookup name with
  | none =>
      rw [hl] at h
      exact absurd h (by simp)
  | some n =>
      rw [hl] at h
      exact ⟨rfl, (Except.ok.inj h).symm⟩

theorem checkShift_ok {n : Nat} {u : Unit} (h : checkShift n = .ok u) : n < wordBits := by
  unfold checkShift at h
  split at h
  · assumption
  · exact absurd h (by simp)

/-- A write into a part of a signal is one put. -/
theorem writeSignal_eq {v w : Valuation} {name : String} {part : Nat → Except Fault (Nat × Nat)}
    {value : Word} (h : writeSignal widths v name part value = .ok w) :
    widths.Declares name ∧ ∃ lo length, part (widths.width name) = .ok (lo, length) ∧
      lo < wordBits ∧
      w = v.put name (((v.get name).splice lo length value).low (widths.width name)) := by
  unfold writeSignal at h
  obtain ⟨width, hwidth, h⟩ := bind_ok h
  obtain ⟨⟨lo, length⟩, hpart, h⟩ := bind_ok h
  obtain ⟨_, hshift, h⟩ := bind_ok h
  obtain ⟨hdeclared, rfl⟩ := Widths.get_ok hwidth
  exact ⟨hdeclared, lo, length, hpart, checkShift_ok hshift, (Except.ok.inj h).symm⟩

/-- A write to a part of a signal is one put. -/
theorem writeSignal_stores {v w : Valuation} {name : String} {part : Nat → Except Fault (Nat × Nat)}
    {value : Word} (h : writeSignal widths v name part value = .ok w) :
    Stores widths [name] v w ∧ name ∈ w.keys := by
  obtain ⟨hdeclared, lo, length, -, -, rfl⟩ := writeSignal_eq h
  refine ⟨.put name _ (List.mem_singleton_self name) hdeclared (.refl v), ?_⟩
  rw [Valuation.keys_put]
  split
  · assumption
  · exact List.mem_append_right _ (List.mem_singleton_self name)

mutual
/-- A write puts something into the names that its target selects from, and into no others. -/
theorem Expr.write_stores {v w : Valuation} {value : Word} :
    ∀ {e : Expr}, e.write widths v value = .ok w →
    Stores widths e.reads v w ∧ ∀ name ∈ e.reads, name ∈ w.keys
  | .ident name, h => by
      obtain ⟨hstores, hkey⟩ := writeSignal_stores h
      exact ⟨hstores, fun n hn => List.mem_singleton.mp hn ▸ hkey⟩
  | .index name position, h => by
      obtain ⟨hstores, hkey⟩ := writeSignal_stores h
      exact ⟨hstores, fun n hn => List.mem_singleton.mp hn ▸ hkey⟩
  | .slice name base length, h => by
      obtain ⟨hstores, hkey⟩ := writeSignal_stores h
      exact ⟨hstores, fun n hn => List.mem_singleton.mp hn ▸ hkey⟩
  | .concat parts, h => by
      obtain ⟨⟨left, written⟩, hparts, h⟩ := bind_ok h
      cases h
      exact Expr.writeParts_stores hparts
  | .number _, h | .paren _, h | .not _, h | .binary _ _ _, h | .cond _ _ _, h =>
      absurd h (by simp [Expr.write])
theorem Expr.writeParts_stores {v w : Valuation} {value left : Word} : ∀ {parts : List Expr},
    Expr.writeParts widths v value parts = .ok (left, w) →
    Stores widths (Expr.readsAll parts) v w ∧ ∀ name ∈ Expr.readsAll parts, name ∈ w.keys
  | [], h => by
      cases h
      exact ⟨.refl v, fun _ hn => absurd hn List.not_mem_nil⟩
  | part :: rest, h => by
      obtain ⟨⟨above, u⟩, hrest, h⟩ := bind_ok h
      obtain ⟨bits, -, h⟩ := bind_ok h
      obtain ⟨u', hpart, h⟩ := bind_ok h
      cases h
      obtain ⟨hstores, hkeys⟩ := Expr.writeParts_stores hrest
      obtain ⟨hstores', hkeys'⟩ := Expr.write_stores hpart
      refine ⟨(hstores.mono fun n hn => List.mem_append_right _ hn).trans
        (hstores'.mono fun n hn => List.mem_append_left _ hn), fun n hn => ?_⟩
      rcases List.mem_append.mp hn with hn | hn
      · exact hkeys' n hn
      · exact hstores'.keys_mono n (hkeys n hn)
end

end

/-! ## Ranges -/

namespace Expr

mutual
/-- A target whose positions are all literals. -/
def IsRange : Expr → Prop
  | .ident _ => True
  | .index _ position => position.IsLiteral
  | .slice _ base length => base.IsLiteral ∧ length.IsLiteral
  | .concat parts => IsRangeAll parts
  | .number _ | .paren _ | .not _ | .binary _ _ _ | .cond _ _ _ => False
/-- Targets whose positions are all literals. -/
def IsRangeAll : List Expr → Prop
  | [] => True
  | part :: rest => IsRange part ∧ IsRangeAll rest
end

mutual
/-- An expression whose positions are all literals. -/
def Fixed : Expr → Prop
  | .number _ | .ident _ => True
  | .index _ position => position.IsLiteral
  | .slice _ base length => base.IsLiteral ∧ length.IsLiteral
  | .concat parts => FixedAll parts
  | .paren inner => Fixed inner
  | .not operand => Fixed operand
  | .binary _ lhs rhs => Fixed lhs ∧ Fixed rhs
  | .cond test onTrue onFalse => Fixed test ∧ Fixed onTrue ∧ Fixed onFalse
/-- Expressions whose positions are all literals. -/
def FixedAll : List Expr → Prop
  | [] => True
  | part :: rest => Fixed part ∧ FixedAll rest
end

mutual
/-- Positions that are literals are fixed. -/
theorem IsRange.fixed : ∀ {e : Expr}, e.IsRange → e.Fixed
  | .ident _, _ => trivial
  | .index _ _, h => h
  | .slice _ _ _, h => h
  | .concat parts, h => IsRangeAll.fixed (show IsRangeAll parts from h)
theorem IsRangeAll.fixed : ∀ {parts : List Expr}, IsRangeAll parts → FixedAll parts
  | [], _ => trivial
  | _ :: _, ⟨hpart, hrest⟩ => ⟨hpart.fixed, IsRangeAll.fixed hrest⟩
end

section
variable {widths : Widths}

mutual
/-- A target in the sense of typed expressions is a range. -/
theorem IsTarget.isRange : ∀ {e : Expr}, e.IsTarget widths → e.IsRange
  | .ident _, _ => trivial
  | .index _ _, ⟨_, hlit, _⟩ => hlit
  | .slice _ _ _, ⟨_, hbase, hlength, _⟩ => ⟨hbase, hlength⟩
  | .concat parts, h => IsTargetAll.isRange (show IsTargetAll widths parts from h)
theorem IsTargetAll.isRange : ∀ {parts : List Expr}, IsTargetAll widths parts → IsRangeAll parts
  | [], _ => trivial
  | _ :: _, ⟨hpart, _, hrest⟩ => ⟨hpart.isRange, IsTargetAll.isRange hrest⟩
end

/-- A position that is a literal is where it says, in any valuation. -/
theorem toIndex_literal {v : Valuation} {e : Expr} {bits : Bits} (h : e.IsLiteral)
    (he : e.eval widths v = .ok bits) : bits.value.toIndex = e.position := by
  obtain ⟨bits', hbits', hindex⟩ := eval_literal widths v h
  rw [he, Except.ok.injEq] at hbits'
  exact hbits' ▸ hindex

mutual
/--
Widths do not depend on values: what can be evaluated in one valuation can be in
all, with the same width.
-/
theorem eval_fixed {v : Valuation} (w : Valuation) : ∀ {e : Expr} {bits : Bits}, e.Fixed →
    e.eval widths v = .ok bits → ∃ bits', e.eval widths w = .ok bits' ∧ bits'.width = bits.width
  | .number _, bits, _, h => ⟨bits, h, rfl⟩
  | .ident name, bits, _, h => by
      obtain ⟨width, hwidth, h⟩ := bind_ok h
      cases h
      exact ⟨⟨w.get name, width⟩, by simp [eval, hwidth], rfl⟩
  | .index name position, bits, hlit, h => by
      obtain ⟨lo, hlo, h⟩ := bind_ok h
      obtain ⟨_, hshift, h⟩ := bind_ok h
      cases h
      obtain ⟨lo', hlo', hindex⟩ := eval_literal widths w hlit
      rw [toIndex_literal hlit hlo, ← hindex] at hshift
      exact ⟨⟨((w.get name).down lo'.value.toIndex).low 1, 1⟩,
        by simp [eval, hlo', Word.field, hshift], rfl⟩
  | .slice name base length, bits, ⟨hbase, hlength⟩, h => by
      obtain ⟨lo, hlo, h⟩ := bind_ok h
      obtain ⟨len, hlen, h⟩ := bind_ok h
      obtain ⟨_, hshift, h⟩ := bind_ok h
      cases h
      obtain ⟨lo', hlo', hindex⟩ := eval_literal widths w hbase
      obtain ⟨len', hlen', hsize⟩ := eval_literal widths w hlength
      rw [toIndex_literal hbase hlo, ← hindex] at hshift
      refine ⟨⟨((w.get name).down lo'.value.toIndex).low len'.value.toIndex, len'.value.toIndex⟩,
        ?_, ?_⟩
      · simp [eval, hlo', hlen', Word.field, hshift]
      · dsimp only
        rw [hsize, toIndex_literal hlength hlen]
  | .concat parts, bits, hparts, h => evalParts_fixed w (show FixedAll parts from hparts) rfl h
  | .paren inner, bits, hinner, h => eval_fixed w (e := inner) hinner h
  | .not operand, bits, hoperand, h => by
      obtain ⟨b, hb, h⟩ := bind_ok h
      cases h
      obtain ⟨b', hb', hwidth⟩ := eval_fixed w (e := operand) hoperand hb
      exact ⟨_, bind_ok_of hb' rfl, hwidth⟩
  | .binary op lhs rhs, bits, ⟨hlhs, hrhs⟩, h => by
      obtain ⟨l, hl, h⟩ := bind_ok h
      obtain ⟨r, hr, h⟩ := bind_ok h
      cases h
      obtain ⟨l', hl', hlwidth⟩ := eval_fixed w hlhs hl
      obtain ⟨r', hr', hrwidth⟩ := eval_fixed w hrhs hr
      exact ⟨_, bind_ok_of hl' (bind_ok_of hr' rfl), by simp only [BinaryOp.eval, hlwidth, hrwidth]⟩
  | .cond test onTrue onFalse, bits, ⟨htest, htrue, hfalse⟩, h => by
      obtain ⟨t, ht, h⟩ := bind_ok h
      obtain ⟨f, hf, h⟩ := bind_ok h
      obtain ⟨c, hc, h⟩ := bind_ok h
      cases h
      obtain ⟨t', ht', htwidth⟩ := eval_fixed w htrue ht
      obtain ⟨f', hf', hfwidth⟩ := eval_fixed w hfalse hf
      obtain ⟨c', hc', -⟩ := eval_fixed w htest hc
      exact ⟨_, bind_ok_of ht' (bind_ok_of hf' (bind_ok_of hc' rfl)),
        by simp only [htwidth, hfwidth]⟩
theorem evalParts_fixed {v : Valuation} (w : Valuation) :
    ∀ {parts : List Expr} {above above' bits : Bits},
    FixedAll parts → above'.width = above.width → evalParts widths v above parts = .ok bits →
    ∃ bits', evalParts widths w above' parts = .ok bits' ∧ bits'.width = bits.width
  | [], above, above', bits, _, habove, h => by
      cases h
      exact ⟨above', rfl, habove⟩
  | part :: rest, above, above', bits, ⟨hpart, hrest⟩, habove, h => by
      obtain ⟨b, hb, h⟩ := bind_ok h
      obtain ⟨both, hboth, h⟩ := bind_ok h
      obtain ⟨_, hshift, hboth⟩ := bind_ok hboth
      cases hboth
      obtain ⟨b', hb', hwidth⟩ := eval_fixed w hpart hb
      rw [← hwidth] at hshift
      have hroom : above'.width + b'.width = above.width + b.width := by rw [habove, hwidth]
      obtain ⟨bits', hbits', hsame⟩ : ∃ bits', evalParts widths w
          ⟨above'.value.up b'.width ||| b'.value, above'.width + b'.width⟩ rest = .ok bits' ∧
            bits'.width = bits.width :=
        evalParts_fixed w hrest hroom h
      refine ⟨bits', ?_, hsame⟩
      simp [evalParts, hb', Bits.above, hshift, hbits']
end

/-- Whether a write goes through does not depend on what is written or on what was there. -/
theorem writeSignal_ok_of_ok {v v' : Valuation} {name : String}
    {part part' : Nat → Except Fault (Nat × Nat)} {value : Word} {lo length : Nat}
    (h : writeSignal widths v name part value = .ok v')
    (hpart : part (widths.width name) = .ok (lo, length)) (w : Valuation) (value' : Word)
    (hpart' : part' (widths.width name) = .ok (lo, length)) :
    ∃ w', writeSignal widths w name part' value' = .ok w' := by
  obtain ⟨hdeclared, lo', length', hsame, hlo, -⟩ := writeSignal_eq h
  rw [hpart, Except.ok.injEq, Prod.mk.injEq] at hsame
  have hshift : checkShift lo = .ok () := if_pos (hsame.1 ▸ hlo)
  unfold writeSignal
  rw [Widths.get_of_declares hdeclared, ok_bind, hpart', ok_bind]
  dsimp only
  rw [hshift]
  exact ⟨_, rfl⟩

/-- The bits that a write covers come out equal, whatever was there before. -/
theorem writeSignal_agree {v v' w w' : Valuation} {name : String}
    {part part' : Nat → Except Fault (Nat × Nat)} {value : Word} {lo length : Nat}
    (hv : writeSignal widths v name part value = .ok v')
    (hw : writeSignal widths w name part' value = .ok w')
    (hpart : part (widths.width name) = .ok (lo, length))
    (hpart' : part' (widths.width name) = .ok (lo, length)) {other : String} {i : Nat}
    (h : (v.get other).getLsbD i = (w.get other).getLsbD i ∨
      (⟨name, lo, length⟩ : Region).Covers other i) :
    (v'.get other).getLsbD i = (w'.get other).getLsbD i := by
  obtain ⟨-, _, _, hlo, -, rfl⟩ := writeSignal_eq hv
  obtain ⟨-, _, _, hlo', -, rfl⟩ := writeSignal_eq hw
  rw [hpart, Except.ok.injEq, Prod.mk.injEq] at hlo
  rw [hpart', Except.ok.injEq, Prod.mk.injEq] at hlo'
  obtain ⟨rfl, rfl⟩ := hlo
  obtain ⟨rfl, rfl⟩ := hlo'
  rw [Valuation.get_put, Valuation.get_put]
  -- a bit of the signal is covered or as before; a bit of another signal is as before
  by_cases hname : other = name
  · subst hname
    rw [if_pos rfl, if_pos rfl, Word.getLsbD_low, Word.getLsbD_low]
    by_cases hi : i < wordBits
    · rw [Word.getLsbD_splice _ _ _ _ _ hi, Word.getLsbD_splice _ _ _ _ _ hi]
      split
      · rfl
      · rename_i hout
        rcases h with h | ⟨-, hcover⟩
        · rw [h]
        · exact absurd hcover hout
    · rw [BitVec.getLsbD_of_ge _ i (Nat.le_of_not_lt hi),
        BitVec.getLsbD_of_ge _ i (Nat.le_of_not_lt hi)]
  · rw [if_neg hname, if_neg hname]
    rcases h with h | ⟨hcover, -⟩
    · exact h
    · exact absurd hcover.symm hname

/-- The part that a select at a literal position writes to. -/
theorem part_index (w : Valuation) {position : Expr} (h : position.IsLiteral) :
    (do let lo ← position.eval widths w; return (lo.value.toIndex, 1) : Except Fault (Nat × Nat)) =
      .ok (position.position, 1) := by
  obtain ⟨lo, hlo, hindex⟩ := eval_literal widths w h
  simp [hlo, hindex]

theorem part_slice (w : Valuation) {base length : Expr} (hbase : base.IsLiteral)
    (hlength : length.IsLiteral) :
    (do
      let lo ← base.eval widths w
      let len ← length.eval widths w
      return (lo.value.toIndex, len.value.toIndex) : Except Fault (Nat × Nat)) =
      .ok (base.position, length.position) := by
  obtain ⟨lo, hlo, hindex⟩ := eval_literal widths w hbase
  obtain ⟨len, hlen, hsize⟩ := eval_literal widths w hlength
  simp [hlo, hlen, hindex, hsize]

mutual
/-- A range that can be written to in one valuation can be written to in all. -/
theorem write_range {v v' : Valuation} {value : Word} (w : Valuation) (value' : Word) :
    ∀ {e : Expr}, e.IsRange →
    e.write widths v value = .ok v' → ∃ w', e.write widths w value' = .ok w'
  | .ident name, _, h => writeSignal_ok_of_ok h rfl w value' rfl
  | .index name position, hlit, h =>
      writeSignal_ok_of_ok h (part_index v hlit) w value' (part_index w hlit)
  | .slice name base length, ⟨hbase, hlength⟩, h =>
      writeSignal_ok_of_ok h (part_slice v hbase hlength) w value' (part_slice w hbase hlength)
  | .concat parts, hparts, h => by
      obtain ⟨⟨left, written⟩, h, -⟩ := bind_ok h
      obtain ⟨left', w', hw'⟩ := writeParts_range w value' (show IsRangeAll parts from hparts) h
      exact ⟨w', by simp [write, hw']⟩
theorem writeParts_range {v v' : Valuation} {value left : Word} (w : Valuation) (value' : Word) :
    ∀ {parts : List Expr}, IsRangeAll parts → writeParts widths v value parts = .ok (left, v') →
    ∃ left' w', writeParts widths w value' parts = .ok (left', w')
  | [], _, _ => ⟨value', w, rfl⟩
  | part :: rest, ⟨hpart, hrest⟩, h => by
      obtain ⟨⟨above, u⟩, hu, h⟩ := bind_ok h
      obtain ⟨bits, hbits, h⟩ := bind_ok h
      obtain ⟨u', hu', -⟩ := bind_ok h
      obtain ⟨above', x, hx⟩ := writeParts_range w value' hrest hu
      obtain ⟨bits', hbits', -⟩ := eval_fixed x hpart.fixed hbits
      obtain ⟨x', hx'⟩ := write_range x (above'.low bits'.width) hpart hu'
      exact ⟨above'.down bits'.width, x', by simp [writeParts, hx, hbits', hx']⟩
end

mutual
/--
The same value written to a range gives the same bits where it is written, and
elsewhere keeps what agreed.
-/
theorem write_agree {v v' w w' : Valuation} {value : Word} {name : String} {i : Nat} :
    ∀ {e : Expr}, e.IsRange →
    e.write widths v value = .ok v' → e.write widths w value = .ok w' →
    ((v.get name).getLsbD i = (w.get name).getLsbD i ∨
      ∃ r ∈ e.regions widths.width, r.Covers name i) →
    (v'.get name).getLsbD i = (w'.get name).getLsbD i
  | .ident target, _, hv, hw, h =>
      writeSignal_agree hv hw rfl rfl
        (h.imp_right fun ⟨r, hr, hcover⟩ => List.mem_singleton.mp hr ▸ hcover)
  | .index target position, hlit, hv, hw, h =>
      writeSignal_agree hv hw (part_index v hlit) (part_index w hlit)
        (h.imp_right fun ⟨r, hr, hcover⟩ => List.mem_singleton.mp hr ▸ hcover)
  | .slice target base length, ⟨hbase, hlength⟩, hv, hw, h =>
      writeSignal_agree hv hw (part_slice v hbase hlength) (part_slice w hbase hlength)
        (h.imp_right fun ⟨r, hr, hcover⟩ => List.mem_singleton.mp hr ▸ hcover)
  | .concat parts, hparts, hv, hw, h => by
      obtain ⟨⟨left, written⟩, hv, h₁⟩ := bind_ok hv
      obtain ⟨⟨left', written'⟩, hw, h₂⟩ := bind_ok hw
      cases h₁
      cases h₂
      exact (writeParts_agree (show IsRangeAll parts from hparts) hv hw).2 h
theorem writeParts_agree {v v' w w' : Valuation} {value left left' : Word} {name : String}
    {i : Nat} :
    ∀ {parts : List Expr}, IsRangeAll parts → writeParts widths v value parts = .ok (left, v') →
    writeParts widths w value parts = .ok (left', w') →
    left = left' ∧ (((v.get name).getLsbD i = (w.get name).getLsbD i ∨
        ∃ r ∈ regionsAll widths.width parts, r.Covers name i) →
      (v'.get name).getLsbD i = (w'.get name).getLsbD i)
  | [], _, hv, hw => by
      cases hv
      cases hw
      refine ⟨rfl, fun h => h.resolve_right ?_⟩
      rintro ⟨r, hr, -⟩
      exact absurd hr List.not_mem_nil
  | part :: rest, ⟨hpart, hrest⟩, hv, hw => by
      obtain ⟨⟨above, u⟩, hu, hv⟩ := bind_ok hv
      obtain ⟨bits, hbits, hv⟩ := bind_ok hv
      obtain ⟨u', hu', hv⟩ := bind_ok hv
      obtain ⟨⟨above', x⟩, hx, hw⟩ := bind_ok hw
      obtain ⟨bits', hbits', hw⟩ := bind_ok hw
      obtain ⟨x', hx', hw⟩ := bind_ok hw
      cases hv
      cases hw
      -- the parts below are written first, and leave the same rest of the value
      obtain ⟨rfl, hagree⟩ := writeParts_agree hrest hu hx
      -- a fixed part is as wide in both valuations, so the same bits are taken off
      have hwidth : bits'.width = bits.width := by
        obtain ⟨b, hb, hsame⟩ := eval_fixed x hpart.fixed hbits
        rw [hbits', Except.ok.injEq] at hb
        exact hb ▸ hsame
      rw [hwidth] at hx' ⊢
      refine ⟨rfl, fun h => write_agree hpart hu' hx' ?_⟩
      rcases h with h | ⟨r, hr, hcover⟩
      · exact Or.inl (hagree (Or.inl h))
      · rcases List.mem_append.mp hr with hr | hr
        · exact Or.inl (hagree (Or.inr ⟨r, hr, hcover⟩))
        · exact Or.inr ⟨r, hr, hcover⟩
end

/-- The bits that a write does not cover stay. -/
theorem writeSignal_frame {v w : Valuation} {target : String}
    {part : Nat → Except Fault (Nat × Nat)} {value : Word} {lo length : Nat} (hv : v.Tidy widths)
    (h : writeSignal widths v target part value = .ok w)
    (hpart : part (widths.width target) = .ok (lo, length)) {name : String} {i : Nat}
    (hout : ¬ (⟨target, lo, length⟩ : Region).Covers name i) :
    (w.get name).getLsbD i = (v.get name).getLsbD i := by
  obtain ⟨-, _, _, hsame, -, rfl⟩ := writeSignal_eq h
  rw [hpart, Except.ok.injEq, Prod.mk.injEq] at hsame
  obtain ⟨rfl, rfl⟩ := hsame
  rw [Valuation.get_put]
  by_cases hname : name = target
  · subst hname
    rw [if_pos rfl]
    by_cases hi : i < wordBits
    · -- what is spliced in is cut to the width that the value had before
      rw [← hv.fits name, Word.getLsbD_low, Word.getLsbD_low, Word.getLsbD_splice _ _ _ _ _ hi,
        if_neg fun hin => hout ⟨rfl, hin.1, hin.2⟩, hv.fits name]
    · rw [BitVec.getLsbD_of_ge _ i (Nat.le_of_not_lt hi),
        BitVec.getLsbD_of_ge _ i (Nat.le_of_not_lt hi)]
  · rw [if_neg hname]

mutual
/-- A write to a range keeps the bits that the range does not cover. -/
theorem write_frame {v w : Valuation} (hv : v.Tidy widths) {value : Word} {name : String}
    {i : Nat} :
    ∀ {e : Expr}, e.IsRange → e.write widths v value = .ok w →
    (∀ r ∈ e.regions widths.width, ¬ r.Covers name i) →
      (w.get name).getLsbD i = (v.get name).getLsbD i
  | .ident target, _, h, hout => writeSignal_frame hv h rfl (hout _ List.mem_cons_self)
  | .index target position, hlit, h, hout =>
      writeSignal_frame hv h (part_index v hlit) (hout _ List.mem_cons_self)
  | .slice target base length, ⟨hbase, hlength⟩, h, hout =>
      writeSignal_frame hv h (part_slice v hbase hlength) (hout _ List.mem_cons_self)
  | .concat parts, hparts, h, hout => by
      obtain ⟨⟨left, written⟩, h, hw⟩ := bind_ok h
      cases hw
      exact writeParts_frame hv (show IsRangeAll parts from hparts) h hout
theorem writeParts_frame {v w : Valuation} (hv : v.Tidy widths) {value left : Word} {name : String}
    {i : Nat} :
    ∀ {parts : List Expr}, IsRangeAll parts → writeParts widths v value parts = .ok (left, w) →
    (∀ r ∈ regionsAll widths.width parts, ¬ r.Covers name i) →
      (w.get name).getLsbD i = (v.get name).getLsbD i
  | [], _, h, _ => by
      cases h
      rfl
  | part :: rest, ⟨hpart, hrest⟩, h, hout => by
      obtain ⟨⟨above, u⟩, hu, h⟩ := bind_ok h
      obtain ⟨bits, -, h⟩ := bind_ok h
      obtain ⟨u', hu', h⟩ := bind_ok h
      cases h
      have htidy := (writeParts_stores hu).1.tidy hv
      rw [write_frame htidy hpart hu' fun r hr => hout r (List.mem_append_right _ hr),
        writeParts_frame hv hrest hu fun r hr => hout r (List.mem_append_left _ hr)]
end

end

end Expr

/-! ## Faults -/

/-- A computation that can only stop because something would be moved beyond the word. -/
def OnlyShifts {α : Type} (x : Except Fault α) : Prop :=
  ∀ fault, x = .error fault → ∃ n, fault = .shiftTooFar n

namespace OnlyShifts

variable {α β : Type}

theorem ok (a : α) : OnlyShifts (.ok a : Except Fault α) := fun _ h => absurd h (by simp)

theorem of_eq_ok {x : Except Fault α} {a : α} (h : x = .ok a) : OnlyShifts x := h ▸ ok a

theorem bind {x : Except Fault α} {f : α → Except Fault β} (hx : OnlyShifts x)
    (hf : ∀ a, x = .ok a → OnlyShifts (f a)) : OnlyShifts (x >>= f) := by
  cases x with
  | error fault =>
      intro fault' h
      have hsame : (Except.error fault : Except Fault β) = .error fault' := h
      cases hsame
      exact hx fault rfl
  | ok a => exact hf a rfl

theorem checkShift (n : Nat) : OnlyShifts (checkShift n) := by
  intro fault h
  unfold Handshake.checkShift at h
  split at h
  · exact absurd h (by simp)
  · exact ⟨n, (Except.error.inj h).symm⟩

end OnlyShifts

/--
The computation gives something with the property. If the excuse holds, it may
stop at a shift instead.
-/
def Yields {α : Type} (excuse : Prop) (R : α → Prop) (x : Except Fault α) : Prop :=
  (∃ a, x = .ok a ∧ R a) ∨ excuse ∧ ∃ n, x = .error (.shiftTooFar n)

namespace Yields

variable {α β : Type} {excuse excuse' : Prop} {R R' : α → Prop} {S : β → Prop} {x : Except Fault α}

theorem of_ok {a : α} (hx : x = .ok a) (ha : R a) : Yields excuse R x := Or.inl ⟨a, hx, ha⟩

theorem imp (hx : Yields excuse R x) (h : ∀ a, x = .ok a → R a → R' a) : Yields excuse R' x := by
  rcases hx with ⟨a, hx, ha⟩ | hstop
  · exact Or.inl ⟨a, hx, h a hx ha⟩
  · exact Or.inr hstop

theorem imp_excuse (hx : Yields excuse R x) (h : excuse → excuse') : Yields excuse' R x :=
  hx.imp_right (And.imp_left h)

theorem bind {f : α → Except Fault β} (hx : Yields excuse R x)
    (hf : ∀ a, R a → Yields excuse S (f a)) : Yields excuse S (x >>= f) := by
  rcases hx with ⟨a, rfl, ha⟩ | ⟨hexcuse, n, rfl⟩
  · exact hf a ha
  · exact Or.inr ⟨hexcuse, n, rfl⟩

theorem map {f : α → β} (hx : Yields excuse R x) (hf : ∀ a, R a → S (f a)) :
    Yields excuse S (x.map f) := by
  rcases hx with ⟨a, rfl, ha⟩ | ⟨hexcuse, n, rfl⟩
  · exact Or.inl ⟨f a, rfl, hf a ha⟩
  · exact Or.inr ⟨hexcuse, n, rfl⟩

end Yields

/-- Taking a part of a word fails only if the part begins outside of words. -/
theorem Word.field_onlyShifts (w : Word) (lo length : Nat) : OnlyShifts (w.field lo length) :=
  (OnlyShifts.checkShift lo).bind fun _ _ => OnlyShifts.ok _

namespace Expr

section
variable {widths : Widths} {v : Valuation}

mutual
/--
Names and literals do not depend on values: an expression that can be evaluated
once fails at shifts only.
-/
theorem eval_onlyShifts (w : Valuation) : ∀ {e : Expr} {bits : Bits}, e.eval widths v = .ok bits →
    OnlyShifts (e.eval widths w)
  | .number literal, bits, h => .of_eq_ok h
  | .ident name, bits, h => by
      obtain ⟨width, hwidth, -⟩ := bind_ok h
      exact (OnlyShifts.of_eq_ok hwidth).bind fun _ _ => .ok _
  | .index name position, bits, h => by
      obtain ⟨lo, hlo, -⟩ := bind_ok h
      exact (eval_onlyShifts w hlo).bind fun _ _ => Word.field_onlyShifts _ _ _
  | .slice name base length, bits, h => by
      obtain ⟨lo, hlo, h⟩ := bind_ok h
      obtain ⟨len, hlen, -⟩ := bind_ok h
      exact (eval_onlyShifts w hlo).bind fun _ _ => (eval_onlyShifts w hlen).bind fun _ _ =>
        Word.field_onlyShifts _ _ _
  | .concat parts, bits, h => evalParts_onlyShifts w h ⟨0, 0⟩
  | .paren inner, bits, h => eval_onlyShifts w (e := inner) h
  | .not operand, bits, h => by
      obtain ⟨b, hb, -⟩ := bind_ok h
      exact (eval_onlyShifts w hb).bind fun _ _ => .ok _
  | .binary op lhs rhs, bits, h => by
      obtain ⟨l, hl, h⟩ := bind_ok h
      obtain ⟨r, hr, -⟩ := bind_ok h
      exact (eval_onlyShifts w hl).bind fun _ _ => (eval_onlyShifts w hr).bind fun _ _ => .ok _
  | .cond test onTrue onFalse, bits, h => by
      obtain ⟨t, ht, h⟩ := bind_ok h
      obtain ⟨f, hf, h⟩ := bind_ok h
      obtain ⟨c, hc, -⟩ := bind_ok h
      exact (eval_onlyShifts w ht).bind fun _ _ => (eval_onlyShifts w hf).bind fun _ _ =>
        (eval_onlyShifts w hc).bind fun _ _ => .ok _
/-- Parts that could be evaluated once can fail later only by the position of a select. -/
theorem evalParts_onlyShifts (w : Valuation) : ∀ {parts : List Expr} {above bits : Bits},
    evalParts widths v above parts = .ok bits →
      ∀ above', OnlyShifts (evalParts widths w above' parts)
  | [], _, _, _, above' => .ok above'
  | part :: rest, above, bits, h, above' => by
      obtain ⟨b, hb, h⟩ := bind_ok h
      obtain ⟨both, -, h⟩ := bind_ok h
      exact (eval_onlyShifts w hb).bind fun b' _ =>
        ((OnlyShifts.checkShift b'.width).bind fun _ _ => .ok _).bind fun both' _ =>
          evalParts_onlyShifts w h both'
end

end

end Expr

/-! ## Renaming -/

/-- What one valuation shows of another through a renaming. -/
def Views (f : String → String) (outer inner : Valuation) : Prop :=
  ∀ name, inner.get name = outer.get (f name)

/-- Widths under a renaming, undeclared names included. -/
def Widths.Matches (f : String → String) (outer inner : Widths) : Prop :=
  ∀ name, outer.entries.lookup (f name) = inner.entries.lookup name

section
variable {f : String → String} {outer inner : Widths}

theorem Widths.Matches.get_ok (h : outer.Matches f inner) {name : String} {width : Nat}
    (hget : outer.get (f name) = .ok width) : inner.get name = .ok width := by
  unfold Widths.get at hget ⊢
  rw [h name] at hget
  cases hl : inner.entries.lookup name with
  | none =>
      rw [hl] at hget
      exact absurd hget (by simp)
  | some n =>
      rw [hl] at hget
      exact hget

/-- A signal is as wide under its other name. -/
theorem Widths.Matches.width_eq (h : outer.Matches f inner) (name : String) :
    outer.width (f name) = inner.width name := by
  unfold Widths.width
  rw [h name]

namespace Expr

mutual
/-- A renamed expression evaluates to what the expression evaluates to in the renamed view. -/
theorem eval_renamed (hw : outer.Matches f inner) {v u : Valuation} (hv : Views f v u) :
    ∀ {e : Expr} {bits : Bits}, (e.renamed f).eval outer v = .ok bits → e.eval inner u = .ok bits
  | .number literal, bits, h => h
  | .ident name, bits, h => by
      obtain ⟨width, hwidth, h⟩ := bind_ok h
      rw [← hv name] at h
      exact bind_ok_of (hw.get_ok hwidth) h
  | .index name position, bits, h => by
      obtain ⟨lo, hlo, h⟩ := bind_ok h
      rw [← hv name] at h
      exact bind_ok_of (eval_renamed hw hv hlo) h
  | .slice name base length, bits, h => by
      obtain ⟨lo, hlo, h⟩ := bind_ok h
      obtain ⟨len, hlen, h⟩ := bind_ok h
      rw [← hv name] at h
      exact bind_ok_of (eval_renamed hw hv hlo) (bind_ok_of (eval_renamed hw hv hlen) h)
  | .concat parts, bits, h => evalParts_renamed hw hv h
  | .paren e, bits, h => eval_renamed hw hv (e := e) h
  | .not operand, bits, h => by
      obtain ⟨b, hb, h⟩ := bind_ok h
      exact bind_ok_of (eval_renamed hw hv hb) h
  | .binary op lhs rhs, bits, h => by
      obtain ⟨l, hl, h⟩ := bind_ok h
      obtain ⟨r, hr, h⟩ := bind_ok h
      exact bind_ok_of (eval_renamed hw hv hl) (bind_ok_of (eval_renamed hw hv hr) h)
  | .cond test onTrue onFalse, bits, h => by
      obtain ⟨t, ht, h⟩ := bind_ok h
      obtain ⟨e, he, h⟩ := bind_ok h
      obtain ⟨c, hc, h⟩ := bind_ok h
      exact bind_ok_of (eval_renamed hw hv ht) (bind_ok_of (eval_renamed hw hv he)
        (bind_ok_of (eval_renamed hw hv hc) h))
theorem evalParts_renamed (hw : outer.Matches f inner) {v u : Valuation} (hv : Views f v u) :
    ∀ {parts : List Expr} {above bits : Bits},
    evalParts outer v above (renamedAll f parts) = .ok bits →
    evalParts inner u above parts = .ok bits
  | [], _, _, h => h
  | part :: rest, above, bits, h => by
      obtain ⟨b, hb, h⟩ := bind_ok h
      obtain ⟨both, hboth, h⟩ := bind_ok h
      exact bind_ok_of (eval_renamed hw hv hb) (bind_ok_of hboth (evalParts_renamed hw hv h))
end

end Expr

/-- A write into a renamed signal is seen as a write into the signal. -/
theorem writeSignal_renamed (hinj : Function.Injective f) (hw : outer.Matches f inner)
    {v v' u : Valuation} (hv : Views f v u) {name : String}
    {part part' : Nat → Except Fault (Nat × Nat)} {value : Word}
    (h : writeSignal outer v (f name) part value = .ok v')
    (hpart : ∀ width p, part width = .ok p → part' width = .ok p) :
    ∃ u', writeSignal inner u name part' value = .ok u' ∧ Views f v' u' := by
  unfold writeSignal at h
  obtain ⟨width, hwidth, h⟩ := bind_ok h
  obtain ⟨⟨lo, length⟩, hlo, h⟩ := bind_ok h
  obtain ⟨_, hshift, h⟩ := bind_ok h
  cases h
  refine ⟨u.put name (((u.get name).splice lo length value).low width), ?_, fun other => ?_⟩
  · exact bind_ok_of (hw.get_ok hwidth) (bind_ok_of (hpart width _ hlo) (bind_ok_of hshift rfl))
  · rw [Valuation.get_put, Valuation.get_put, hv name, hv other]
    by_cases hother : other = name
    · rw [if_pos hother, if_pos (congrArg f hother)]
    · rw [if_neg hother, if_neg fun heq => hother (hinj heq)]

namespace Expr

mutual
/-- A renamed write that goes through does, through the renaming, what the write does. -/
theorem write_renamed (hinj : Function.Injective f) (hw : outer.Matches f inner)
    {v v' u : Valuation} (hv : Views f v u) {value : Word} :
    ∀ {e : Expr}, (e.renamed f).write outer v value = .ok v' →
    ∃ u', e.write inner u value = .ok u' ∧ Views f v' u'
  | .ident name, h => writeSignal_renamed hinj hw hv h fun _ _ hp => hp
  | .index name position, h => by
      refine writeSignal_renamed hinj hw hv h fun _ p hp => ?_
      obtain ⟨lo, hlo, hp⟩ := bind_ok hp
      exact bind_ok_of (eval_renamed hw hv hlo) hp
  | .slice name base length, h => by
      refine writeSignal_renamed hinj hw hv h fun _ p hp => ?_
      obtain ⟨lo, hlo, hp⟩ := bind_ok hp
      obtain ⟨len, hlen, hp⟩ := bind_ok hp
      exact bind_ok_of (eval_renamed hw hv hlo) (bind_ok_of (eval_renamed hw hv hlen) hp)
  | .concat parts, h => by
      obtain ⟨⟨left, written⟩, h, h'⟩ := bind_ok h
      cases h'
      obtain ⟨u', hu', hviews⟩ := writeParts_renamed hinj hw hv h
      exact ⟨u', bind_ok_of hu' rfl, hviews⟩
  | .number _, h | .paren _, h | .not _, h | .binary _ _ _, h | .cond _ _ _, h =>
      absurd h (by simp [renamed, write])
theorem writeParts_renamed (hinj : Function.Injective f) (hw : outer.Matches f inner)
    {v v' u : Valuation} (hv : Views f v u) {value left : Word} : ∀ {parts : List Expr},
    writeParts outer v value (renamedAll f parts) = .ok (left, v') →
    ∃ u', writeParts inner u value parts = .ok (left, u') ∧ Views f v' u'
  | [], h => by
      cases h
      exact ⟨u, rfl, hv⟩
  | part :: rest, h => by
      obtain ⟨⟨above, x⟩, hx, h⟩ := bind_ok h
      obtain ⟨bits, hbits, h⟩ := bind_ok h
      obtain ⟨x', hx', h⟩ := bind_ok h
      cases h
      obtain ⟨u₁, hu₁, hviews₁⟩ := writeParts_renamed hinj hw hv hx
      obtain ⟨u₂, hu₂, hviews₂⟩ := write_renamed hinj hw hviews₁ hx'
      exact ⟨u₂,
        bind_ok_of hu₁ (bind_ok_of (eval_renamed hw hviews₁ hbits) (bind_ok_of hu₂ rfl)), hviews₂⟩
end

end Expr

end

end Handshake
