import Handshake.Proofs.Quiescence

/-!
# Values fit their widths

A word holds the value of a signal of any width, so nothing about words keeps a
value within its width. What does is that every put cuts its value
(`Stores.tidy`), and that every operator cuts its result or leaves it below what
its operands leave room for. The second depends on the first: a signal stands
for its value as it is, a choice passes one of its operands on, and a
concatenation moves parts up by their widths, each trusting that what it is
given fits.

From the length of a word on, every value fits.
-/

namespace Handshake

namespace Word

/-- Cutting a word to a width takes nothing away if its number is below two to the width. -/
theorem low_eq_self_iff {w : Word} {width : Nat} : w.low width = w ↔ w.toNat < 2 ^ width := by
  rw [← BitVec.toNat_inj, toNat_low]
  constructor
  · intro h
    have hlt : w.toNat % 2 ^ width < 2 ^ width := Nat.mod_lt _ (Nat.two_pow_pos width)
    omega
  · exact Nat.mod_eq_of_lt

theorem low_of_le {w : Word} {m n : Nat} (h : w.low m = w) (hmn : m ≤ n) : w.low n = w := by
  rw [low_eq_self_iff] at h ⊢
  have hpow : 2 ^ m ≤ 2 ^ n := Nat.pow_le_pow_right (by decide) hmn
  omega

end Word

/-- The value needs no more bits than the width has, or than a word has. -/
def Bits.Fits (bits : Bits) : Prop := bits.value.low bits.width = bits.value

theorem Bits.Fits.toNat_lt {bits : Bits} (h : bits.Fits) : bits.value.toNat < 2 ^ bits.width :=
  Word.low_eq_self_iff.mp h

/-! ## Operators -/

/-- What a concatenation starts from. -/
theorem Bits.fits_empty : (⟨0, 0⟩ : Bits).Fits := BitVec.zero_and

theorem Literal.parse?_fits {text : String} {bits : Bits} (h : parse? text = some bits) :
    bits.Fits := by
  unfold parse? at h
  simp only [bind, pure, Option.bind_eq_some_iff, Option.some.injEq] at h
  obtain ⟨⟨width, rest⟩, -, value, -, rfl⟩ := h
  exact Word.low_low _ _

theorem BinaryOp.eval_fits (op : BinaryOp) (lhs rhs : Bits) : (op.eval lhs rhs).Fits :=
  Word.low_low _ _

theorem Word.field_fits {w : Word} {lo length : Nat} {bits : Bits}
    (h : w.field lo length = .ok bits) : bits.Fits := by
  obtain ⟨_, -, h⟩ := bind_ok h
  cases h
  exact Word.low_low _ _

/-- Parts that fit do so side by side: the upper one is moved beyond the bits of the lower one. -/
theorem Bits.above_fits {high low both : Bits} (hhigh : high.Fits) (hlow : low.Fits)
    (h : high.above low = .ok both) : both.Fits := by
  obtain ⟨_, -, h⟩ := bind_ok h
  cases h
  unfold Fits at hhigh hlow ⊢
  dsimp only
  refine BitVec.eq_of_getLsbD_eq fun i hi => ?_
  rw [← hhigh, ← hlow]
  simp only [Word.getLsbD_low, BitVec.getLsbD_or, Word.getLsbD_up]
  by_cases hin : i < high.width + low.width
  · simp [hin]
  · have hupper : ¬ i - low.width < high.width := by omega
    have hlower : ¬ i < low.width := by omega
    simp [hin, hupper, hlower]

/-! ## Expressions -/

namespace Expr

variable {widths : Widths} {v : Valuation}

mutual
/-- **What an expression is worth fits its width,** if the values of signals fit theirs. -/
theorem eval_fits (hv : v.Tidy widths) :
    ∀ {e : Expr} {bits : Bits}, e.eval widths v = .ok bits → bits.Fits
  | .number literal, bits, h => by
      unfold eval at h
      split at h
      · rename_i parsed hparsed
        cases h
        exact Literal.parse?_fits hparsed
      · exact absurd h (by simp)
  | .ident name, bits, h => by
      obtain ⟨width, hwidth, h⟩ := bind_ok h
      cases h
      obtain ⟨-, rfl⟩ := Widths.get_ok hwidth
      exact hv.fits name
  | .index name position, bits, h => by
      obtain ⟨lo, -, h⟩ := bind_ok h
      exact Word.field_fits h
  | .slice name base length, bits, h => by
      obtain ⟨lo, -, h⟩ := bind_ok h
      obtain ⟨len, -, h⟩ := bind_ok h
      exact Word.field_fits h
  | .concat parts, bits, h => evalParts_fits hv Bits.fits_empty h
  | .paren inner, bits, h => eval_fits hv (e := inner) h
  | .not operand, bits, h => by
      obtain ⟨b, -, h⟩ := bind_ok h
      cases h
      exact Word.low_low _ _
  | .binary op lhs rhs, bits, h => by
      obtain ⟨l, -, h⟩ := bind_ok h
      obtain ⟨r, -, h⟩ := bind_ok h
      cases h
      exact op.eval_fits l r
  | .cond test onTrue onFalse, bits, h => by
      obtain ⟨t, ht, h⟩ := bind_ok h
      obtain ⟨f, hf, h⟩ := bind_ok h
      obtain ⟨c, -, h⟩ := bind_ok h
      cases h
      -- the operand that is passed on fits its own width, and so the wider one of the two
      have htrue : t.value.low (max t.width f.width) = t.value :=
        Word.low_of_le (eval_fits hv ht) (Nat.le_max_left _ _)
      have hfalse : f.value.low (max t.width f.width) = f.value :=
        Word.low_of_le (eval_fits hv hf) (Nat.le_max_right _ _)
      unfold Bits.Fits
      dsimp only
      split
      · exact hfalse
      · exact htrue
theorem evalParts_fits (hv : v.Tidy widths) :
    ∀ {parts : List Expr} {above bits : Bits}, above.Fits →
    evalParts widths v above parts = .ok bits → bits.Fits
  | [], above, bits, habove, h => by
      cases h
      exact habove
  | part :: rest, above, bits, habove, h => by
      obtain ⟨b, hb, h⟩ := bind_ok h
      obtain ⟨both, hboth, h⟩ := bind_ok h
      exact evalParts_fits hv (Bits.above_fits habove (eval_fits hv hb) hboth) h
end

end Expr

/-! ## Runs -/

/--
**Values always fit.** Whatever is done with a simulator, as long as it does not
stop, every signal is worth less than two to its width, or than two to the
length of a word if it is wider. So is every expression that can be evaluated,
of whatever form and whether or not it occurs in the module.
-/
theorem values_fit_widths {m : Module} {s : Simulator} (hs : Simulator.Reaches m s) :
    (∀ name, (s.get name).toNat < 2 ^ min (m.circuit.widths.width name) wordBits) ∧
      ∀ (e : Expr) (bits : Bits), e.eval m.circuit.widths s.values = .ok bits →
        bits.value.toNat < 2 ^ bits.width := by
  obtain ⟨-, hv⟩ := hs.tidy
  refine ⟨fun name => ?_, fun e bits heval => (Expr.eval_fits hv heval).toNat_lt⟩
  rcases Nat.le_total (m.circuit.widths.width name) wordBits with hle | hle
  · rw [Nat.min_eq_left hle]
    exact Word.low_eq_self_iff.mp (hv.fits name)
  · rw [Nat.min_eq_right hle]
    exact (s.get name).isLt

/--
A register of four bits to which a run of four is assigned that starts at its
second bit, and nets that are driven together with its complement.
-/
theorem values_fit_widths_overrun :
    let m : Module := ⟨"u", [.input 8 "d", .output 3 "q"],
      [.declarations [.reg 4 "r", .net 1 "n"],
        .clocked [.nonblocking (.slice "r" (.decimal 1) (.decimal 4)) (.ident "d")],
        .assigns [⟨.concat [.ident "q", .ident "n"], .not (.ident "r")⟩]]⟩
    let e : Expr := .cond (.ident "n") (.concat [.ident "r", .ident "d"]) (.ident "q")
    ∃ s, Simulator.Reaches m s ∧ s.get "r" = 14 ∧ (s.get "r").toNat < 2 ^ 4 ∧
      e.eval m.circuit.widths s.values = .ok ⟨3839, 12⟩ ∧ (3839 : Word).toNat < 2 ^ 12 := by
  intro m e
  have hrun : ∃ r ∈ ((Simulator.start m).set "d" 511).toOption, ∃ s ∈ r.tick.toOption,
      s.get "r" = 14 ∧ (e.eval m.circuit.widths s.values).toOption = some ⟨3839, 12⟩ := by
    decide +kernel
  obtain ⟨r, hr, s, hs, hvalue, heval⟩ := hrun
  have hreaches : Simulator.Reaches m s :=
    .tick (.set .start (eq_ok_of_mem_toOption hr)) (eq_ok_of_mem_toOption hs)
  have heval' : e.eval m.circuit.widths s.values = .ok ⟨3839, 12⟩ := eq_ok_of_mem_toOption heval
  obtain ⟨hsignals, hexprs⟩ := values_fit_widths hreaches
  exact ⟨s, hreaches, hvalue, hsignals "r", heval', hexprs e _ heval'⟩

end Handshake
