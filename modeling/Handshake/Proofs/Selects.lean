import Mathlib.Data.List.Basic
import Handshake.Proofs.Writing

/-!
# Parts of buses

What the select of some bits of a signal is worth and what it drives. A select
may be written as the signal itself, as one bit or as a run of bits; in all
three forms it stands for the same bits, as long as they lie inside the signal.

Which form is written depends on the width of the signal and of the part, so
that generated text never selects from a single bit. `select_cases` goes through
the three forms once, and the other lemmas have one statement for all of them:
the value of a select is its field of the word, its region is where it says, and
it is a target if its signal is declared.
-/

namespace Handshake

namespace Expr

/--
A decimal literal stands for its number, if that is a position in a word or the
length of one.
-/
theorem position_decimal {n : Nat} (h : n ≤ wordBits) :
    (decimal n).IsLiteral ∧ (decimal n).position = n := by
  have hall : ∀ n < 129, (Literal.parse? n.repr).isSome = true ∧
      ((Literal.parse? n.repr).map fun bits => bits.value.toIndex).getD 0 = n := by
    decide +kernel
  exact hall n (Nat.lt_succ_of_le h)

variable {name : String} {total lo width : Nat}

theorem reads_select : (select name total lo width).reads = [name] := by
  unfold select
  split
  · rfl
  · split <;> rfl

/-- The three forms of a select, with what they stand for. -/
theorem select_cases (name : String) (hpos : 0 < width) (hreach : lo + width ≤ total)
    (htotal : total ≤ wordBits) :
    (select name total lo width = .ident name ∧ lo = 0 ∧ width = total) ∨
      (∃ position, select name total lo width = .index name position ∧ width = 1 ∧
        position.IsLiteral ∧
        position.position = lo) ∨
      ∃ base length, select name total lo width = .slice name base length ∧ base.IsLiteral ∧
        base.position = lo ∧
        length.IsLiteral ∧ length.position = width := by
  have hlo := position_decimal (n := lo) (by omega)
  have hwidth := position_decimal (n := width) (by omega)
  unfold select
  -- the text depends on what is selected: the whole signal, one bit, or several
  by_cases hwhole : lo = 0 ∧ width = total
  · rw [if_pos hwhole]
    exact Or.inl ⟨rfl, hwhole⟩
  · rw [if_neg hwhole]
    by_cases hone : width = 1
    · rw [if_pos hone]
      exact Or.inr (Or.inl ⟨_, rfl, hone, hlo⟩)
    · rw [if_neg hone]
      exact Or.inr (Or.inr ⟨_, _, rfl, hlo.1, hlo.2, hwidth⟩)

theorem regions_select (hpos : 0 < width) (hreach : lo + width ≤ total) (htotal : total ≤ wordBits)
    {widthOf : String → Nat} (hname : widthOf name = total) :
    (select name total lo width).regions widthOf = [⟨name, lo, width⟩] := by
  rcases select_cases name hpos hreach htotal
    with ⟨heq, rfl, rfl⟩ | ⟨p, heq, rfl, -, hp⟩ | ⟨b, l, heq, -, hb, -, hl⟩
  · rw [heq, regions, hname]
  · rw [heq, regions, hp]
  · rw [heq, regions, hb, hl]

theorem isTarget_select (hpos : 0 < width) (hreach : lo + width ≤ total) (htotal : total ≤ wordBits)
    {widths : Widths} (hdeclared : widths.Declares name) (hname : widths.width name = total) :
    (select name total lo width).IsTarget widths := by
  rcases select_cases name hpos hreach htotal
    with ⟨heq, -, -⟩ | ⟨p, heq, hone, hlit, hp⟩ | ⟨b, l, heq, hlit, hb, hlit', hl⟩
  · rw [heq]
    exact hdeclared
  · rw [heq]
    exact ⟨hdeclared, hlit, by omega, by omega⟩
  · rw [heq]
    exact ⟨hdeclared, hlit, hlit', by omega, by omega⟩

theorem size_select (hpos : 0 < width) (hreach : lo + width ≤ total) (htotal : total ≤ wordBits)
    {widthOf : String → Nat} (hname : widthOf name = total) :
    (select name total lo width).size widthOf = width := by
  rcases select_cases name hpos hreach htotal
    with ⟨heq, -, rfl⟩ | ⟨p, heq, rfl, -, -⟩ | ⟨b, l, heq, -, -, -, hl⟩
  · rw [heq, size, hname]
  · rw [heq, size]
  · rw [heq, size, hl]

theorem complement_select :
    (select name total lo width).complement = .not (select name total lo width) := by
  unfold select complement
  split
  · rfl
  · split <;> rfl

theorem value_select (hpos : 0 < width) (hreach : lo + width ≤ total) (htotal : total ≤ wordBits)
    {widthOf : String → Nat} {x : State} (hfits : (x name).low total = x name) :
    (select name total lo width).value widthOf x = ((x name).down lo).low width := by
  rcases select_cases name hpos hreach htotal
    with ⟨heq, rfl, rfl⟩ | ⟨p, heq, rfl, -, hp⟩ | ⟨b, l, heq, -, hb, -, hl⟩
  · rw [heq, value, Word.down_zero, hfits]
  · rw [heq, value, hp]
  · rw [heq, value, hb, hl]

/-- A select of the whole signal is the signal. -/
theorem select_whole (name : String) (total : Nat) : select name total 0 total = .ident name :=
  if_pos ⟨rfl, rfl⟩

end Expr

end Handshake
