/-!
# Words

Buses and simulated signals are worth words of 128 bits. A signal narrower than
that uses the low bits of its word; a wider one is cut off. Shifts by the length
of a word or more leave nothing, and are written out as such, so that no
intermediate number outgrows the word.
-/

namespace Handshake

/-- The number of bits of a word. -/
def wordBits : Nat := 128

/-- The value of a bus or of a signal. -/
abbrev Word : Type := BitVec wordBits

namespace Word

/-- The word whose low `width` bits are set. -/
def mask (width : Nat) : Word :=
  if wordBits ≤ width then BitVec.allOnes wordBits else BitVec.ofNat wordBits ((1 <<< width) - 1)

/-- The low `width` bits of a word. -/
def low (w : Word) (width : Nat) : Word := w &&& mask width

/-- Moves a word up by `n` bits; what leaves the word is lost. -/
def up (w : Word) (n : Nat) : Word := if n < wordBits then w <<< n else 0

/-- Moves a word down by `n` bits. -/
def down (w : Word) (n : Nat) : Word := if n < wordBits then w >>> n else 0

/-- A mask has the bits below its width. -/
theorem getLsbD_mask (width i : Nat) :
    (mask width).getLsbD i = (decide (i < wordBits) && decide (i < width)) := by
  unfold mask
  split
  · rename_i h
    rw [BitVec.getLsbD_allOnes]
    by_cases hi : i < wordBits
    · simp [hi, Nat.lt_of_lt_of_le hi h]
    · simp [hi]
  · rw [BitVec.getLsbD_ofNat, Nat.one_shiftLeft, Nat.testBit_two_pow_sub_one]

/-- Cutting a word keeps the bits below the width. -/
theorem getLsbD_low (w : Word) (width i : Nat) :
    (w.low width).getLsbD i = (w.getLsbD i && decide (i < width)) := by
  rw [low, BitVec.getLsbD_and, getLsbD_mask]
  by_cases hi : i < wordBits
  · simp [hi]
  · have hw : w.getLsbD i = false := BitVec.getLsbD_of_ge w i (Nat.le_of_not_lt hi)
    simp [hw]

end Word

end Handshake
