import Handshake.Word

/-!
# What a literal is worth

A literal is a width, a quote, a letter for the base and digits, as in `4'b1010`
or `8'd200`; the width and the quote may be missing, and so may the letter if
they are. A literal without a width has 32 bits. Each number in it may have one
plus sign in front. A value that does not fit the width is cut off; one that
does not fit a word, or a width that is no number of 64 bits, makes no literal.

Bases are binary and decimal, which is all that generators write. Digits stand
side by side, with no underscores between them.
-/

namespace Handshake

/-- A value together with the width that its expression has. -/
structure Bits where
  /-- The value. -/
  value : Word
  /-- The width. -/
  width : Nat
deriving DecidableEq

namespace Literal

/-- The value of a digit below `base`. -/
def digit? (base : Nat) (c : Char) : Option Nat :=
  if c.isDigit ∧ c.toNat - '0'.toNat < base then some (c.toNat - '0'.toNat) else none

/-- The number that digits make in a base. -/
def digits? (base : Nat) (digits : List Char) : Option Nat :=
  if digits.isEmpty then none
  else digits.foldlM (fun value c => (digit? base c).map fun d => base * value + d) 0

/-- A number below `limit`, with or without a plus sign. -/
def number? (base limit : Nat) (cs : List Char) : Option Nat :=
  let digits := match cs with
    | '+' :: rest => rest
    | rest => rest
  (digits? base digits).filter (· < limit)

/-- The bound of widths and of positions in a signal. -/
def indexLimit : Nat := UInt64.size

/-- The character between width and base. -/
def isQuote (c : Char) : Bool := c == '\x27'

/-- The width of a literal and what follows the quote; the whole of it if there is no quote. -/
def split? (cs : List Char) : Option (Nat × List Char) :=
  match cs.dropWhile fun c => !isQuote c with
  | [] => some (32, cs)
  | _ :: rest => (number? 10 indexLimit (cs.takeWhile fun c => !isQuote c)).map fun width =>
      (width, rest)

/--
The value of a literal, given what follows its quote. Without a base, the whole
of it is decimal.
-/
def value? (cs rest : List Char) : Option Nat :=
  match rest with
  | 'b' :: digits => number? 2 (1 <<< wordBits) digits
  | 'd' :: digits => number? 10 (1 <<< wordBits) digits
  | _ => number? 10 (1 <<< wordBits) cs

/-- What a literal is worth. -/
def parse? (text : String) : Option Bits := do
  let (width, rest) ← split? text.toList
  let value ← value? text.toList rest
  return ⟨Word.low (BitVec.ofNat wordBits value) width, width⟩

end Literal

end Handshake
