import Handshake.Lookup
import Handshake.Simulation.Fault
import Handshake.Simulation.Literal
import Handshake.Verilog.Module

/-!
# Evaluating and writing

Expressions are evaluated over a table of declared widths and a table of current
values; a signal without a value is zero. An evaluated expression has a width as
well as a value, since negation and concatenation depend on it. Writing is the
inverse: a value goes into a signal, a part of one, or the parts of a
concatenation, and no other bit changes.

Positions are positions in a word. To reach for one beyond it is a fault, on
either side, and so is a concatenation that would push what it holds out of the
word at once.
-/

namespace Handshake

/-- The current values of signals. A name that is missing is worth zero. -/
structure Valuation where
  /-- The values, in the order in which signals were first written. -/
  entries : List (String × Word)
deriving DecidableEq

namespace Valuation

/-- Every signal is zero. -/
def zero : Valuation := ⟨[]⟩

/-- The value of a signal. -/
def get (v : Valuation) (name : String) : Word := (v.entries.lookup name).getD 0

/-- Replaces the entry of a name, or adds one at the end. -/
def store (name : String) (value : Word) : List (String × Word) → List (String × Word)
  | [] => [(name, value)]
  | (key, old) :: rest =>
      if key = name then (key, value) :: rest else (key, old) :: store name value rest

/-- Gives a signal a value. -/
def put (v : Valuation) (name : String) (value : Word) : Valuation := ⟨store name value v.entries⟩

theorem lookup_store (name other : String) (value : Word) (entries : List (String × Word)) :
    (store name value entries).lookup other =
      if other = name then some value else entries.lookup other := by
  induction entries with
  | nil => rw [store, lookup_cons]
  | cons entry rest ih =>
    obtain ⟨key, old⟩ := entry
    rw [store]
    split
    · rename_i hkey
      subst hkey
      rw [lookup_cons, lookup_cons]
      split <;> rfl
    · rename_i hkey
      rw [lookup_cons, lookup_cons, ih]
      by_cases h : other = key
      · subst h
        rw [if_pos rfl, if_neg hkey, if_pos rfl]
      · rw [if_neg h, if_neg h]

@[simp] theorem get_zero (name : String) : zero.get name = 0 := rfl

/-- A signal that was given a value has it, and the others keep theirs. -/
theorem get_put (v : Valuation) (name other : String) (value : Word) :
    (v.put name value).get other = if other = name then value else v.get other := by
  rw [get, put, lookup_store]
  split <;> rfl

end Valuation

/-- The declared widths of signals. -/
structure Widths where
  /-- The declarations; the first one of a name counts. -/
  entries : List (String × Nat)
deriving DecidableEq

/-- The width of a signal, which must be declared. -/
def Widths.get (w : Widths) (name : String) : Except Fault Nat :=
  match w.entries.lookup name with
  | some width => .ok width
  | none => .error (.undeclared name)

/-- A value as a position in a signal, or as a number of bits: its low 64 bits. -/
def Word.toIndex (w : Word) : Nat := w.toNat % Literal.indexLimit

/-- The result of a binary operator: as wide as its wider operand. -/
def BinaryOp.eval (op : BinaryOp) (lhs rhs : Bits) : Bits :=
  let width := max lhs.width rhs.width
  let value := match op with
    | .and => lhs.value &&& rhs.value
    | .or => lhs.value ||| rhs.value
    | .mul => lhs.value * rhs.value
  ⟨Word.low value width, width⟩

/-- Passes a distance over which a word can be moved. -/
def checkShift (distance : Nat) : Except Fault Unit :=
  if distance < wordBits then .ok () else .error (.shiftTooFar distance)

/-- Some bits of a word. -/
def Word.field (w : Word) (lo length : Nat) : Except Fault Bits := do
  checkShift lo
  return ⟨(w.down lo).low length, length⟩

/-- Puts bits below others. -/
def Bits.above (high low : Bits) : Except Fault Bits := do
  checkShift low.width
  return ⟨high.value.up low.width ||| low.value, high.width + low.width⟩

namespace Expr

variable (widths : Widths) (values : Valuation)

mutual
/-- What an expression is worth. -/
def eval : Expr → Except Fault Bits
  | .number literal =>
    match Literal.parse? literal with
    | some bits => .ok bits
    | none => .error (.badLiteral literal)
  | .ident name => do
    let width ← widths.get name
    return ⟨values.get name, width⟩
  | .index name position => do
    let lo ← eval position
    (values.get name).field lo.value.toIndex 1
  | .slice name base length => do
    let lo ← eval base
    let len ← eval length
    (values.get name).field lo.value.toIndex len.value.toIndex
  | .concat parts => evalParts ⟨0, 0⟩ parts
  | .paren inner => eval inner
  | .not operand => do
    let bits ← eval operand
    return ⟨Word.low (~~~bits.value) bits.width, bits.width⟩
  | .binary op lhs rhs => do
    let l ← eval lhs
    let r ← eval rhs
    return op.eval l r
  | .cond test onTrue onFalse => do
    let t ← eval onTrue
    let f ← eval onFalse
    let c ← eval test
    return ⟨if c.value = 0 then f.value else t.value, max t.width f.width⟩
/-- What parts side by side are worth, below what stands above them. -/
def evalParts (above : Bits) : List Expr → Except Fault Bits
  | [] => .ok above
  | part :: rest => do
    let bits ← eval part
    let both ← above.above bits
    evalParts both rest
end

end Expr

/-- A word with `length` bits from `lo` on replaced by the low bits of another. -/
def Word.splice (old : Word) (lo length : Nat) (value : Word) : Word :=
  let field := (Word.mask length).up lo
  (old &&& ~~~field) ||| (value.up lo &&& field)

/-- Writes into a part of a signal, given the part once the signal's width is known. -/
def writeSignal (widths : Widths) (values : Valuation) (name : String)
    (part : Nat → Except Fault (Nat × Nat)) (value : Word) : Except Fault Valuation := do
  let width ← widths.get name
  let (lo, length) ← part width
  checkShift lo
  return values.put name (((values.get name).splice lo length value).low width)

namespace Expr

variable (widths : Widths)

mutual
/-- Writes a value to an expression that names signals or parts of signals. -/
def write (values : Valuation) (value : Word) : Expr → Except Fault Valuation
  | .ident name => writeSignal widths values name (fun width => .ok (0, width)) value
  | .index name position =>
    writeSignal widths values name (fun _ => do
      let lo ← position.eval widths values
      return (lo.value.toIndex, 1)) value
  | .slice name base length =>
    writeSignal widths values name (fun _ => do
      let lo ← base.eval widths values
      let len ← length.eval widths values
      return (lo.value.toIndex, len.value.toIndex)) value
  | .concat parts => do
    let (_, written) ← writeParts values value parts
    return written
  | target => .error (.unsupportedTarget target.render)
/--
Writes to the parts of a concatenation, from the last one up. Gives what is left
of the value.
-/
def writeParts (values : Valuation) (value : Word) : List Expr → Except Fault (Word × Valuation)
  | [] => .ok (value, values)
  | part :: rest => do
    let (left, written) ← writeParts values value rest
    let bits ← part.eval widths written
    let written ← write written (left.low bits.width) part
    return (left.down bits.width, written)
end

end Expr

end Handshake
