import Handshake.ExtraSignals
import Handshake.Word

/-!
# The layout of a bus

A bus that carries a payload and extra signals holds the payload in its lowest
bits and the extra signals above it, in the order of their declaration. Both
wrappers take every slice from here, on the way in and on the way out, so the
two sides cannot drift apart.

The wrapper that puts payload and extra signals on one bus lays out both; the
one that sends extra signals past a unit lays out the extra signals alone, with
a payload of no bits. `pack` and `unpack` are the layout as a function on words,
for buses that fit one.
-/

namespace Handshake

/-- What a slice of a bus holds. -/
inductive Field where
  /-- The payload. -/
  | primary
  /-- An extra signal. -/
  | extra (name : String)
deriving DecidableEq

/-- The bits of a bus that hold one field. -/
structure Slice where
  /-- The field. -/
  field : Field
  /-- Its lowest bit. -/
  lo : Nat
  /-- The number of its bits. -/
  width : Nat
deriving DecidableEq

/-- The first bit above a slice. -/
def Slice.hi (s : Slice) : Nat := s.lo + s.width

/-- The width of a payload and its extra signals side by side, which must be a number of 32 bits. -/
def combinedWidth (primary : Nat) (extra : ExtraSignals) : Except Error Nat :=
  if primary + extra.totalWidth < countLimit then .ok (primary + extra.totalWidth)
  else .error (.invalidParameter "bitwidth"
    (primary.repr ++ " bits plus " ++ extra.totalWidth.repr ++ " extra bits overflow"))

/-- The slices of a bus, from the lowest bit up, and its width. -/
structure Layout where
  /-- The slices. -/
  slices : List Slice
  /-- The width of the bus. -/
  total : Nat
deriving DecidableEq

namespace Layout

/-- Places fields one above the other, from bit `lo` on. -/
def place (lo : Nat) : List (Field × Nat) → List Slice
  | [] => []
  | (field, width) :: rest => ⟨field, lo, width⟩ :: place (lo + width) rest

/-- The fields of a bus: the payload, unless it is empty, then the extra signals. -/
def fields (primary : Nat) (extra : ExtraSignals) : List (Field × Nat) :=
  (if 0 < primary then [(Field.primary, primary)] else []) ++
    extra.signals.map fun s => (Field.extra s.name, s.width)

/-- The layout of a payload of `primary` bits and its extra signals. -/
def of (primary : Nat) (extra : ExtraSignals) : Except Error Layout := do
  let total ← combinedWidth primary extra
  return ⟨place 0 (fields primary extra), total⟩

/-- The slice of a field. -/
def get? (layout : Layout) (field : Field) : Option Slice :=
  layout.slices.find? fun s => s.field == field

/--
Puts one value into each slice. There is no result if the bus is wider than a
word or if the number of values is not that of the slices.
-/
def pack (layout : Layout) (values : List Word) : Option Word :=
  if layout.total ≤ wordBits ∧ values.length = layout.slices.length then
    some ((layout.slices.zip values).foldl
      (fun bus (s, value) => bus ||| (value.low s.width).up s.lo) 0)
  else none

/-- Takes the value of each slice, if the bus fits a word. -/
def unpack (layout : Layout) (bus : Word) : Option (List Word) :=
  if layout.total ≤ wordBits then some (layout.slices.map fun s => (bus.down s.lo).low s.width)
  else none

end Layout

end Handshake
