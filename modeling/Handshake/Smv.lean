/-!
# Constants and types of the SMV model checker

A signal of one bit is a boolean there, and any other signal an unsigned word.
-/

namespace Handshake

/-- The type of a signal in SMV. -/
structure SmvType where
  /-- The width of the signal. -/
  width : Nat
deriving DecidableEq

namespace SmvType

/-- A constant of the type. A boolean is true of every value but zero. -/
def constant (t : SmvType) (value : Nat) : String :=
  if t.width = 1 then (if value = 0 then "FALSE" else "TRUE")
  else "0ud" ++ t.width.repr ++ "_" ++ value.repr

/-- The name of the type. -/
def render (t : SmvType) : String :=
  if t.width = 1 then "boolean" else "unsigned word [" ++ t.width.repr ++ "]"

end SmvType

end Handshake
