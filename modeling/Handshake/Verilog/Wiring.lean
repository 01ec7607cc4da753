import Handshake.Verilog.Module

/-!
# Writing modules down

Short forms for what generators write over and over: connections of an instance,
assigns and nonblocking assignments. Generated modules are anonymous; the
accumulator names them.
-/

namespace Handshake

/-- Connects a port. -/
def wire (port : String) (value : Expr) : String × Option Expr := (port, some value)

/-- Leaves a port open. -/
def leaveOpen (port : String) : String × Option Expr := (port, none)

/-- Connects a port to the signal of the same name. -/
def sameName (port : String) : String × Option Expr := wire port port

/-- The connections of the clock and the reset. -/
def clockWires : List (String × Option Expr) := [sameName "clk", sameName "rst"]

/-- What is only there for a payload. -/
def ifData {α : Type} (width : Nat) (xs : List α) : List α := if 0 < width then xs else []

/-- An assign. -/
def drive (target value : Expr) : Assign := ⟨target, value⟩

/-- A module without a name. -/
def anonymous (ports : List Port) (items : List Item) : Module := ⟨"", ports, items⟩

/-- A register of a chain takes over the register before it, the first one the input. -/
def shift (input : String) (register : Nat → String) (length : Nat) : List Statement :=
  (List.range length).map fun i =>
    .nonblocking (register i) (if i = 0 then input else register (i - 1))

/-- All registers of a chain become zero. -/
def clear (register : Nat → String) (length : Nat) : List Statement :=
  (List.range length).map fun i => .nonblocking (register i) (.bit false)

end Handshake
