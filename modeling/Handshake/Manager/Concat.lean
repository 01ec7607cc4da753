import Handshake.Artifact.Accumulator
import Handshake.Manager.Ports
import Handshake.Verilog.Wiring

/-!
# Carrying extra signals through a unit

For units that pass their payload on unchanged. Next to each port `p` of the
wrapper stands a bus `p_inner`; a channel of the bus holds the payload and the
extra signals of that channel of `p`, in the layout of the group. The wrapped
unit sees the bus as its payload. Valid and ready pass untouched.

The wrapper consists of assigns, slice by slice and channel by channel: from
ports to buses for the inputs, and from buses to ports for the outputs. What is
empty is left out, be it a bus, a group of assigns or a declaration. The unit is
generated for the payload of the first input, widened by the extra signals.
-/

namespace Handshake.Manager

/-- A group of ports with the layout of its channels. -/
abbrev LaidOut : Type := PortGroup × Layout

namespace LaidOut

/-- The name of the bus of a group. -/
def bus (g : LaidOut) : String := g.1.name ++ "_inner"

/-- The width of the bus of a group. -/
def busWidth (g : LaidOut) : Nat := g.1.channels * g.2.total

/-- For each channel and each field, the slice of the bus and the slice of the outer port. -/
def fieldPairs (g : LaidOut) : List (Expr × Expr) :=
  (List.range g.1.channels).flatMap fun channel =>
    g.2.slices.map fun s =>
      (Expr.select (bus g) (busWidth g) (channel * g.2.total + s.lo) s.width,
        Expr.select (g.1.fieldName s.field) (g.1.channels * s.width) (channel * s.width) s.width)

/-- Drives the bus of an input from its outer ports. -/
def encode (g : LaidOut) : List Assign := (fieldPairs g).map fun (bus, outer) => drive bus outer

/-- Drives the outer ports of an output from its bus. -/
def decode (g : LaidOut) : List Assign := (fieldPairs g).map fun (bus, outer) => drive outer bus

/-- The declaration of the bus, unless it is empty. -/
def busDecl (g : LaidOut) : List Decl := ifData (busWidth g) [Decl.net (busWidth g) (bus g)]

/-- The connections of the wrapped unit. -/
def wires (g : LaidOut) : List (String × Option Expr) :=
  ifData (busWidth g) [wire g.1.name (bus g)] ++ [sameName g.1.valid, sameName g.1.ready]

end LaidOut

/-- An item for a list, unless the list is empty. -/
def unlessEmpty {α : Type} (xs : List α) (item : List α → Item) : List Item :=
  if xs.isEmpty then [] else [item xs]

/-- The wrapper around the module `inner`. -/
def concatBody (inner : String) (ports : List Port) (ins outs : List LaidOut) : Module :=
  anonymous ports <|
    unlessEmpty ((ins ++ outs).flatMap LaidOut.busDecl) .declarations ++
    unlessEmpty (ins.flatMap LaidOut.encode)
      (fun xs => .commented "Concatenate extra signals" [.assigns xs]) ++
    unlessEmpty (outs.flatMap LaidOut.decode)
      (fun xs => .commented "Split extra signals" [.assigns xs]) ++
    [.inst ⟨inner, Role.inner.token, clockWires ++ (ins ++ outs).flatMap LaidOut.wires⟩]

/-- A group with the layout of its channels. -/
def layOut (g : PortGroup) : Except Error LaidOut := do return (g, ← g.layout)

/--
Wraps a unit so that all its ports carry the extra signals. The unit is
generated for the payload of the first input and the extra signals together, and
the wrapper has its latency.
-/
def concat (id : Identity) (ins outs : List PortGroup) (extra : ExtraSignals)
    (generateInner : Identity → Nat → Except Error Artifact) : Except Error Artifact :=
  match ins, outs with
  | first :: _, _ :: _ => do
    checkPortGroups ins outs extra
    let width ← combinedWidth first.width extra
    let laidIns ← ins.mapM layOut
    let laidOuts ← outs.mapM layOut
    let (inner, acc) ← (Accumulator.start id).require .inner fun innerId =>
      generateInner innerId width
    acc.finish (concatBody inner.name (outerPorts ins outs) laidIns laidOuts) inner.latency
  | _, _ => .error noPorts

end Handshake.Manager
