import Handshake.Manager.Concat
import Handshake.Manager.DelayLine

/-!
# Carrying extra signals past a unit

For units that compute a new payload. Extra signals cannot travel through such a
unit, so they enter a delay line when the operands are consumed and leave it
when the matching result is produced. The line advances under the same condition
as the unit's pipeline, which keeps the two aligned whatever stalls. The extra
signals of the first input are the ones that are kept.

The wrapper has two submodules, the unit and the line, and no registers. A token
enters the line when all inputs are valid; whether the line advances is decided
by its own last stage and by the consumer, so it has no ready signal towards the
producer, and none is connected. The unit must have the latency that was
announced, which is checked before the line is built.
-/

namespace Handshake.Manager

/-- The connections of the wrapped unit to the ports of a group: payload, valid and ready. -/
def coreWires (g : PortGroup) : List (String × Option Expr) :=
  ifData g.width [sameName g.name] ++ [sameName g.valid, sameName g.ready]

/-- Puts the extra signals of the first channel of a group on the bus that enters the delay line. -/
def packSignals (first : PortGroup) (layout : Layout) : List Assign :=
  layout.slices.map fun s =>
    drive (Expr.select "extra_ins" layout.total s.lo s.width)
      (Expr.select (first.fieldName s.field) (first.channels * s.width) 0 s.width)

/-- Puts what leaves the delay line on every channel of the outputs. -/
def unpackSignals (outs : List PortGroup) (layout : Layout) : List Assign :=
  layout.slices.flatMap fun s =>
    outs.flatMap fun g =>
      (List.range g.channels).map fun channel =>
        drive (Expr.select (g.fieldName s.field) (g.channels * s.width) (channel * s.width) s.width)
          (Expr.select "extra_outs" layout.total s.lo s.width)

/-- All channels of all inputs are valid. -/
def allValid (ins : List PortGroup) : Expr :=
  Expr.all (ins.flatMap fun g =>
    (List.range g.channels).map fun channel => Expr.select g.valid g.channels channel 1)

/-- The wrapper around the module `inner` and the delay line `line`. -/
def bypassBody (inner line : String) (ports : List Port) (ins outs : List PortGroup)
    (first drain : PortGroup) (layout : Layout) : Module :=
  anonymous ports <|
    [.declarations
        (ifData layout.total
            [Decl.net layout.total "extra_ins", Decl.net layout.total "extra_outs"] ++
          [Decl.net 1 "extra_ins_valid"]),
      .inst ⟨inner, Role.inner.token, clockWires ++ (ins ++ outs).flatMap coreWires⟩,
      .commented "Delay extra signals alongside the inner pipeline"
        [.assigns (packSignals first layout ++ [drive "extra_ins_valid" (allValid ins)]),
          .inst ⟨line, Role.buff.token,
            clockWires ++ ifData layout.total [wire "ins" "extra_ins"] ++
              [wire "ins_valid" "extra_ins_valid"] ++
              ifData layout.total [wire "outs" "extra_outs"] ++
              [leaveOpen "outs_valid",
                wire "outs_ready" (Expr.select drain.ready drain.channels 0 1)]⟩]] ++
    unlessEmpty (unpackSignals outs layout) .assigns

/--
Wraps a unit so that the extra signals go past it. The unit must have the
latency that is announced, since the delay line has that many stages; the first
output drains the line.
-/
def bypass (id : Identity) (ins outs : List PortGroup) (extra : ExtraSignals)
    (generateInner : Identity → Except Error Artifact) (latency : Nat) : Except Error Artifact :=
  match ins, outs with
  | first :: _, drain :: _ => do
    checkPortGroups ins outs extra
    let (inner, acc) ← (Accumulator.start id).require .inner generateInner
    if inner.latency ≠ latency then
      throw (.latencyMismatch id.text latency inner.latency)
    let (line, acc) ← acc.require .buff (DelayLine.mk latency extra.totalWidth).generate
    let layout ← Layout.of 0 extra
    acc.finish
      (bypassBody inner.name line.name (outerPorts ins outs) ins outs first drain layout) latency
  | _, _ => .error noPorts

end Handshake.Manager
