import Handshake.Artifact.Accumulator
import Handshake.Params
import Handshake.PortGroup
import Handshake.Verilog.Wiring

/-!
# Delay buffers

A shift register of valid bits, which follows tokens through a pipeline of fixed
depth. It moves on whenever `ready_in` is high; without slots it is a wire.
-/

namespace Handshake.DelayBuffer

/-- The register of a slot. -/
def slotName (slot : Nat) : String := "regs_" ++ slot.repr

/-- The ports of a delay buffer. -/
def ports : List Port :=
  clockPorts ++ [Port.input 1 "valid_in", Port.input 1 "ready_in", Port.output 1 "valid_out"]

/-- The slots: emptied by a reset, moved on while ready. -/
def process (slots : Nat) : Item :=
  .clocked
    [.branch "rst" (clear slotName slots) [.branch "ready_in" (shift "valid_in" slotName slots) []]]

/-- The module of a delay buffer. -/
def body (slots : Nat) : Module :=
  anonymous ports <|
    if slots = 0 then [.assigns [drive "valid_out" "valid_in"]]
    else
      [.declarations ((List.range slots).map fun i => Decl.reg 1 (slotName i)), process slots,
        .assigns [drive "valid_out" (slotName (slots - 1))]]

/-- A delay buffer of some slots. -/
def generate (id : Identity) (slots : Nat) : Except Error Artifact :=
  (Accumulator.start id).finish (body slots) slots

/-- The delay buffer that parameters ask for. -/
def ofParams (id : Identity) (params : Params) : Except Error Artifact := do
  let slots ← params.count .numSlots
  generate id slots

end Handshake.DelayBuffer
