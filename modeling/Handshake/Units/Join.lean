import Handshake.Units.PassThrough

/-!
# Join

A join turns several channels into one. The output is valid when all inputs are,
and an input is ready when the output is ready and all other inputs are valid,
so either all channels transfer or none does.

An input does not wait for its own valid bit to be ready: a producer that only
offers a token once it is answered would otherwise never offer one. A join has
no payload and no state. Operators use one to bring their operands together.
-/

namespace Handshake.Join

/-- The valid bit of a channel. -/
def valid (size channel : Nat) : Expr := Expr.select "ins_valid" size channel 1

/-- The ready bit of a channel: the output is ready, and every other channel is valid. -/
def ready (size channel : Nat) : Expr :=
  Expr.all ("outs_ready" :: ((List.range size).filter (· ≠ channel)).map (valid size))

/-- The module of a join. It has no clock. -/
def body (size : Nat) : Module :=
  anonymous (handshakePorts .input "ins" 0 size ++ handshakePorts .output "outs" 0 1)
    [.assigns (drive "outs_valid" (Expr.all ((List.range size).map (valid size))) ::
      (List.range size).map fun i => drive (Expr.select "ins_ready" size i 1) (ready size i))]

/-- A join of some channels. -/
def generate (id : Identity) (size : Nat) : Except Error Artifact :=
  (Accumulator.start id).finish (body size) 0

/-- The join that parameters ask for. A join carries no data and no extra signals. -/
def ofParams (id : Identity) (params : Params) : Except Error Artifact := do
  let extra ← params.extraSignals
  let _ ← Variant.choose "join" ⟨true, false, false⟩ 0 extra
  let size ← channelCount params
  generate id size

end Handshake.Join
