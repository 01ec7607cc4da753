import Handshake.Manager.Bypass
import Handshake.Units.DataBreak
import Handshake.Units.DelayBuffer
import Handshake.Units.Join

/-!
# Operators of fixed latency

A binary operator joins its operands, sends their valid bit through a delay
buffer of one slot less than its latency, and ends in a buffer that cuts the
data and valid paths. The ready signal of that last buffer enables every stage
of the pipeline, the datapath included, so that data and valid bits stall
together.

The control is the same for every operation; what differs is the datapath, which
is put beside it and enabled by the same signal. The latency of an operator is
measured along the valid bit, and a core has to agree with it. Extra signals
never enter an operator: they go past it.
-/

namespace Handshake.Operator

/-- The signal that lets the pipeline advance. -/
def enable : String := "one_slot_break_dv_ready"

/-- The ports of an operator. -/
def ports (width : Nat) : List Port :=
  clockPorts ++ handshakePorts .input "lhs" width 1 ++ handshakePorts .input "rhs" width 1 ++
    handshakePorts .output "result" width 1

/-- The signals between the parts of the control. -/
def controlDecls : List Decl :=
  [Decl.net 1 "join_valid", Decl.net 1 "buff_valid", Decl.net 1 enable]

/-- The join of the operands. -/
def joinInstance (moduleName : String) : Instance :=
  ⟨moduleName, "join_inputs",
    [wire "ins_valid" (.concat ["rhs_valid", "lhs_valid"]), wire "outs_ready" enable,
      wire "outs_valid" "join_valid", wire "ins_ready" (.concat ["rhs_ready", "lhs_ready"])]⟩

/-- The delay of the valid bit. -/
def delayInstance (moduleName : String) : Instance :=
  ⟨moduleName, "buff",
    clockWires ++
      [wire "valid_in" "join_valid", wire "ready_in" enable, wire "valid_out" "buff_valid"]⟩

/-- The last stage. -/
def outputInstance (moduleName : String) : Instance :=
  ⟨moduleName, "one_slot_break_dv",
    clockWires ++
      [wire "ins_valid" "buff_valid", wire "ins_ready" enable, wire "outs_valid" "result_valid",
      wire "outs_ready" "result_ready"]⟩

/-- The control of an operator. -/
def controlItems (join delay output : String) : List Item :=
  [.declarations controlDecls, .inst (joinInstance join), .inst (delayInstance delay),
    .inst (outputInstance output)]

/--
Generates the parts of the control. Gives the items and the latency of the path
of the valid bit.
-/
def control (acc : Accumulator) (latency : Nat) : Except Error (List Item × Nat × Accumulator) := do
  let (join, acc) ← acc.require .join fun id => Join.generate id 2
  let (delay, acc) ← acc.require .buff fun id => DelayBuffer.generate id (latency - 1)
  let (output, acc) ← acc.require .oneSlotBreakDv fun id => DataBreak.generate id 0
  return (controlItems join.name delay.name output.name,
    join.latency + delay.latency + output.latency, acc)

/-- Generates an operator in the given variant. Extra signals go past it. -/
def generate (id : Identity) (variant : Variant) (latency : Nat)
    (core : Identity → Except Error Artifact) : Except Error Artifact :=
  match variant with
  | .signalManaged width extra =>
    let group (name : String) : PortGroup := ⟨name, width, extra, none⟩
    Manager.bypass id [group "lhs", group "rhs"] [group "result"] extra core latency
  | .dataless | .scalar _ => core id

end Handshake.Operator
