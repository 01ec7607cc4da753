import Handshake.PortGroup

/-!
# The ports of a signal manager

A signal manager wraps a unit that knows only its payload, so that extra signals
travel with its tokens. To the outside it has all ports of the groups it is
given, each with the extra signals.
-/

namespace Handshake.Manager

/-- The refusal of a wrapper that would have no input or no output. -/
def noPorts : Error :=
  .invalidParameter "ports" "a signal manager needs at least one input and one output port"

/-- The ports of a wrapper: clock and reset, the inputs, then the outputs. -/
def outerPorts (ins outs : List PortGroup) : List Port :=
  clockPorts ++ ins.flatMap (·.ports .input) ++ outs.flatMap (·.ports .output)

/-- Checks every group in its order, then that no name is used twice. -/
def checkPortGroups (ins outs : List PortGroup) (extra : ExtraSignals) : Except Error Unit := do
  (ins ++ outs).forM fun g => g.validate extra
  checkPorts (outerPorts ins outs)

end Handshake.Manager
