import Handshake.Manager.Concat
import Handshake.Variant

/-!
# Units that pass their payload on

Merges and buffers hand a token on as it came, from `ins` to `outs`. With extra
signals such a unit is the same unit on a wider payload, inside a wrapper that
puts payload and extra signals side by side.

So a unit of this sort is given by a generator for a payload of any width, no
bits included, and by the number of its channels. Reading the parameters,
choosing a variant and wrapping are the same for all of them.
-/

namespace Handshake

/-- The number of channels, which must be positive. -/
def channelCount (params : Params) : Except Error Nat := do
  let size ← params.count .size
  if size = 0 then .error (ParamKey.size.refusal "must be positive") else .ok size

/--
Generates a unit that passes its payload on. `size` is the number of channels of
`ins` if that is an array, and `generate` builds the unit for a payload of the
given width.
-/
def passThrough (id : Identity) (kind : String) (params : Params) (size : Option Nat)
    (generate : Identity → Nat → Except Error Artifact) : Except Error Artifact := do
  match ← Variant.ofParams kind .all params .bitwidth with
  | .dataless => generate id 0
  | .scalar width => generate id width
  | .signalManaged width extra =>
    Manager.concat id [⟨"ins", width, extra, size⟩] [⟨"outs", width, extra, none⟩] extra generate

/-- The ports of a unit from `ins`, with some channels, to `outs`. -/
def passThroughPorts (size width : Nat) : List Port :=
  clockPorts ++ handshakePorts .input "ins" width size ++ handshakePorts .output "outs" width 1

end Handshake
