/-!
# Shapes of a unit

A unit comes in up to three shapes: with no payload at all, with a payload, or
wrapped so that extra signals travel along with its tokens.
-/

namespace Handshake

/-- The shape in which a unit is generated. -/
inductive Shape where
  /-- Valid and ready only. -/
  | dataless
  /-- A payload and no extra signals. -/
  | scalar
  /-- Extra signals, carried by a wrapper around the unit. -/
  | signalManaged
deriving DecidableEq

/-- The word for a shape. -/
def Shape.render : Shape → String
  | .dataless => "dataless"
  | .scalar => "scalar"
  | .signalManaged => "signal-managed"

end Handshake
