import Handshake.Params

/-!
# Choosing a variant

Extra signals always ask for the wrapped variant of a unit. Without them the
width of the payload decides: an empty payload asks for the dataless variant,
any other for the scalar one.
-/

namespace Handshake

/-- The shapes in which a kind of unit exists. -/
structure Support where
  /-- Without payload. -/
  dataless : Bool
  /-- With a payload. -/
  scalar : Bool
  /-- With extra signals. -/
  signalManaged : Bool
deriving DecidableEq

namespace Support

/-- Every shape exists. -/
def all : Support := ⟨true, true, true⟩

/-- The unit computes on its payload, so it has one. -/
def dataOnly : Support := ⟨false, true, true⟩

/-- Whether a shape exists. -/
def supports (s : Support) : Shape → Bool
  | .dataless => s.dataless
  | .scalar => s.scalar
  | .signalManaged => s.signalManaged

end Support

/-- The variant of a unit to generate, with what it needs. -/
inductive Variant where
  /-- Valid and ready only. -/
  | dataless
  /-- A payload of some width. -/
  | scalar (width : Nat)
  /-- A payload, possibly empty, and extra signals. -/
  | signalManaged (width : Nat) (extra : ExtraSignals)
deriving DecidableEq

namespace Variant

/-- The shape of a variant. -/
def shape : Variant → Shape
  | .dataless => .dataless
  | .scalar _ => .scalar
  | .signalManaged _ _ => .signalManaged

/-- The variant for a payload width and extra signals. -/
def of (width : Nat) (extra : ExtraSignals) : Variant :=
  if extra.isEmpty then (if width = 0 then .dataless else .scalar width)
  else .signalManaged width extra

/-- The variant of a unit, which must exist in its shape. -/
def choose (kind : String) (support : Support) (width : Nat) (extra : ExtraSignals) :
    Except Error Variant :=
  let variant := of width extra
  if support.supports variant.shape then .ok variant
  else .error (.unsupportedVariant kind variant.shape)

/-- The variant that parameters ask for; the payload width stands under `widthKey`. -/
def ofParams (kind : String) (support : Support) (params : Params) (widthKey : ParamKey) :
    Except Error Variant := do
  let width ← params.count widthKey
  let extra ← params.extraSignals
  choose kind support width extra

end Variant

end Handshake
