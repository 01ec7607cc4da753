import Handshake.Units.Operator

/-!
# Integer multiplier

A multiplier of four cycles: registers for the operands, then three registers
for the product, which is cut to the width of the operands.

The core computes, and knows nothing of handshakes; it advances while its enable
is high. Around it stands the control that all operators share, built for the
same latency, and its last stage enables core and control together. That the two
latencies agree is checked when the multiplier is put together. A multiplier of
no bits does not exist, not even with extra signals.
-/

namespace Handshake.Multiplier

/-- The number of registers that a product passes through. -/
def productStages : Nat := 3

/-- The cycles from operands to product. -/
def latency : Nat := 1 + productStages

/-- A register of the product. -/
def productName (stage : Nat) : String := "q" ++ stage.repr

/-- The ports of the core. -/
def corePorts (width : Nat) : List Port :=
  [Port.input 1 "clk", Port.input 1 "ce", Port.input width "a", Port.input width "b",
    Port.output width "p"]

/-- The registers of the core, and the product of the registered operands. -/
def coreDecls (width : Nat) : List Decl :=
  [Decl.reg width "a_reg", Decl.reg width "b_reg"] ++
    (List.range productStages).map (fun i => Decl.reg width (productName i)) ++
      [Decl.net width "mul"]

/-- The core without its control: it advances while `ce` is high. -/
def coreBody (width : Nat) : Module :=
  anonymous (corePorts width)
    [.declarations (coreDecls width),
      .assigns [drive "mul" (Expr.mul "a_reg" "b_reg"),
        drive "p" (productName (productStages - 1))],
      .clocked [.branch "ce"
        ([.nonblocking "a_reg" "a", .nonblocking "b_reg" "b"] ++
          shift "mul" productName productStages) []]]

/-- The core for operands of some width. -/
def generateCore (id : Identity) (width : Nat) : Except Error Artifact :=
  (Accumulator.start id).finish (coreBody width) latency

/-- The core inside the multiplier. -/
def coreInstance (moduleName : String) : Instance :=
  ⟨moduleName, "multiply_unit",
    [sameName "clk", wire "ce" Operator.enable, wire "a" "lhs", wire "b" "rhs", wire "p" "result"]⟩

/-- A multiplier without extra signals. Core and control must agree on the latency. -/
def generate (id : Identity) (width : Nat) : Except Error Artifact := do
  let (core, acc) ← (Accumulator.start id).require .mul4Stage fun coreId =>
    generateCore coreId width
  let (control, depth, acc) ← Operator.control acc latency
  if core.latency ≠ depth then
    throw (.latencyMismatch id.text depth core.latency)
  acc.finish (anonymous (Operator.ports width) (control ++ [.inst (coreInstance core.name)])) depth

/-- The width of the operands of a variant. Extra signals alone are nothing to multiply. -/
def operandWidth : Variant → Except Error Nat
  | .scalar width | .signalManaged width _ =>
    if 0 < width then .ok width else .error (.unsupportedVariant "muli" .dataless)
  | .dataless => .error (.unsupportedVariant "muli" .dataless)

/-- The multiplier that parameters ask for. -/
def ofParams (id : Identity) (params : Params) : Except Error Artifact := do
  let variant ← Variant.ofParams "muli" .dataOnly params .bitwidth
  let width ← operandWidth variant
  Operator.generate id variant latency fun coreId => generate coreId width

end Handshake.Multiplier
