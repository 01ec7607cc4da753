import Handshake.Units.Operator

/-!
# Floating-point operators

Multiplication and subtraction on cores that someone else provides. Operands are
converted from IEEE-754 to the format of the cores, which has two more bits, and
the result is converted back. Subtraction runs on an adder, with the sign of the
right operand flipped.

The control is that of all operators, for the latency of the core, which depends
on the operation and on the precision. Cores and converters are external
modules: they are declared by name, and a unit cannot bear the name of one that
it relies on.
-/

namespace Handshake

/-- The precision of floating-point operands. -/
inductive Precision where
  /-- Operands of 32 bits. -/
  | single
  /-- Operands of 64 bits. -/
  | double
deriving DecidableEq

namespace Precision

/-- The width of an operand. -/
def width : Precision → Nat
  | .single => 32
  | .double => 64

/-- The precision that parameters ask for. -/
def ofParams (params : Params) : Except Error Precision := do
  let isDouble ← params.flag .isDouble
  return if isDouble then .double else .single

end Precision

/-- A floating-point operation. -/
inductive FloatOperator where
  /-- Multiplication. -/
  | mul
  /-- Subtraction. -/
  | sub
deriving DecidableEq

namespace FloatOperator

/-- The kind of unit. -/
def kind : FloatOperator → String
  | .mul => "mulf"
  | .sub => "subf"

/-- The cycles from operands to result. -/
def latency : FloatOperator → Precision → Nat
  | .mul, _ => 4
  | .sub, .single => 9
  | .sub, .double => 12

/-- The external core. -/
def core : FloatOperator → Precision → String
  | .mul, .single => "FloatingPointMultiplier"
  | .mul, .double => "FPMult_64bit"
  | .sub, .single => "FloatingPointAdder"
  | .sub, .double => "FPAdd_64bit"

/-- The external converter of operands. -/
def inputConverter (p : Precision) : String := "InputIEEE_" ++ p.width.repr ++ "bit"

/-- The external converter of results. -/
def outputConverter (p : Precision) : String := "OutputIEEE_" ++ p.width.repr ++ "bit"

/-- The name of the right operand as the core takes it. -/
def rightOperand : FloatOperator → String
  | .mul => "rhs"
  | .sub => "rhs_neg"

/-- The signals around the core. -/
def decls (op : FloatOperator) (p : Precision) : List Decl :=
  [Decl.net (p.width + 2) "ip_lhs", Decl.net (p.width + 2) "ip_rhs",
    Decl.net (p.width + 2) "ip_result"] ++
    match op with
    | .mul => []
    | .sub => [Decl.net p.width "rhs_neg"]

/-- Flips the sign of the right operand. -/
def negation (p : Precision) : Assign :=
  drive "rhs_neg" (.concat
    [(Expr.select "rhs" p.width (p.width - 1) 1).complement,
      Expr.select "rhs" p.width 0 (p.width - 1)])

/-- A converter. -/
def converter (moduleName name source target : String) : Item :=
  .inst ⟨moduleName, name, [wire "X" source, wire "R" target]⟩

/-- The datapath: converters and core. -/
def datapath (op : FloatOperator) (p : Precision) : List Item :=
  [.declarations (decls op p)] ++
    (match op with
      | .mul => []
      | .sub => [.assigns [negation p]]) ++
    [converter (inputConverter p) "ieee2nfloat_lhs" "lhs" "ip_lhs",
      converter (inputConverter p) "ieee2nfloat_rhs" op.rightOperand "ip_rhs",
      converter (outputConverter p) "nfloat2ieee_result" "ip_result" "result",
      .inst ⟨op.core p, "ip",
        [sameName "clk", wire "ce" Operator.enable, wire "X" "ip_lhs", wire "Y" "ip_rhs",
          wire "R" "ip_result"]⟩]

/-- An operator without extra signals. -/
def generate (op : FloatOperator) (p : Precision) (id : Identity) : Except Error Artifact := do
  let (control, depth, acc) ← Operator.control (Accumulator.start id) (op.latency p)
  let acc ← [inputConverter p, outputConverter p, op.core p].foldlM Accumulator.external acc
  acc.finish (anonymous (Operator.ports p.width) (control ++ op.datapath p)) depth

/-- The operator that parameters ask for. -/
def ofParams (op : FloatOperator) (id : Identity) (params : Params) : Except Error Artifact := do
  let p ← Precision.ofParams params
  let extra ← params.extraSignals
  let variant ← Variant.choose op.kind .dataOnly p.width extra
  Operator.generate id variant (op.latency p) (generate op p)

end FloatOperator

end Handshake
