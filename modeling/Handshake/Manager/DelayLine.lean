import Handshake.Artifact.Accumulator
import Handshake.PortGroup
import Handshake.Verilog.Wiring

/-!
# Delay lines

A delay line is a chain of stages, each with a valid bit and some data. All
stages advance together, whenever the last one is empty or its consumer is
ready; a reset empties all of them. A line without stages is a wire.

The valid bits and the data are kept by separate processes, since a reset clears
the former only. A line may have no data: its ports, registers and second
process are then left out.
-/

namespace Handshake

/-- A delay line. -/
structure DelayLine where
  /-- The number of stages. -/
  latency : Nat
  /-- The width of a stage's data. -/
  width : Nat
deriving DecidableEq

namespace DelayLine

/-- The valid bit of a stage. -/
def validName (stage : Nat) : String := "valid_" ++ stage.repr

/-- The data of a stage. -/
def dataName (stage : Nat) : String := "data_" ++ stage.repr

/-- The ports of a line. -/
def ports (line : DelayLine) : List Port :=
  clockPorts ++ ifData line.width [Port.input line.width "ins"] ++ [Port.input 1 "ins_valid"] ++
    ifData line.width [Port.output line.width "outs"] ++
      [Port.output 1 "outs_valid", Port.input 1 "outs_ready"]

/-- Drives the outputs. -/
def outputs (line : DelayLine) (data valid : String) : Item :=
  .assigns (ifData line.width [drive "outs" data] ++ [drive "outs_valid" valid])

/-- The registers of all stages, and the enable. -/
def decls (line : DelayLine) : List Decl :=
  (List.range line.latency).map (fun i => Decl.reg 1 (validName i)) ++
    ifData line.width ((List.range line.latency).map fun i => Decl.reg line.width (dataName i)) ++
    [Decl.net 1 "en"]

/-- The valid bits: emptied by a reset, moved on by the enable. -/
def validProcess (line : DelayLine) : Item :=
  .clocked [.branch "rst" (clear validName line.latency)
    [.branch "en" (shift "ins_valid" validName line.latency) []]]

/-- The data, moved on by the enable. -/
def dataProcess (line : DelayLine) : Item :=
  .clocked [.branch "en" (shift "ins" dataName line.latency) []]

/-- The module of a line. -/
def body (line : DelayLine) : Module :=
  anonymous line.ports <|
    if line.latency = 0 then [line.outputs "ins" "ins_valid"]
    else
      let last := line.latency - 1
      [.declarations line.decls,
        .assigns [drive "en" (Expr.or (Expr.complement (validName last)) "outs_ready")],
        line.validProcess] ++
      ifData line.width [line.dataProcess] ++
      [line.outputs (dataName last) (validName last)]

/-- The artifact of a line. -/
def generate (line : DelayLine) (id : Identity) : Except Error Artifact :=
  (Accumulator.start id).finish line.body line.latency

end DelayLine

end Handshake
