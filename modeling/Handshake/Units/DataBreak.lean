import Handshake.Units.PassThrough

/-!
# One slot that cuts the data and valid paths

Outputs come from registers, one cycle after the inputs. The input is ready when
the slot is empty or is being emptied.

So nothing that the producer does is seen by the consumer in the same cycle, but
the ready signal of the consumer passes straight through while the slot is full.
The payload is stored only with a valid token, whereas the valid bit follows the
input whenever the slot is ready. A reset clears the valid bit and leaves the
payload alone.
-/

namespace Handshake.DataBreak

/-- The registers of the slot. -/
def decls (width : Nat) : List Decl :=
  [Decl.reg 1 "valid_reg"] ++ ifData width [Decl.reg width "data_reg"]

/-- What drives the outputs. -/
def assigns (width : Nat) : List Assign :=
  [drive "ins_ready" (Expr.or (Expr.complement "valid_reg") "outs_ready"),
    drive "outs_valid" "valid_reg"] ++
    ifData width [drive "outs" "data_reg"]

/-- The slot takes over the valid bit of the input whenever it is ready. -/
def validProcess : Item :=
  .clocked [.branch "rst" [.nonblocking "valid_reg" (.bit false)]
    [.branch "ins_ready" [.nonblocking "valid_reg" "ins_valid"] []]]

/-- The slot takes over the payload with each token. -/
def dataProcess : Item :=
  .clocked [.branch (Expr.and "ins_ready" "ins_valid") [.nonblocking "data_reg" "ins"] []]

/-- The module of the buffer. -/
def body (width : Nat) : Module :=
  anonymous (passThroughPorts 1 width)
    ([.declarations (decls width), .assigns (assigns width), validProcess] ++
      ifData width [dataProcess])

/-- The buffer for a payload. -/
def generate (id : Identity) (width : Nat) : Except Error Artifact :=
  (Accumulator.start id).finish (body width) 1

/-- The buffer that parameters ask for. -/
def ofParams (id : Identity) (params : Params) : Except Error Artifact :=
  passThrough id "one_slot_break_dv" params none generate

end Handshake.DataBreak
