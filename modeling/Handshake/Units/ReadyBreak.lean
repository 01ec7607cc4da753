import Handshake.Units.PassThrough

/-!
# One slot that cuts the ready path

While the slot is empty, tokens pass straight through. A token that the consumer
refuses is stored and offered again until it is accepted. Whether the input is
ready depends on the slot alone.

So the ready signal of the consumer is not seen by the producer in the same
cycle, while token and valid bit are seen at once. The register of the payload
follows the input as long as the slot is empty, so it holds the right token when
the slot turns out to be needed. A reset empties the slot.
-/

namespace Handshake.ReadyBreak

/-- The register that holds a refused token, and whether it does. -/
def decls (width : Nat) : List Decl :=
  [Decl.reg 1 "full"] ++ ifData width [Decl.reg width "data_reg"]

/-- What drives the outputs. -/
def assigns (width : Nat) : List Assign :=
  [drive "ins_ready" (Expr.complement "full"), drive "outs_valid" (Expr.or "ins_valid" "full")] ++
    ifData width [drive "outs" (.cond "full" "data_reg" "ins")]

/-- The slot is full after a cycle in which a token was offered and refused. -/
def fullProcess : Item :=
  .clocked [.branch "rst" [.nonblocking "full" (.bit false)]
    [.nonblocking "full" (Expr.and "outs_valid" (Expr.complement "outs_ready"))]]

/-- The slot follows the input while it is empty. -/
def dataProcess : Item := .clocked [.branch "ins_ready" [.nonblocking "data_reg" "ins"] []]

/-- The module of the buffer. -/
def body (width : Nat) : Module :=
  anonymous (passThroughPorts 1 width)
    ([.declarations (decls width), .assigns (assigns width), fullProcess] ++
      ifData width [dataProcess])

/-- The buffer for a payload. -/
def generate (id : Identity) (width : Nat) : Except Error Artifact :=
  (Accumulator.start id).finish (body width) 0

/-- The buffer that parameters ask for. -/
def ofParams (id : Identity) (params : Params) : Except Error Artifact :=
  passThrough id "one_slot_break_r" params none generate

end Handshake.ReadyBreak
