import Handshake.Units.PassThrough

/-!
# Merge without a buffer

A combinational merge of several channels into one: the lowest valid channel is
served, the others wait until it has been.

The payload is chosen by a chain of conditionals over the valid bits, from the
lowest channel up, in which the last channel needs no test. A channel is ready
if the output is and no lower channel is valid, whether or not it is valid
itself. There are no registers, so the clock and the reset are unused.
-/

namespace Handshake.PriorityMerge

/-- The valid bit of a channel. -/
def valid (size channel : Nat) : Expr := Expr.select "ins_valid" size channel 1

/-- The payload of a channel. -/
def data (size width channel : Nat) : Expr :=
  Expr.select "ins" (size * width) (channel * width) width

/-- The payload of the lowest valid channel; the last channel is taken if no lower one is valid. -/
def selected (size width : Nat) : Expr :=
  (List.range (size - 1)).foldr (fun i rest => .cond (valid size i) (data size width i) rest)
    (data size width (size - 1))

/-- A channel is ready when the output is and no lower channel is valid. -/
def ready (size channel : Nat) : Expr :=
  if channel = 0 then "outs_ready"
  else Expr.and "outs_ready" (Expr.any ((List.range channel).map (valid size))).complement

/-- The module of a merge. -/
def body (size width : Nat) : Module :=
  anonymous (passThroughPorts size width)
    [.assigns (ifData width [drive "outs" (selected size width)] ++
      [drive "outs_valid" (Expr.any ((List.range size).map (valid size)))] ++
      (List.range size).map fun i => drive (Expr.select "ins_ready" size i 1) (ready size i))]

/-- A merge of some channels. -/
def generate (size : Nat) (id : Identity) (width : Nat) : Except Error Artifact :=
  (Accumulator.start id).finish (body size width) 0

/-- The merge that parameters ask for. -/
def ofParams (id : Identity) (params : Params) : Except Error Artifact := do
  let size ← channelCount params
  passThrough id "merge_notehb" params (some size) (generate size)

end Handshake.PriorityMerge
