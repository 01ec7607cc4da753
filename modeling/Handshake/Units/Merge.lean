import Handshake.Units.PriorityMerge
import Handshake.Units.ReadyBreak

/-!
# Merge

A merge forwards a token from any of its input channels: a combinational merge,
and behind it a buffer that cuts the ready path.

The combinational merge chooses the channel. The buffer keeps the choice from
depending on the consumer: a token that was chosen and then refused is stored,
and no other one is taken before it has left. The merge has no assigns of its
own, it only connects its two submodules.
-/

namespace Handshake.Merge

/-- The signals between the merge and its buffer. -/
def decls (width : Nat) : List Decl :=
  ifData width [Decl.net width "one_slot_break_r_data_in"] ++
    [Decl.net 1 "one_slot_break_r_pvalid", Decl.net 1 "one_slot_break_r_ready"]

/-- The combinational merge. -/
def mergeInstance (moduleName : String) (width : Nat) : Instance :=
  ⟨moduleName, "merge_ins",
    clockWires ++ ifData width [sameName "ins"] ++
      [sameName "ins_valid", sameName "ins_ready", wire "outs_valid" "one_slot_break_r_pvalid",
        wire "outs_ready" "one_slot_break_r_ready"] ++
      ifData width [wire "outs" "one_slot_break_r_data_in"]⟩

/-- The buffer behind it. -/
def bufferInstance (moduleName : String) (width : Nat) : Instance :=
  ⟨moduleName, "one_slot_break_r",
    clockWires ++ ifData width [wire "ins" "one_slot_break_r_data_in"] ++
      [wire "ins_valid" "one_slot_break_r_pvalid", wire "ins_ready" "one_slot_break_r_ready",
        sameName "outs_valid", sameName "outs_ready"] ++
      ifData width [sameName "outs"]⟩

/-- The module of a merge. -/
def body (inner output : String) (size width : Nat) : Module :=
  anonymous (passThroughPorts size width)
    [.declarations (decls width), .inst (mergeInstance inner width),
      .inst (bufferInstance output width)]

/-- A merge of some channels. -/
def generate (size : Nat) (id : Identity) (width : Nat) : Except Error Artifact := do
  let (inner, acc) ← (Accumulator.start id).require .inner fun innerId =>
    PriorityMerge.generate size innerId width
  let (output, acc) ← acc.require .oneSlotBreakR fun bufferId => ReadyBreak.generate bufferId width
  acc.finish (body inner.name output.name size width) (inner.latency + output.latency)

/-- The merge that parameters ask for. -/
def ofParams (id : Identity) (params : Params) : Except Error Artifact := do
  let size ← channelCount params
  passThrough id "merge" params (some size) (generate size)

end Handshake.Merge
