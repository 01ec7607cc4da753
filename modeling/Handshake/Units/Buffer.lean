import Handshake.Units.DataBreak
import Handshake.Units.ReadyBreak

/-!
# Buffers

A buffer is one of the two one-slot buffers, selected by a tag or, where there
is no tag, by whether the buffer is to be transparent.
-/

namespace Handshake

/-- Which paths a buffer cuts. -/
inductive BufferType where
  /-- The data and valid paths. -/
  | breakData
  /-- The ready path. -/
  | breakReady
deriving DecidableEq

namespace BufferType

/-- The buffer type of a tag. -/
def ofTag? (tag : String) : Option BufferType :=
  if tag = "ONE_SLOT_BREAK_DV" then some .breakData
  else if tag = "ONE_SLOT_BREAK_R" then some .breakReady
  else none

/-- A buffer type as messages show it. -/
def display : BufferType → String
  | .breakData => "OneSlotBreakDv"
  | .breakReady => "OneSlotBreakR"

/-- The buffer type that parameters ask for. A transparent buffer cuts the ready path. -/
def ofParams (params : Params) : Except Error BufferType := do
  if params.has .bufferType then
    let tag ← params.string .bufferType
    match ofTag? tag with
    | some bufferType => .ok bufferType
    | none => .error (ParamKey.bufferType.refusal ("unsupported buffer type " ++ Error.mark tag))
  else
    let transparent ← params.flagOr .transparent false
    return if transparent then .breakReady else .breakData

end BufferType

namespace Buffer

/-- The buffer that parameters ask for. It has one slot, so no other number may be asked for. -/
def ofParams (id : Identity) (params : Params) : Except Error Artifact := do
  let bufferType ← BufferType.ofParams params
  let slots ← params.countOr .numSlots 1
  if slots ≠ 1 then
    throw (ParamKey.numSlots.refusal (bufferType.display ++ " has one slot, not " ++ slots.repr))
  match bufferType with
  | .breakData => DataBreak.ofParams id params
  | .breakReady => ReadyBreak.ofParams id params

end Buffer

end Handshake
