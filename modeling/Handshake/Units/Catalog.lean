import Handshake.Request
import Handshake.Units.Buffer
import Handshake.Units.FloatOperator
import Handshake.Units.Merge
import Handshake.Units.Multiplier

/-!
# The catalogue of units

Every kind of unit has a tag, and a generator that reads its parameters.
`generate` answers a request: the name is checked first, then the kind is looked
up by its tag, and the rest is left to the generator of that kind.

There are three sorts of kinds. Joins and delay buffers carry no payload; merges
and buffers pass a payload on as it came; the multiplier and the floating-point
operators compute a new one. The last two sorts accept extra signals, each in
its own manner.
-/

namespace Handshake

/-- A kind of unit. -/
inductive UnitKind where
  /-- Synchronises channels. -/
  | join
  /-- Merges channels, without a buffer. -/
  | priorityMerge
  /-- Merges channels. -/
  | merge
  /-- One of the one-slot buffers, by its parameters. -/
  | buffer
  /-- The one-slot buffer that cuts the ready path. -/
  | readyBreak
  /-- The one-slot buffer that cuts the data and valid paths. -/
  | dataBreak
  /-- Delays a valid bit. -/
  | delayBuffer
  /-- Multiplies integers. -/
  | multiplier
  /-- Computes on floating-point numbers. -/
  | float (op : FloatOperator)
deriving DecidableEq

namespace UnitKind

/-- The tag of a kind. -/
def tag : UnitKind → String
  | .join => "join"
  | .priorityMerge => "merge_notehb"
  | .merge => "merge"
  | .buffer => "buffer"
  | .readyBreak => "one_slot_break_r"
  | .dataBreak => "one_slot_break_dv"
  | .delayBuffer => "delay_buffer"
  | .multiplier => "muli"
  | .float op => op.kind

/-- All kinds. -/
def all : List UnitKind :=
  [.join, .priorityMerge, .merge, .buffer, .readyBreak, .dataBreak, .delayBuffer, .multiplier,
    .float .mul, .float .sub]

/-- The kind of a tag. -/
def ofTag? (tag : String) : Option UnitKind := all.find? fun kind => kind.tag == tag

/-- Generates a unit of a kind. -/
def generate (kind : UnitKind) (id : Identity) (params : Params) : Except Error Artifact :=
  match kind with
  | .join => Join.ofParams id params
  | .priorityMerge => PriorityMerge.ofParams id params
  | .merge => Merge.ofParams id params
  | .buffer => Buffer.ofParams id params
  | .readyBreak => ReadyBreak.ofParams id params
  | .dataBreak => DataBreak.ofParams id params
  | .delayBuffer => DelayBuffer.ofParams id params
  | .multiplier => Multiplier.ofParams id params
  | .float op => op.ofParams id params

/-- Generates a unit of the kind with the given tag. -/
def generateTagged (tag : String) (id : Identity) (params : Params) : Except Error Artifact :=
  match ofTag? tag with
  | some kind => kind.generate id params
  | none => .error (.unknownKind tag)

end UnitKind

/-- Generates the unit that is requested. -/
def generate (request : Request) : Except Error Artifact := do
  let id ← Identity.ofName request.name
  UnitKind.generateTagged request.kind id request.params

end Handshake
