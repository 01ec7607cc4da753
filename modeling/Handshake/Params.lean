import Handshake.ExtraSignals
import Handshake.Json.Text
import Handshake.Json.Value
import Handshake.OrderedMap
import Handshake.Text.Quoted

/-!
# Parameters

Parameters come as a map from names to loosely typed values. Generators read
them through the typed accessors of this module only, so that a missing name, a
wrong type or a number out of range is refused in one place and in one wording.

The keys that generators look up are a type of their own (`ParamKey`), which
ties each key to its name in a request and to its refusals. Parameters of other
names may be present; they are kept, written out again, and read by no one.
-/

namespace Handshake

/-- The names under which generators look for parameters. -/
inductive ParamKey where
  /-- The number of channels. -/
  | size
  /-- The number of slots of a buffer. -/
  | numSlots
  /-- Whether a buffer passes tokens through while it is empty. -/
  | transparent
  /-- Which buffer to build. -/
  | bufferType
  /-- The value of a constant. -/
  | value
  /-- The latency of an operator. -/
  | latency
  /-- The predicate of a comparison. -/
  | predicate
  /-- Whether data is left abstract. -/
  | abstractData
  /-- Whether floating-point operands have double precision. -/
  | isDouble
  /-- The width of the payload. -/
  | bitwidth
  /-- The width of an input. -/
  | inputBitwidth
  /-- The width of an output. -/
  | outputBitwidth
  /-- The width of a memory's data. -/
  | dataBitwidth
  /-- The width of an index. -/
  | indexBitwidth
  /-- The width of an address. -/
  | addrBitwidth
  /-- The extra signals. -/
  | extraSignals
deriving DecidableEq

namespace ParamKey

/-- A key as it is written in a parameter map. -/
def text : ParamKey → String
  | .size => "size"
  | .numSlots => "num_slots"
  | .transparent => "transparent"
  | .bufferType => "buffer_type"
  | .value => "value"
  | .latency => "latency"
  | .predicate => "predicate"
  | .abstractData => "abstract_data"
  | .isDouble => "is_double"
  | .bitwidth => "bitwidth"
  | .inputBitwidth => "input_bitwidth"
  | .outputBitwidth => "output_bitwidth"
  | .dataBitwidth => "data_bitwidth"
  | .indexBitwidth => "index_bitwidth"
  | .addrBitwidth => "addr_bitwidth"
  | .extraSignals => "extra_signals"

/-- All keys. -/
def all : List ParamKey :=
  [.size, .numSlots, .transparent, .bufferType, .value, .latency, .predicate, .abstractData,
    .isDouble, .bitwidth, .inputBitwidth, .outputBitwidth, .dataBitwidth, .indexBitwidth,
    .addrBitwidth, .extraSignals]

/-- The key that is written so. -/
def ofText? (text : String) : Option ParamKey := all.find? fun key => key.text == text

/-- A refusal of the parameter under a key. -/
def refusal (key : ParamKey) (reason : String) : Error := .invalidParameter key.text reason

end ParamKey

/-- The value of a parameter. -/
inductive ParamValue where
  /-- A truth value. -/
  | bool (value : Bool)
  /-- An integer. -/
  | int (value : Int64)
  /-- A text. -/
  | str (value : String)
  /-- Names of signals, each with an integer. -/
  | signals (value : OrderedMap Int64)
deriving DecidableEq

namespace ParamValue

/-- The word for the type of a value. -/
def typeName : ParamValue → String
  | .bool _ => "boolean"
  | .int _ => "integer"
  | .str _ => "string"
  | .signals _ => "signal map"

/-- A value as messages show it. -/
def display : ParamValue → String
  | .bool b => "Bool(" ++ Json.writeBool b ++ ")"
  | .int i => "Int(" ++ toString i.toInt ++ ")"
  | .str s => "Str(" ++ quote s ++ ")"
  | .signals m =>
    "Signals(\x7b" ++ ", ".intercalate (m.entries.map fun (name, width) =>
      quote name ++ ": " ++ toString width.toInt) ++ "\x7d)"

/-- Extra signals as a value. -/
def ofExtraSignals (extra : ExtraSignals) : ParamValue :=
  .signals (extra.signals.foldl (fun m s => m.insert s.name (Int64.ofNat s.width)) .empty)

end ParamValue

/-- The parameters of a unit. -/
abbrev Params : Type := OrderedMap ParamValue

namespace Params

/-- The value under a key. -/
def find? (p : Params) (key : ParamKey) : Option ParamValue := p.get? key.text

/-- Whether a key has a value. -/
def has (p : Params) (key : ParamKey) : Bool := (p.find? key).isSome

/-- Puts a value under a key, at the end. -/
def set (p : Params) (key : ParamKey) (value : ParamValue) : Params := p.insert key.text value

/-- The value under a key, which must be there. -/
def require (p : Params) (key : ParamKey) : Except Error ParamValue :=
  match p.find? key with
  | some value => .ok value
  | none => .error (key.refusal "missing")

/-- A number that is not negative and has 32 bits at most. -/
def count (p : Params) (key : ParamKey) : Except Error Nat := do
  match ← p.require key with
  | .int i =>
    if 0 ≤ i.toInt ∧ i.toInt < countLimit then .ok i.toInt.toNat
    else .error (key.refusal (toString i.toInt ++ " is out of range"))
  | other => .error (key.refusal ("expected integer, found " ++ other.typeName))

/-- A number as `count` reads it, or a default if the key is absent. -/
def countOr (p : Params) (key : ParamKey) (default : Nat) : Except Error Nat :=
  if p.has key then p.count key else .ok default

/-- A truth value. The integers 0 and 1 are taken for one as well. -/
def flag (p : Params) (key : ParamKey) : Except Error Bool := do
  match ← p.require key with
  | .bool b => .ok b
  | .int 0 => .ok false
  | .int 1 => .ok true
  | other => .error (key.refusal ("expected boolean, found " ++ other.display))

/-- A truth value as `flag` reads it, or a default if the key is absent. -/
def flagOr (p : Params) (key : ParamKey) (default : Bool) : Except Error Bool :=
  if p.has key then p.flag key else .ok default

/-- A text. -/
def string (p : Params) (key : ParamKey) : Except Error String := do
  match ← p.require key with
  | .str s => .ok s
  | other => .error (key.refusal ("expected string, found " ++ other.typeName))

/-- The extra signals; none if the key is absent. -/
def extraSignals (p : Params) : Except Error ExtraSignals :=
  match p.find? .extraSignals with
  | none => .ok .empty
  | some (.signals m) =>
      ExtraSignals.ofPairs (m.entries.map fun (name, width) => (name, width.toInt))
  | some other =>
      .error (ParamKey.extraSignals.refusal ("expected signal map, found " ++ other.typeName))

end Params

/-! ## Parameters as JSON -/

/-- An integer of 64 bits. -/
def int64? (value : Int) : Option Int64 :=
  if Int64.minValue.toInt ≤ value ∧ value ≤ Int64.maxValue.toInt then some (Int64.ofInt value)
  else none

/--
The map of an object's fields. A repeated key keeps its last value, and every
key needs a text.
-/
def OrderedMap.ofFields? {α : Type} (read : Json → Option α)
    (fields : List (Option String × Json)) : Option (OrderedMap α) :=
  fields.foldlM (fun m (key, value) => do return m.insert (← key) (← read value)) .empty

namespace ParamValue

/-- An integer of a signal map. -/
def integer? : Json → Option Int64
  | .integer i => int64? i
  | _ => none

/-- The parameter value that a JSON value stands for. -/
def ofJson? : Json → Option ParamValue
  | .bool b => some (.bool b)
  | .integer i => (int64? i).map .int
  | .string text => text.map .str
  | .object fields => (OrderedMap.ofFields? integer? fields).map .signals
  | .null | .decimal | .array _ => none

/-- A value, written as JSON. -/
def toJson : ParamValue → String
  | .bool b => Json.writeBool b
  | .int i => Json.writeInteger i.toInt
  | .str s => Json.writeString s
  | .signals m =>
      Json.writeObject (m.entries.map fun (name, width) => (name, Json.writeInteger width.toInt))

end ParamValue

namespace Params

/-- The parameters that a JSON value stands for. -/
def ofJson? : Json → Option Params
  | .object fields => OrderedMap.ofFields? ParamValue.ofJson? fields
  | _ => none

/-- The parameters that a text holds. -/
def parse? (text : String) : Option Params := (Json.parse? text).bind ofJson?

/-- Parameters, written as JSON. -/
def toJson (p : Params) : String :=
  Json.writeObject (p.entries.map fun (name, value) => (name, value.toJson))

end Params

end Handshake
