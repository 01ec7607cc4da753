import Handshake.Json.Token

/-!
# Values of a JSON text

Tokens are put together by a machine with a stack: `State` says what may come
next, and a `Frame` is an array or an object that has been opened and not yet
closed. The machine takes one token at a time, so a text may be nested to any
depth.

A text is one value, and nothing may follow it. Fields that have one name twice
are kept as they come, since it is for the reader of the value to object. A
number that is not an integer is recognised, but its value is not kept: whoever
meets one refuses it.
-/

namespace Handshake

/-- A JSON value. A key of an object, like any string, has no text if its surrogates stand alone. -/
inductive Json where
  /-- The value `null`. -/
  | null
  /-- A truth value. -/
  | bool (value : Bool)
  /-- An integer. -/
  | integer (value : Int)
  /-- A number that is no integer. -/
  | decimal
  /-- A string, with its text if it spells one. -/
  | string (text : Option String)
  /-- An array. -/
  | array (items : List Json)
  /-- An object, its fields in order, with repetitions. -/
  | object (fields : List (Option String × Json))

namespace Json

/-- An array or an object that is still open. What it holds so far is kept last first. -/
inductive Frame where
  /-- An array. -/
  | array (items : List Json)
  /-- An object, inside the field of the given key. -/
  | field (fields : List (Option String × Json)) (key : Option String)

/-- What may come next. -/
inductive State where
  /-- A value. -/
  | value (outer : List Frame)
  /-- The first item of an array, or its end. -/
  | firstItem (outer : List Frame)
  /-- A comma in an array, or its end. -/
  | afterItem (items : List Json) (outer : List Frame)
  /-- The first key of an object, or its end. -/
  | firstKey (outer : List Frame)
  /-- A key. -/
  | nextKey (fields : List (Option String × Json)) (outer : List Frame)
  /-- The colon after a key. -/
  | colon (fields : List (Option String × Json)) (key : Option String) (outer : List Frame)
  /-- A comma in an object, or its end. -/
  | afterField (fields : List (Option String × Json)) (outer : List Frame)
  /-- Nothing: the value is complete. -/
  | done (value : Json)

/-- Puts a complete value into what is open around it. -/
def State.complete (value : Json) : List Frame → State
  | [] => .done value
  | .array items :: outer => .afterItem (value :: items) outer
  | .field fields key :: outer => .afterField ((key, value) :: fields) outer

/-- Begins a value with a token, if one can begin so. -/
def State.opening (outer : List Frame) : Token → Option State
  | .openBrace => some (.firstKey outer)
  | .openBracket => some (.firstItem outer)
  | .null => some (.complete .null outer)
  | .bool b => some (.complete (.bool b) outer)
  | .integer i => some (.complete (.integer i) outer)
  | .decimal => some (.complete .decimal outer)
  | .string text => some (.complete (.string text) outer)
  | .closeBrace | .closeBracket | .comma | .colon => none

/-- Takes one token. -/
def State.take : State → Token → Option State
  | .value outer, token => State.opening outer token
  | .firstItem outer, .closeBracket => some (.complete (.array []) outer)
  | .firstItem outer, token => State.opening (.array [] :: outer) token
  | .afterItem items outer, .comma => some (.value (.array items :: outer))
  | .afterItem items outer, .closeBracket => some (.complete (.array items.reverse) outer)
  | .firstKey outer, .closeBrace => some (.complete (.object []) outer)
  | .firstKey outer, .string key => some (.colon [] key outer)
  | .nextKey fields outer, .string key => some (.colon fields key outer)
  | .colon fields key outer, .colon => some (.value (.field fields key :: outer))
  | .afterField fields outer, .comma => some (.nextKey fields outer)
  | .afterField fields outer, .closeBrace => some (.complete (.object fields.reverse) outer)
  | _, _ => none

/-- The value of a text, if the text is one value and nothing else. -/
def parse? (text : String) : Option Json := do
  let tokens ← tokens? text.toList
  match ← tokens.foldlM State.take (.value []) with
  | .done value => some value
  | _ => none

end Json

end Handshake
