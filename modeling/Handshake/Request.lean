import Handshake.Params

/-!
# Requests

A request asks for one unit: its kind, its name, and its parameters. It is
written as a JSON object of these three, and is also read from an array of two
or three elements in that order. Fields of other names are passed over, whatever
they hold; a field of one of these names may appear once.

Parameters may be left out of either form, and are then empty. Whether the kind
exists and the name is legal is not looked at here; that is part of generating
the unit.
-/

namespace Handshake

/-- A request for one unit. -/
structure Request where
  /-- The kind of unit. -/
  kind : String
  /-- The name of the unit's module. -/
  name : String
  /-- The parameters. -/
  params : Params
deriving DecidableEq

namespace Request

/-- The fields of a request that have been read. -/
structure Draft where
  /-- The kind, if read. -/
  kind : Option String := none
  /-- The name, if read. -/
  name : Option String := none
  /-- The parameters, if read. -/
  params : Option Params := none

/-- The text of a JSON string. -/
def textOf? : Json → Option String
  | .string text => text
  | _ => none

/-- Reads one field. -/
def Draft.read (d : Draft) (field : Option String × Json) : Option Draft := do
  let key ← field.1
  if key = "kind" then
    if d.kind.isSome then none else return { d with kind := some (← textOf? field.2) }
  else if key = "name" then
    if d.name.isSome then none else return { d with name := some (← textOf? field.2) }
  else if key = "params" then
    if d.params.isSome then none else return { d with params := some (← Params.ofJson? field.2) }
  else return d

/-- The request, if kind and name have been read. -/
def Draft.finish (d : Draft) : Option Request := do
  return ⟨← d.kind, ← d.name, d.params.getD .empty⟩

/-- The request that a JSON value stands for. -/
def ofJson? : Json → Option Request
  | .object fields => (fields.foldlM Draft.read {}).bind Draft.finish
  | .array [kind, name] => do return ⟨← textOf? kind, ← textOf? name, .empty⟩
  | .array [kind, name, params] =>
      do return ⟨← textOf? kind, ← textOf? name, ← Params.ofJson? params⟩
  | _ => none

/-- Reads a request from JSON. -/
def parse (text : String) : Except Error Request :=
  match (Json.parse? text).bind ofJson? with
  | some request => .ok request
  | none => .error (.invalidParameter "request" "not the JSON text of a unit request")

/-- A request, written as JSON. -/
def toJson (r : Request) : String :=
  Json.writeObject
    [("kind", Json.writeString r.kind), ("name", Json.writeString r.name),
      ("params", r.params.toJson)]

end Request

end Handshake
