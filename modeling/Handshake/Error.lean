import Handshake.Shape

/-!
# Why a unit cannot be generated

Each constructor is one cause, with what is needed to name the culprit;
`Error.message` is the only place where causes are put into words.

Causes fall in three groups. A request may be at fault: its kind is unknown, its
parameters are refused, or the unit does not come in the shape they ask for. A
generator may be at fault, announcing a latency that it does not build. And
modules may not fit together: a name is taken, or something is instantiated that
is not there.
-/

namespace Handshake

/-- A cause for which generation stops. -/
inductive Error where
  /-- A parameter is missing, has the wrong type, or has a value that no unit accepts. -/
  | invalidParameter (key reason : String)
  /-- The kind of unit does not exist in the shape that the parameters ask for. -/
  | unsupportedVariant (kind : String) (shape : Shape)
  /-- A unit was announced with a latency that differs from the depth of its pipeline. -/
  | latencyMismatch (unit : String) (declared actual : Nat)
  /-- A name stands for two different things. -/
  | nameCollision (identity : String)
  /-- A module instantiates one that is neither defined before it nor external. -/
  | unresolvedReference (moduleName referenced : String)
  /-- There is no such kind of unit. -/
  | unknownKind (kind : String)
deriving DecidableEq

namespace Error

/-- Sets a name off from the words around it. -/
def mark (name : String) : String := "`" ++ name ++ "`"

/-- A cause in words. -/
def message : Error → String
  | .invalidParameter key reason => "invalid parameter " ++ mark key ++ ": " ++ reason
  | .unsupportedVariant kind shape =>
      "unit kind " ++ mark kind ++ " has no " ++ shape.render ++ " variant"
  | .latencyMismatch unit declared actual =>
    "unit " ++ mark unit ++ " declares latency " ++ declared.repr ++
      " but its pipeline depth is " ++ actual.repr
  | .nameCollision identity =>
      "identity " ++ mark identity ++ " is defined more than once with different content"
  | .unresolvedReference moduleName referenced =>
    "module " ++ mark moduleName ++ " instantiates " ++ mark referenced ++
      ", which is not defined before it"
  | .unknownKind kind => "unknown unit kind " ++ mark kind

end Error

end Handshake
