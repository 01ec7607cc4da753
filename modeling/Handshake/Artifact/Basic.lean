import Handshake.Error
import Handshake.Verilog.Render

/-!
# Artifacts

An artifact is what a request is answered with: module definitions, each
standing after the modules that it instantiates, and the names of the modules
that someone else provides. The requested unit is the last block.

One name has one meaning. Adding a block that is already there changes nothing;
a block of the same name and another content is refused, and so is a name that
would be both a block and external.
-/

namespace Handshake

/-- The definition of a module. -/
structure Block where
  /-- The module. -/
  content : Module
  /-- The cycles from an input transfer to the matching output transfer, when nothing stalls. -/
  latency : Nat
deriving DecidableEq

/-- The name that a block defines. -/
def Block.identity (b : Block) : String := b.content.name

/-- Module definitions, dependencies first, and the external modules that they instantiate. -/
structure Artifact where
  /-- The definitions, in order. -/
  blocks : List Block
  /-- The names of external modules, in order of first mention. -/
  externals : List String
deriving DecidableEq

namespace Artifact

/-- The artifact that defines nothing. -/
def empty : Artifact := ⟨[], []⟩

/-- The block of the requested unit. -/
def top? (a : Artifact) : Option Block := a.blocks.getLast?

/-- The block that defines a name. -/
def get? (a : Artifact) (name : String) : Option Block := a.blocks.find? fun b => b.identity == name

/-- The latency of the requested unit. -/
def latency (a : Artifact) : Nat := (a.top?.map Block.latency).getD 0

/-- All definitions as text. -/
def render (a : Artifact) : String := "\n".intercalate (a.blocks.map fun b => b.content.render)

/-- Whether a name may be instantiated. -/
def defines (a : Artifact) (name : String) : Bool :=
  (a.get? name).isSome || a.externals.contains name

/-- Adds an external name, if it is not there. -/
def addExternal (a : Artifact) (name : String) : Artifact :=
  if a.externals.contains name then a else { a with externals := a.externals ++ [name] }

/-- Adds a block, if it is not there. -/
def insert (a : Artifact) (b : Block) : Except Error Artifact :=
  match a.get? b.identity with
  | some existing => if existing = b then .ok a else .error (.nameCollision b.identity)
  | none =>
    if a.externals.contains b.identity then .error (.nameCollision b.identity)
    else .ok { a with blocks := a.blocks ++ [b] }

/-- Declares an external name, which no block may define. -/
def declare (a : Artifact) (name : String) : Except Error Artifact :=
  if (a.get? name).isSome then .error (.nameCollision name) else .ok (a.addExternal name)

/--
Adds items one by one until one is refused. What was added before that stays:
the second component is the artifact as it stands at the end, whatever the
outcome.
-/
def addAll {α : Type} (add : Artifact → α → Except Error Artifact) (a : Artifact) :
    List α → Except Error Unit × Artifact
  | [] => (.ok (), a)
  | x :: rest =>
    match add a x with
    | .ok a' => addAll add a' rest
    | .error e => (.error e, a)

/-- Takes over the externals of another artifact, then its blocks, as far as none is refused. -/
def merge (a other : Artifact) : Except Error Unit × Artifact :=
  match addAll declare a other.externals with
  | (.ok (), a') => addAll insert a' other.blocks
  | (.error e, a') => (.error e, a')

/--
The first name that a block instantiates although it is neither defined, nor
external, nor itself.
-/
def unresolved? (a : Artifact) (b : Block) : Option String :=
  b.content.instantiated.find? fun name => name != b.identity && !a.defines name

/-- Adds a block after the blocks that it instantiates. -/
def define (a : Artifact) (b : Block) : Except Error Artifact :=
  match a.unresolved? b with
  | some name => .error (.unresolvedReference b.identity name)
  | none => a.insert b

end Artifact

end Handshake
