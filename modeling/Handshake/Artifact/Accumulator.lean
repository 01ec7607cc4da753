import Handshake.Artifact.Basic
import Handshake.Identity

/-!
# Accumulating an artifact

A module is generated by requiring its submodules, each under a role, and then
finishing with the module itself. What a submodule needs comes along with it, so
the artifact grows dependencies first. A role is used up by asking for it, even
if its submodule could not be generated.

`tryRequire` and `tryExternal` hand back the accumulator along with the outcome,
for a caller that goes on after a failure. `require` and `external` are for
generators, which stop at the first failure.
-/

namespace Handshake

/-- A submodule that has been generated. -/
structure Dependency where
  /-- The identity of the submodule. -/
  id : Identity
  /-- Its latency. -/
  latency : Nat
deriving DecidableEq

/-- The name under which a submodule is instantiated. -/
def Dependency.name (d : Dependency) : String := d.id.text

/-- The dependencies of one module, as far as they have been generated. -/
structure Accumulator where
  /-- The identity of the module. -/
  id : Identity
  /-- The roles asked for. -/
  roles : List Role
  /-- What has been generated. -/
  artifact : Artifact
deriving DecidableEq

namespace Accumulator

/-- Starts a module. -/
def start (id : Identity) : Accumulator := ⟨id, [], .empty⟩

/-- Takes over the artifact of a submodule, whose top must be the module that was asked for. -/
def absorb (acc : Accumulator) (id : Identity) (artifact : Artifact) :
    Except Error Dependency × Accumulator :=
  match artifact.top? with
  | some top =>
    if top.identity = id.text then
      let merged := acc.artifact.merge artifact
      (merged.1.map fun _ => ⟨id, top.latency⟩, { acc with artifact := merged.2 })
    else (.error (.unresolvedReference acc.id.text id.text), acc)
  | none => (.error (.unresolvedReference acc.id.text id.text), acc)

/-- Generates the submodule for a role that has not been asked for. -/
def tryRequire (acc : Accumulator) (role : Role) (generate : Identity → Except Error Artifact) :
    Except Error Dependency × Accumulator :=
  let id := acc.id.child role
  if acc.roles.contains role then (.error (.nameCollision id.text), acc)
  else
    let asked := { acc with roles := acc.roles ++ [role] }
    match generate id with
    | .ok artifact => asked.absorb id artifact
    | .error e => (.error e, asked)

/-- Declares a module that someone else provides. -/
def tryExternal (acc : Accumulator) (name : String) : Except Error Unit × Accumulator :=
  match acc.artifact.declare name with
  | .ok artifact => (.ok (), { acc with artifact })
  | .error e => (.error e, acc)

/-- Generates the submodule for a role. -/
def require (acc : Accumulator) (role : Role) (generate : Identity → Except Error Artifact) :
    Except Error (Dependency × Accumulator) :=
  let step := acc.tryRequire role generate
  step.1.map fun dependency => (dependency, step.2)

/-- Declares a module that someone else provides. -/
def external (acc : Accumulator) (name : String) : Except Error Accumulator :=
  let step := acc.tryExternal name
  step.1.map fun _ => step.2

/-- Adds the module itself, under its identity, and hands out the artifact. -/
def finish (acc : Accumulator) (content : Module) (latency : Nat) : Except Error Artifact :=
  acc.artifact.define ⟨{ content with name := acc.id.text }, latency⟩

end Accumulator

end Handshake
