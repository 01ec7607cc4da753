import Handshake.Error
import Handshake.Text.Identifier

/-!
# Identities of generated modules

The name of a submodule is derived: the name of its parent, an underscore, and
the token of the role that it plays there. The identity keeps the path of roles,
so a parent can be found again, and its text is what appears in generated
modules.

Only the name of the requested unit comes from outside, and it is checked once,
when the identity is made. The roles are few and fixed; a generator asks for a
submodule by its role and cannot choose another name for it.
-/

namespace Handshake

/-- What a submodule is for in its parent. -/
inductive Role where
  /-- The unit that a wrapper or a buffered unit is built around. -/
  | inner
  /-- A delay beside or inside a pipeline. -/
  | buff
  /-- The synchronisation of operands. -/
  | join
  /-- A buffer that cuts the ready path. -/
  | oneSlotBreakR
  /-- A buffer that cuts the data and valid paths. -/
  | oneSlotBreakDv
  /-- A pipelined multiplier. -/
  | mul4Stage
deriving DecidableEq

/-- A role in the name of a module. -/
def Role.token : Role → String
  | .inner => "inner"
  | .buff => "buff"
  | .join => "join"
  | .oneSlotBreakR => "one_slot_break_r"
  | .oneSlotBreakDv => "one_slot_break_dv"
  | .mul4Stage => "mul_4_stage"

/-- The identity of a generated module: a root name and the roles that lead to the module. -/
structure Identity where
  /-- The name of the requested unit. -/
  root : String
  /-- The roles from the requested unit down to this module. -/
  roles : List Role
  /-- The root is a legal name. -/
  root_isIdentifier : isIdentifier root = true
deriving DecidableEq

namespace Identity

/-- The identity of a requested unit. -/
def ofName (name : String) : Except Error Identity :=
  if h : isIdentifier name = true then .ok ⟨name, [], h⟩
  else .error (.invalidParameter "name" (Error.mark name ++ " is not a valid module name"))

/-- The identity of the submodule playing a role. -/
def child (id : Identity) (role : Role) : Identity := { id with roles := id.roles ++ [role] }

/-- The identity of the module that this one was derived from. -/
def parent? (id : Identity) : Option Identity :=
  if id.roles.isEmpty then none else some { id with roles := id.roles.dropLast }

/-- The name of the module. -/
def text (id : Identity) : String :=
  id.roles.foldl (fun name role => name ++ "_" ++ role.token) id.root

@[simp] theorem text_child (id : Identity) (role : Role) :
    (id.child role).text = id.text ++ "_" ++ role.token := by
  simp [text, child]

@[simp] theorem parent?_child (id : Identity) (role : Role) :
    (id.child role).parent? = some id := by
  simp [parent?, child]

end Identity

end Handshake
