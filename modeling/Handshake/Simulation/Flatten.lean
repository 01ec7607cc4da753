import Handshake.Artifact.Basic
import Handshake.Simulation.Fault

/-!
# Flattening an artifact

Flattening replaces every instance of a module that the artifact defines by the
items of that module. The signals of an instance `i` are renamed to `i__s`; its
ports become nets, driven from the connected expressions or driving them.
Instances of external modules stay.

Blocks are listed dependencies first, so flattening goes through the list once,
and each block finds the flattened form of everything it instantiates among the
blocks before it. A fault inside a block counts only where the block is used.
-/

namespace Handshake

/-! ## Renaming -/

namespace Expr

variable (rename : String → String)

mutual
/-- Renames every signal of an expression. -/
def renamed : Expr → Expr
  | .number literal => .number literal
  | .ident name => .ident (rename name)
  | .index name position => .index (rename name) (renamed position)
  | .slice name base length => .slice (rename name) (renamed base) (renamed length)
  | .concat parts => .concat (renamedAll parts)
  | .paren inner => .paren (renamed inner)
  | .not operand => .not (renamed operand)
  | .binary op lhs rhs => .binary op (renamed lhs) (renamed rhs)
  | .cond test onTrue onFalse => .cond (renamed test) (renamed onTrue) (renamed onFalse)
/-- Renames every signal of some expressions. -/
def renamedAll : List Expr → List Expr
  | [] => []
  | e :: rest => renamed e :: renamedAll rest
end

end Expr

namespace Statement

variable (rename : String → String)

mutual
/-- Renames every signal of a statement. -/
def renamed : Statement → Statement
  | .branch test onTrue onFalse =>
      .branch (test.renamed rename) (renamedAll onTrue) (renamedAll onFalse)
  | .nonblocking target value => .nonblocking (target.renamed rename) (value.renamed rename)
/-- Renames every signal of some statements. -/
def renamedAll : List Statement → List Statement
  | [] => []
  | s :: rest => renamed s :: renamedAll rest
end

end Statement

namespace Item

variable (rename : String → String)

mutual
/-- Renames every signal and every instance of an item. -/
def renamed : Item → Item
  | .declarations list => .declarations (list.map fun d => { d with name := rename d.name })
  | .assigns list => .assigns (list.map fun a => ⟨a.target.renamed rename, a.value.renamed rename⟩)
  | .inst i =>
    .inst { i with
      name := rename i.name
      connections := i.connections.map fun (port, value) =>
        (port, value.map (Expr.renamed rename)) }
  | .always event body => .always event (Statement.renamedAll rename body)
  | .commented comment items => .commented comment (renamedAll items)
/-- Renames every signal and every instance of some items. -/
def renamedAll : List Item → List Item
  | [] => []
  | item :: rest => renamed item :: renamedAll rest
end

end Item

/-! ## Inlining -/

/-- The name that a signal of an instance takes in the module around it. -/
def Instance.signalName (i : Instance) (signal : String) : String := i.name ++ "__" ++ signal

/-- The assign of one connection; none for an open port. -/
def Instance.connect (i : Instance) (sub : Module) (connection : String × Option Expr) :
    Except Fault (List Assign) :=
  match sub.port? connection.1, connection.2 with
  | none, _ => .error (.noPort sub.name connection.1)
  | some _, none => .ok []
  | some port, some value =>
    let inner : Expr := i.signalName connection.1
    .ok [match port.direction with
      | .input => ⟨inner, value⟩
      | .output => ⟨value, inner⟩]

/-- The items that take the place of an instance of the flattened module `sub`. -/
def Instance.inline (i : Instance) (sub : Module) : Except Fault (List Item) := do
  let connected ← i.connections.mapM (i.connect sub)
  return .declarations (sub.ports.map fun p => Decl.net p.width (i.signalName p.name)) ::
    Item.renamedAll i.signalName sub.items ++ [.assigns connected.flatten]

/-- Flattened modules by name. A module may have a fault. -/
abbrev FlatModules : Type := List (String × Except Fault Module)

namespace Item

variable (flat : FlatModules) (self : String)

mutual
/-- Inlines the instances of an item of the module `self`. -/
def inlined : Item → Except Fault (List Item)
  | .inst i =>
    if i.moduleName = self then .error (.selfInstance self)
    else
      match flat.lookup i.moduleName with
      | some sub => do i.inline (← sub)
      | none => .ok [.inst i]
  | .commented comment items => do
    let inner ← inlinedAll items
    return [.commented comment inner]
  | item => .ok [item]
/-- Inlines the instances of some items. -/
def inlinedAll : List Item → Except Fault (List Item)
  | [] => .ok []
  | item :: rest => do
    let first ← inlined item
    let later ← inlinedAll rest
    return first ++ later
end

end Item

/-- Flattens a module, given the flattened forms of those it instantiates. -/
def Module.flatten (flat : FlatModules) (m : Module) : Except Fault Module := do
  let items ← Item.inlinedAll flat m.name m.items
  return { m with items }

namespace Artifact

/-- The flattened forms of blocks, each found by those after it. -/
def flatModules (blocks : List Block) : FlatModules :=
  blocks.foldl (fun flat b => flat ++ [(b.identity, b.content.flatten flat)]) []

/-- The requested unit as one module. -/
def flatten (a : Artifact) : Except Fault Module :=
  match (flatModules a.blocks).getLast? with
  | some (_, top) => top
  | none => .error .noTop

end Artifact

end Handshake
