import Handshake.Text.Lines
import Handshake.Verilog.Module

/-!
# The text of a module

What a module looks like in Verilog. Nesting is shown by four blanks a level,
added to the finished text of what is nested, line by line. A width of at most
one bit is not written.
-/

namespace Handshake

/-- How far nested text moves to the right. -/
def nesting : Nat := 4

/-- The range of a declared signal and the blank after it, nothing for a single bit. -/
def renderRange (width : Nat) : String := if 1 < width then "[" ++ width.repr ++ "-1:0] " else ""

/-- A direction as a port declaration writes it. -/
def Direction.render : Direction → String
  | .input => "input"
  | .output => "output"

/-- The declaration of a port. -/
def Port.render (p : Port) : String :=
  p.direction.render ++ " wire " ++ renderRange p.width ++ p.name

/-- The keyword of a declared signal. -/
def Storage.render : Storage → String
  | .net => "wire"
  | .reg => "reg"

/-- The declaration of a signal. -/
def Decl.render (d : Decl) : String :=
  d.storage.render ++ " " ++ renderRange d.width ++ d.name ++ ";"

/-- A continuous assign. -/
def Assign.render (a : Assign) : String :=
  "assign " ++ a.target.render ++ " = " ++ a.value.render ++ ";"

/-- One connection of an instance. An open port has empty parentheses. -/
def renderConnection (connection : String × Option Expr) : String :=
  "    ." ++ connection.1 ++ "(" ++ (connection.2.map Expr.render).getD "" ++ ")"

/-- An instance, one connection a line. -/
def Instance.render (i : Instance) : String :=
  i.moduleName ++ " " ++ i.name ++ " (\n" ++
    ",\n".intercalate (i.connections.map renderConnection) ++ "\n);"

mutual
/-- A statement. A branch without an alternative has no `else`. -/
def Statement.render : Statement → String
  | .branch test onTrue onFalse =>
    "if (" ++ test.render ++ ") begin\n" ++
      indent nesting ("\n".intercalate (Statement.renderAll onTrue)) ++
      (if onFalse.isEmpty then "\nend"
      else "\nend else begin\n" ++
        indent nesting ("\n".intercalate (Statement.renderAll onFalse)) ++ "\nend")
  | .nonblocking target value => target.render ++ " <= " ++ value.render ++ ";"
/-- The text of each statement. -/
def Statement.renderAll : List Statement → List String
  | [] => []
  | s :: rest => s.render :: Statement.renderAll rest
end

mutual
/-- An item. -/
def Item.render : Item → String
  | .declarations list => "\n".intercalate (list.map Decl.render)
  | .assigns list => "\n".intercalate (list.map Assign.render)
  | .inst i => i.render
  | .always event body =>
    event ++ " begin\n" ++ indent nesting ("\n".intercalate (Statement.renderAll body)) ++ "\nend"
  | .commented comment items =>
      "// " ++ comment ++ "\n" ++ "\n\n".intercalate (Item.renderAll items)
/-- The text of each item. -/
def Item.renderAll : List Item → List String
  | [] => []
  | item :: rest => item.render :: Item.renderAll rest
end

/-- A whole module. -/
def Module.render (m : Module) : String :=
  "`timescale 1ns / 1ps\n\nmodule " ++ m.name ++ " (\n" ++
    indent nesting (",\n".intercalate (m.ports.map Port.render)) ++ "\n);\n\n" ++
    indent nesting ("\n\n".intercalate (Item.renderAll m.items)) ++ "\n\nendmodule\n"

end Handshake
