/-!
# Identifiers

A name may stand in generated text if it is a simple identifier (a letter or an
underscore, then letters, digits and underscores, all of them ASCII) and is not
a reserved word of Verilog-2001. Reserved words are case-sensitive: `ALWAYS` is
an ordinary name.
-/

namespace Handshake

/-- The reserved words of Verilog-2001. -/
def reservedWords : List String := [
  "always", "and", "assign", "automatic", "begin", "buf", "bufif0", "bufif1", "case",
  "casex", "casez", "cell", "cmos", "config", "deassign", "default", "defparam", "design",
  "disable", "edge", "else", "end", "endcase", "endconfig", "endfunction", "endgenerate",
  "endmodule", "endprimitive", "endspecify", "endtable", "endtask", "event", "for", "force",
  "forever", "fork", "function", "generate", "genvar", "highz0", "highz1", "if", "ifnone", "incdir",
  "include", "initial", "inout", "input", "instance", "integer", "join", "large", "liblist",
  "library", "localparam", "macromodule", "medium", "module", "nand", "negedge", "nmos", "nor",
  "noshowcancelled", "not", "notif0", "notif1", "or", "output", "parameter", "pmos", "posedge",
  "primitive", "pull0", "pull1", "pulldown", "pullup", "pulsestyle_ondetect", "pulsestyle_onevent",
  "rcmos", "real", "realtime", "reg", "release", "repeat", "rnmos", "rpmos", "rtran", "rtranif0",
  "rtranif1", "scalared", "showcancelled", "signed", "small", "specify", "specparam", "strong0",
  "strong1", "supply0", "supply1", "table", "task", "time", "tran", "tranif0", "tranif1", "tri",
  "tri0", "tri1", "triand", "trior", "trireg", "unsigned", "use", "vectored", "wait", "wand",
  "weak0", "weak1", "while", "wire", "wor", "xnor", "xor"]

/-- A character that may begin an identifier. -/
def isNameStart (c : Char) : Bool := c.isAlpha || c == '_'

/-- A character that may continue an identifier. -/
def isNamePart (c : Char) : Bool := c.isAlphanum || c == '_'

/-- The shape of an identifier, reserved words included. -/
def isSimpleName : List Char → Bool
  | [] => false
  | c :: rest => isNameStart c && rest.all isNamePart

/-- A name that generated text may declare. -/
def isIdentifier (name : String) : Bool :=
  isSimpleName name.toList && !reservedWords.contains name

end Handshake
