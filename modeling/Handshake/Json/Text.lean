/-!
# Writing JSON

Written JSON is compact. A string escapes the quote, the backslash and the
characters below the blank, by a short escape where there is one and by four
lower-case hexadecimal digits otherwise; all other characters are written raw.

Nothing else is needed for a request: parameters are integers, truth values,
strings and maps of widths, and the request is an object of three fields. There
are no blanks between tokens, and the fields of an object stand in the order in
which they are given.
-/

namespace Handshake.Json

/-- A hexadecimal digit, in lower case. -/
def hexDigit (n : Nat) : Char := Nat.digitChar n

/-- One character of a written string. -/
def writeChar (c : Char) : List Char :=
  if c = '"' then ['\\', '"']
  else if c = '\\' then ['\\', '\\']
  else if c = '\x08' then ['\\', 'b']
  else if c = '\x0c' then ['\\', 'f']
  else if c = '\n' then ['\\', 'n']
  else if c = '\r' then ['\\', 'r']
  else if c = '\t' then ['\\', 't']
  else if c.toNat < 0x20 then
    ['\\', 'u', '0', '0', hexDigit (c.toNat / 16), hexDigit (c.toNat % 16)]
  else [c]

/-- A written string. -/
def writeString (text : String) : String :=
  "\"" ++ String.ofList (text.toList.flatMap writeChar) ++ "\""

/-- A written integer. -/
def writeInteger (value : Int) : String := toString value

/-- A written truth value. -/
def writeBool (value : Bool) : String := if value then "true" else "false"

/-- A written object, from its keys and the texts of its values. -/
def writeObject (fields : List (String × String)) : String :=
  "\x7b" ++ ",".intercalate
    (fields.map fun (key, value) => writeString key ++ ":" ++ value) ++ "\x7d"

end Handshake.Json
