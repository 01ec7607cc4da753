import Handshake.Text.Unprintable

/-!
# Quoted text

Messages show a text between double quotes. Inside, the quote itself, the
backslash and the common controls have short escapes, every other character that
would not show is written by its code point, and all else stands as it is.
-/

namespace Handshake

/-- One character of a quoted text. -/
def quoteChar (c : Char) : String :=
  if c = '\x00' then "\\0"
  else if c = '\t' then "\\t"
  else if c = '\r' then "\\r"
  else if c = '\n' then "\\n"
  else if c = '"' then "\\\""
  else if c = '\\' then "\\\\"
  else if isUnprintable c then "\\u\x7b" ++ String.ofList (Nat.toDigits 16 c.toNat) ++ "\x7d"
  else String.singleton c

/-- A text between quotes. -/
def quote (text : String) : String := "\"" ++ String.join (text.toList.map quoteChar) ++ "\""

end Handshake
