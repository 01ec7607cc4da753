/-!
# Lines of a text

Generated text is indented one line at a time, so what counts as a line is part
of every answer. A line ends at a line feed; one carriage return standing
directly before that line feed belongs to the line's end and not to the line. A
text that ends in a line feed has no further, empty line after it, and the last
line of a text keeps a carriage return that no line feed follows.
-/

namespace Handshake

namespace Lines

/-- Adds a character in front of the first line. -/
def prepend (c : Char) : List (List Char) → List (List Char)
  | [] => [[c]]
  | line :: later => (c :: line) :: later

/--
Reads one character in front of lines already read. The flag says that the
character read before this one was a line feed, in which case a carriage return
is part of the line's end.
-/
def read (c : Char) (lines : List (List Char) × Bool) : List (List Char) × Bool :=
  if c = '\n' then ([] :: lines.1, true)
  else if c = '\r' && lines.2 then (lines.1, false)
  else (prepend c lines.1, false)

end Lines

/-- The lines of a text, without their ends. -/
def lines (text : List Char) : List (List Char) :=
  (text.foldr Lines.read ([], false)).1

/-- Moves one line to the right. An empty line stays empty, so no blanks trail in the output. -/
def indentLine (columns : Nat) (line : List Char) : List Char :=
  if line.isEmpty then [] else List.replicate columns ' ' ++ line

/-- Moves every line of a text to the right and ends all lines but the last by a line feed. -/
def indent (columns : Nat) (text : String) : String :=
  String.intercalate "\n"
    ((lines text.toList).map fun line => String.ofList (indentLine columns line))

end Handshake
