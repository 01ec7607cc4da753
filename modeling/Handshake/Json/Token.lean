/-!
# Tokens of a JSON text

The text is read one character at a time. What has been read so far is either
complete tokens, or complete tokens and the beginning of one more; `Mode` says
which. A number or a word ends at the first character that cannot continue it,
and that character is then read as the beginning of something new.

A string is read in two steps. Inside the quotes, each `\u` escape stands for
one unit of UTF-16; the units make up a text only if surrogates come in pairs. A
string whose units do not is still a token, without a text: it may stand where
nobody asks for the text.
-/

namespace Handshake.Json

/-- One piece of a string, as it was written. -/
inductive Piece where
  /-- A character, raw or by a short escape. -/
  | char (c : Char)
  /-- One unit of UTF-16, by its number. -/
  | unit (code : Nat)
deriving DecidableEq

/-- Whether a unit opens a surrogate pair. -/
def isHighSurrogate (code : Nat) : Bool := 0xD800 ≤ code && code < 0xDC00

/-- Whether a unit closes a surrogate pair. -/
def isLowSurrogate (code : Nat) : Bool := 0xDC00 ≤ code && code < 0xE000

/-- The character of a surrogate pair. -/
def pairedChar (high low : Nat) : Char :=
  Char.ofNat (0x10000 + (high - 0xD800) * 0x400 + (low - 0xDC00))

/-- The text that pieces spell, unless a surrogate stands alone among them. -/
def spell? : List Piece → Option (List Char)
  | [] => some []
  | .char c :: rest => (spell? rest).map (c :: ·)
  | .unit code :: rest =>
    if isHighSurrogate code then
      match rest with
      | .unit low :: later =>
          if isLowSurrogate low then (spell? later).map (pairedChar code low :: ·) else none
      | _ => none
    else if isLowSurrogate code then none
    else (spell? rest).map (Char.ofNat code :: ·)

/-- A token. -/
inductive Token where
  /-- An opening brace. -/
  | openBrace
  /-- A closing brace. -/
  | closeBrace
  /-- An opening bracket. -/
  | openBracket
  /-- A closing bracket. -/
  | closeBracket
  /-- A comma. -/
  | comma
  /-- A colon. -/
  | colon
  /-- The word `null`. -/
  | null
  /-- The word `true` or `false`. -/
  | bool (value : Bool)
  /-- A number without fraction and exponent. -/
  | integer (value : Int)
  /-- Any other number. Nothing here takes one, so its value is not kept. -/
  | decimal
  /-- A string, with its text if it spells one. -/
  | string (text : Option String)
deriving DecidableEq

/-! ## Numbers and words -/

/-- The value of decimal digits. -/
def digitsValue (digits : List Char) : Nat :=
  digits.foldl (fun value d => 10 * value + (d.toNat - '0'.toNat)) 0

/-- Whether characters are one digit or more. -/
def isDigits (cs : List Char) : Bool := !cs.isEmpty && cs.all Char.isDigit

/-- Drops a sign in front of an exponent. -/
def dropSign : List Char → List Char
  | '+' :: rest => rest
  | '-' :: rest => rest
  | cs => cs

/-- Whether characters are nothing, or the exponent of a number. -/
def isExponent : List Char → Bool
  | [] => true
  | e :: rest => (e == 'e' || e == 'E') && isDigits (dropSign rest)

/-- Whether characters can follow the whole part of a number: a fraction, an exponent, or both. -/
def isDecimalTail : List Char → Bool
  | '.' :: rest =>
      isDigits (rest.takeWhile Char.isDigit) && isExponent (rest.dropWhile Char.isDigit)
  | cs => isExponent cs

/-- The token of a number without its sign. A negative zero is no integer. -/
def unsignedNumber? (negative : Bool) (cs : List Char) : Option Token :=
  let whole := cs.takeWhile Char.isDigit
  let tail := cs.dropWhile Char.isDigit
  if isDigits whole && (whole == ['0'] || whole.head? != some '0') then
    if tail.isEmpty then
      let value := digitsValue whole
      if negative then (if value = 0 then some .decimal else some (.integer (-(value : Int))))
      else some (.integer value)
    else if isDecimalTail tail then some .decimal
    else none
  else none

/-- The token that the characters of a number make. -/
def number? : List Char → Option Token
  | '-' :: rest => unsignedNumber? true rest
  | cs => unsignedNumber? false cs

/-- The token that a word makes. -/
def word? (letters : List Char) : Option Token :=
  if letters = ['n', 'u', 'l', 'l'] then some .null
  else if letters = ['t', 'r', 'u', 'e'] then some (.bool true)
  else if letters = ['f', 'a', 'l', 's', 'e'] then some (.bool false)
  else none

/-! ## Reading -/

/-- What has been begun. Pieces and characters are kept last first. -/
inductive Mode where
  /-- Nothing. -/
  | between
  /-- A word. -/
  | word (letters : List Char)
  /-- A number. -/
  | number (chars : List Char)
  /-- A string. -/
  | string (pieces : List Piece)
  /-- An escape in a string. -/
  | escape (pieces : List Piece)
  /-- A numeric escape in a string: the digits still to come, and the value of those read. -/
  | hex (pieces : List Piece) (missing value : Nat)
deriving DecidableEq

/-- Where the reader stands: the tokens read, last first, and what has been begun. -/
structure Reader where
  /-- The tokens read, last first. -/
  tokens : List Token
  /-- What has been begun. -/
  mode : Mode
deriving DecidableEq

/-- A blank between tokens. -/
def isBlank (c : Char) : Bool := c == ' ' || c == '\t' || c == '\n' || c == '\r'

/-- The token of a character that is one by itself. -/
def mark? (c : Char) : Option Token :=
  if c = '\x7b' then some .openBrace
  else if c = '\x7d' then some .closeBrace
  else if c = '[' then some .openBracket
  else if c = ']' then some .closeBracket
  else if c = ',' then some .comma
  else if c = ':' then some .colon
  else none

/-- The character that a short escape stands for. -/
def shortEscape? (c : Char) : Option Char :=
  if c = '"' then some '"'
  else if c = '\\' then some '\\'
  else if c = '/' then some '/'
  else if c = 'b' then some '\x08'
  else if c = 'f' then some '\x0c'
  else if c = 'n' then some '\n'
  else if c = 'r' then some '\r'
  else if c = 't' then some '\t'
  else none

/-- The value of a hexadecimal digit, in either case. -/
def hexValue? (c : Char) : Option Nat :=
  if c.isDigit then some (c.toNat - '0'.toNat)
  else if 'a' ≤ c ∧ c ≤ 'f' then some (c.toNat - 'a'.toNat + 10)
  else if 'A' ≤ c ∧ c ≤ 'F' then some (c.toNat - 'A'.toNat + 10)
  else none

/-- Whether a character can continue a number. -/
def isNumberPart (c : Char) : Bool :=
  c.isDigit || c == '-' || c == '+' || c == '.' || c == 'e' || c == 'E'

/-- Begins something new. -/
def start (tokens : List Token) (c : Char) : Option Reader :=
  if isBlank c then some ⟨tokens, .between⟩
  else if c = '"' then some ⟨tokens, .string []⟩
  else if c = '-' || c.isDigit then some ⟨tokens, .number [c]⟩
  else if c.isLower then some ⟨tokens, .word [c]⟩
  else (mark? c).map fun token => ⟨token :: tokens, .between⟩

/-- Reads one character. -/
def Reader.read (r : Reader) (c : Char) : Option Reader :=
  match r.mode with
  | .between => start r.tokens c
  | .word letters =>
    if c.isLower then some ⟨r.tokens, .word (c :: letters)⟩
    else (word? letters.reverse).bind fun token => start (token :: r.tokens) c
  | .number chars =>
    if isNumberPart c then some ⟨r.tokens, .number (c :: chars)⟩
    else (number? chars.reverse).bind fun token => start (token :: r.tokens) c
  | .string pieces =>
    if c = '"' then some ⟨.string ((spell? pieces.reverse).map String.ofList) :: r.tokens, .between⟩
    else if c = '\\' then some ⟨r.tokens, .escape pieces⟩
    else if c.toNat < 0x20 then none
    else some ⟨r.tokens, .string (.char c :: pieces)⟩
  | .escape pieces =>
    if c = 'u' then some ⟨r.tokens, .hex pieces 4 0⟩
    else (shortEscape? c).map fun escaped => ⟨r.tokens, .string (.char escaped :: pieces)⟩
  | .hex pieces missing value =>
    (hexValue? c).map fun digit =>
      if missing ≤ 1 then ⟨r.tokens, .string (.unit (16 * value + digit) :: pieces)⟩
      else ⟨r.tokens, .hex pieces (missing - 1) (16 * value + digit)⟩

/-- The tokens at the end of a text. A string that is still open makes none. -/
def Reader.finish (r : Reader) : Option (List Token) :=
  match r.mode with
  | .between => some r.tokens.reverse
  | .word letters => (word? letters.reverse).map fun token => (token :: r.tokens).reverse
  | .number chars => (number? chars.reverse).map fun token => (token :: r.tokens).reverse
  | .string _ | .escape _ | .hex _ _ _ => none

/-- The tokens of a text. -/
def tokens? (text : List Char) : Option (List Token) :=
  (text.foldlM Reader.read ⟨[], .between⟩).bind Reader.finish

end Handshake.Json
