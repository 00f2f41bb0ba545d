import PointsTo.Json.Basic

/-!
# Writing JSON

`Json.pretty` writes each item and each member on a line of its own, two spaces deeper than what holds
it; an empty array or object stays on one line. `Json.compact` writes no white space at all.

Quotes, backslashes and control characters are escaped, everything else is written as it is. A string
that denotes no text cannot be written; it is shown as an empty one.
-/

namespace PointsTo.Json

/-- The digit of a number below 16. -/
def hexDigit (n : Nat) : Char :=
  if n < 10 then Char.ofNat ('0'.toNat + n) else Char.ofNat ('a'.toNat + n - 10)

/-- How a character stands in a string. -/
def escapeChar (c : Char) : List Char :=
  if c = '\x22' then ['\\', '\x22']
  else if c = '\\' then ['\\', '\\']
  else if c = '\x08' then ['\\', 'b']
  else if c = '\x0c' then ['\\', 'f']
  else if c = '\n' then ['\\', 'n']
  else if c = '\r' then ['\\', 'r']
  else if c = '\t' then ['\\', 't']
  else if c.toNat < 0x20 then
    ['\\', 'u', '0', '0', hexDigit (c.toNat / 16), hexDigit (c.toNat % 16)]
  else [c]

/-- A string in its quotes. -/
def quote (s : List Char) : List Char := '\x22' :: (s.flatMap escapeChar ++ ['\x22'])

/-- A string or a key. -/
def textChars (t : JsonText) : List Char := quote (t.getD "").toList

/-- The start of a line at a depth. -/
def newline (depth : Nat) : List Char := '\n' :: List.replicate (2 * depth) ' '

mutual

/-- A value whose first line starts at `depth`. -/
def prettyChars (depth : Nat) : Json → List Char
  | null => "null".toList
  | bool b => if b then "true".toList else "false".toList
  | num literal => literal.toList
  | str t => textChars t
  | arr [] => ['[', ']']
  | arr (j :: js) =>
    '[' :: (newline (depth + 1) ++ prettyChars (depth + 1) j ++ prettyItems depth js)
  | obj [] => ['{', '}']
  | obj ((k, j) :: ms) =>
    '{' :: (newline (depth + 1) ++ textChars k ++ ':' :: ' ' :: prettyChars (depth + 1) j
      ++ prettyMembers depth ms)

/-- The items behind the first one, and the end of the array. -/
def prettyItems (depth : Nat) : List Json → List Char
  | [] => newline depth ++ [']']
  | j :: js => ',' :: (newline (depth + 1) ++ prettyChars (depth + 1) j ++ prettyItems depth js)

/-- The members behind the first one, and the end of the object. -/
def prettyMembers (depth : Nat) : List (JsonText × Json) → List Char
  | [] => newline depth ++ ['}']
  | (k, j) :: ms =>
    ',' :: (newline (depth + 1) ++ textChars k ++ ':' :: ' ' :: prettyChars (depth + 1) j
      ++ prettyMembers depth ms)

end

/-- The value over several lines. -/
def pretty (j : Json) : String := String.ofList (prettyChars 0 j)

mutual

/-- A value without white space. -/
def compactChars : Json → List Char
  | null => "null".toList
  | bool b => if b then "true".toList else "false".toList
  | num literal => literal.toList
  | str t => textChars t
  | arr [] => ['[', ']']
  | arr (j :: js) => '[' :: (compactChars j ++ compactItems js)
  | obj [] => ['{', '}']
  | obj ((k, j) :: ms) => '{' :: (textChars k ++ ':' :: compactChars j ++ compactMembers ms)

/-- The items behind the first one, and the end of the array. -/
def compactItems : List Json → List Char
  | [] => [']']
  | j :: js => ',' :: (compactChars j ++ compactItems js)

/-- The members behind the first one, and the end of the object. -/
def compactMembers : List (JsonText × Json) → List Char
  | [] => ['}']
  | (k, j) :: ms => ',' :: (textChars k ++ ':' :: compactChars j ++ compactMembers ms)

end

/-- The value on one line. -/
def compact (j : Json) : String := String.ofList (compactChars j)

end PointsTo.Json
