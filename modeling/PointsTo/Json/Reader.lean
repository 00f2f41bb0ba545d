import PointsTo.Json.Numeral

/-!
# Reading JSON

The reader is an automaton that takes one character at a time; reading a text is one fold over it
(`Json.parse?`), so it ends after as many steps as there are characters. Its state is the piece of
text being read (`Lexeme`), the arrays and objects that are still open (`Frame`), and what may come
next (`Expect`).

The grammar is RFC 8259 without extensions.
-/

namespace PointsTo.Json

/-- An array or object whose end has not been read, with its parts so far, last one first. -/
inductive Frame where
  /-- An open array. -/
  | array (items : List Json)
  /-- An open object between two members. -/
  | object (members : List (JsonText × Json))
  /-- An open object behind a key. -/
  | member (members : List (JsonText × Json)) (key : JsonText)

/-- What may come next. -/
inductive Expect where
  | value
  /-- A first item or the end of the array. -/
  | itemOrEnd
  /-- A first key or the end of the object. -/
  | keyOrEnd
  | key
  | colon
  /-- A comma or the end of the innermost array or object. -/
  | commaOrEnd
  /-- White space only. -/
  | nothing
deriving DecidableEq

/-- The text of a string read so far. -/
structure StringSoFar where
  /-- The characters, last one first. -/
  chars : List Char
  /-- A high surrogate that waits for its low one. -/
  high : Option Nat
  /-- Was there a surrogate without a partner? -/
  broken : Bool

/-- The piece of text being read. -/
inductive Lexeme where
  /-- Between two pieces. -/
  | gap
  /-- Inside a string. -/
  | string (s : StringSoFar)
  /-- Behind a backslash in a string. -/
  | escape (s : StringSoFar)
  /-- In the hexadecimal digits of an escape: the value so far and the number of digits to come. -/
  | hex (s : StringSoFar) (value more : Nat)
  /-- Inside a number, its characters last one first. -/
  | number (chars : List Char)
  /-- Inside a word, with the characters to come and the value it spells. -/
  | word (rest : List Char) (value : Json)

/-- The state of the reader. -/
structure Reader where
  /-- The piece of text being read. -/
  lexeme : Lexeme
  /-- The open arrays and objects, innermost first. -/
  frames : List Frame
  /-- What may come next. -/
  expect : Expect
  /-- The value, once all of it is read. -/
  result : Option Json

namespace StringSoFar

/-- The string behind its opening quote. -/
def start : StringSoFar := ⟨[], none, false⟩

/-- A character that stands for itself. -/
def push (s : StringSoFar) (c : Char) : StringSoFar :=
  ⟨c :: s.chars, none, s.broken || s.high.isSome⟩

/-- A UTF-16 unit that an escape stands for. -/
def pushUnit (s : StringSoFar) (u : Nat) : StringSoFar :=
  match s.high with
  | some h =>
    if 0xDC00 ≤ u ∧ u < 0xE000 then
      ⟨Char.ofNat (0x10000 + (h - 0xD800) * 0x400 + (u - 0xDC00)) :: s.chars, none, s.broken⟩
    else if 0xD800 ≤ u ∧ u < 0xDC00 then ⟨s.chars, some u, true⟩
    else ⟨Char.ofNat u :: s.chars, none, true⟩
  | none =>
    if 0xD800 ≤ u ∧ u < 0xDC00 then ⟨s.chars, some u, s.broken⟩
    else if 0xDC00 ≤ u ∧ u < 0xE000 then ⟨s.chars, none, true⟩
    else ⟨Char.ofNat u :: s.chars, none, s.broken⟩

/-- What the whole string denotes. -/
def text (s : StringSoFar) : JsonText :=
  if s.broken || s.high.isSome then none else some (String.ofList s.chars.reverse)

end StringSoFar

/-- The character of a one-letter escape. -/
def unescape? : Char → Option Char
  | '\x22' => some '\x22'
  | '\\' => some '\\'
  | '/' => some '/'
  | 'b' => some '\x08'
  | 'f' => some '\x0c'
  | 'n' => some '\n'
  | 'r' => some '\r'
  | 't' => some '\t'
  | _ => none

/-- The value of a hexadecimal digit. -/
def hexValue? (c : Char) : Option Nat :=
  if '0' ≤ c ∧ c ≤ '9' then some (c.toNat - '0'.toNat)
  else if 'a' ≤ c ∧ c ≤ 'f' then some (c.toNat - 'a'.toNat + 10)
  else if 'A' ≤ c ∧ c ≤ 'F' then some (c.toNat - 'A'.toNat + 10)
  else none

/-- May the character stand in a number? -/
def isNumberChar (c : Char) : Bool :=
  c.isDigit || c = '+' || c = '-' || c = '.' || c = 'e' || c = 'E'

/-- JSON's white space. -/
def isSpace (c : Char) : Bool := c = ' ' || c = '\t' || c = '\n' || c = '\r'

namespace Reader

/-- Before the first character. -/
def start : Reader := ⟨.gap, [], .value, none⟩

/-- A whole value has been read. -/
def finishValue (r : Reader) (j : Json) : Option Reader :=
  if r.expect = .value ∨ r.expect = .itemOrEnd then
    match r.frames with
    | [] => some { r with lexeme := .gap, expect := .nothing, result := some j }
    | .array items :: rest =>
      some { r with lexeme := .gap, frames := .array (j :: items) :: rest, expect := .commaOrEnd }
    | .member members key :: rest =>
      some { r with
        lexeme := .gap, frames := .object ((key, j) :: members) :: rest, expect := .commaOrEnd }
    | .object _ :: _ => none
  else none

/-- A whole string has been read: a key where one may stand, else a value. -/
def finishString (r : Reader) (t : JsonText) : Option Reader :=
  if r.expect = .key ∨ r.expect = .keyOrEnd then
    match r.frames with
    | .object members :: rest =>
      some { r with lexeme := .gap, frames := .member members t :: rest, expect := .colon }
    | _ => none
  else r.finishValue (.str t)

/-- A whole number has been read. -/
def finishNumber (r : Reader) (chars : List Char) : Option Reader :=
  if (Numeral.parse? chars.reverse).isSome then
    r.finishValue (.num (String.ofList chars.reverse))
  else none

/-- An array or object begins. -/
def enter (r : Reader) (frame : Frame) (expect : Expect) : Option Reader :=
  if r.expect = .value ∨ r.expect = .itemOrEnd then
    some { r with lexeme := .gap, frames := frame :: r.frames, expect }
  else none

/-- The innermost array or object ends, and what holds it expects a value. -/
def close (r : Reader) (rest : List Frame) (j : Json) : Option Reader :=
  { r with frames := rest, expect := .value : Reader }.finishValue j

/-- A character between two pieces. -/
def stepGap (r : Reader) (c : Char) : Option Reader :=
  if isSpace c then some { r with lexeme := .gap }
  else match c with
  | '\x22' => some { r with lexeme := .string .start }
  | '[' => r.enter (.array []) .itemOrEnd
  | '{' => r.enter (.object []) .keyOrEnd
  | ']' =>
    match r.frames with
    | .array items :: rest =>
      if r.expect = .itemOrEnd ∨ r.expect = .commaOrEnd then r.close rest (.arr items.reverse)
      else none
    | _ => none
  | '}' =>
    match r.frames with
    | .object members :: rest =>
      if r.expect = .keyOrEnd ∨ r.expect = .commaOrEnd then r.close rest (.obj members.reverse)
      else none
    | _ => none
  | ',' =>
    if r.expect = .commaOrEnd then
      match r.frames with
      | .array _ :: _ => some { r with lexeme := .gap, expect := .value }
      | .object _ :: _ => some { r with lexeme := .gap, expect := .key }
      | _ => none
    else none
  | ':' => if r.expect = .colon then some { r with lexeme := .gap, expect := .value } else none
  | 't' => some { r with lexeme := .word ['r', 'u', 'e'] (.bool true) }
  | 'f' => some { r with lexeme := .word ['a', 'l', 's', 'e'] (.bool false) }
  | 'n' => some { r with lexeme := .word ['u', 'l', 'l'] .null }
  | _ => if c.isDigit || c = '-' then some { r with lexeme := .number [c] } else none

/-- One character. -/
def step (r : Reader) (c : Char) : Option Reader :=
  match r.lexeme with
  | .gap => r.stepGap c
  | .string s =>
    if c = '\x22' then r.finishString s.text
    else if c = '\\' then some { r with lexeme := .escape s }
    else if c.toNat < 0x20 then none
    else some { r with lexeme := .string (s.push c) }
  | .escape s =>
    if c = 'u' then some { r with lexeme := .hex s 0 4 }
    else (unescape? c).map fun d => { r with lexeme := .string (s.push d) }
  | .hex s value more =>
    (hexValue? c).map fun d =>
      if more ≤ 1 then { r with lexeme := .string (s.pushUnit (16 * value + d)) }
      else { r with lexeme := .hex s (16 * value + d) (more - 1) }
  | .number chars =>
    if isNumberChar c then some { r with lexeme := .number (c :: chars) }
    else (r.finishNumber chars).bind (·.stepGap c)
  | .word rest value =>
    match rest with
    | [] => none
    | [d] => if c = d then r.finishValue value else none
    | d :: more => if c = d then some { r with lexeme := .word more value } else none

/-- The value, if the text ended behind a whole one. -/
def finish (r : Reader) : Option Json :=
  match r.lexeme with
  | .gap => r.result
  | .number chars => (r.finishNumber chars).bind (·.result)
  | _ => none

end Reader

/-- The value that a list of characters spells. -/
def parseChars? (cs : List Char) : Option Json := (cs.foldlM Reader.step Reader.start).bind Reader.finish

/-- The value that a text spells. -/
def parse? (s : String) : Option Json := parseChars? s.toList

end PointsTo.Json
