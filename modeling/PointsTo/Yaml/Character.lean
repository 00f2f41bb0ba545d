/-!
# Characters of YAML

Which characters may stand in a document, which of them separate, and which of them mean something where a
node may start.

A line ends with a line feed, a carriage return, both, or one of three characters from beyond ASCII.
`unifyBreaks` makes a line feed of all but the line separator and the paragraph separator, which are kept
because they stay what they are when a scalar goes on over them. Everything else in these modules works on
text with such line breaks only.
-/

namespace PointsTo.Yaml

/-! ## Documents as a whole -/

/-- May the character stand in the text of a document? -/
def isReadable (c : Char) : Bool :=
  let n := c.toNat
  c = '\t' || c = '\n' || c = '\r' || c = '\x85' || (0x20 ≤ n && n ≤ 0x7E) || (0xA0 ≤ n && n ≤ 0xD7FF)
    || (0xE000 ≤ n && n ≤ 0xFFFD) || 0x10000 ≤ n

/-- Can the character be written as it is? The byte order mark is not. -/
def isPrintable (c : Char) : Bool :=
  let n := c.toNat
  c = '\n' || (0x20 ≤ n && n ≤ 0x7E) || (0xA0 ≤ n && n ≤ 0xD7FF)
    || (0xE000 ≤ n && n ≤ 0xFFFD && n ≠ 0xFEFF) || 0x10000 ≤ n

/-- The byte order mark. -/
def byteOrderMark : Char := '\ufeff'

/-- The text with a line feed for each line break that does not stay what it is. -/
def unifyBreaks : List Char → List Char
  | [] => []
  | '\r' :: '\n' :: cs => '\n' :: unifyBreaks cs
  | c :: cs => (if c = '\r' || c = '\x85' then '\n' else c) :: unifyBreaks cs

/-! ## What separates -/

/-- Spaces and tabs. -/
def isBlank (c : Char) : Bool := c = ' ' || c = '\t'

/-- Does the character end a line? -/
def isBreak (c : Char) : Bool := c = '\n' || c = '\u2028' || c = '\u2029'

/-- Is it a blank or a line break? -/
def isSpace (c : Char) : Bool := isBlank c || isBreak c

/-- Does the text end here, or go on with a blank or a line break? -/
def startsSpace : List Char → Bool
  | [] => true
  | c :: _ => isSpace c

/-- Does the text end here, or go on with a line break? -/
def startsBreak : List Char → Bool
  | [] => true
  | c :: _ => isBreak c

/-- Three equal characters and then a space: at the start of a line, dashes begin a document and dots end
one. -/
def startsTriple (c : Char) : List Char → Bool
  | a :: b :: d :: rest => a = c && b = c && d = c && startsSpace rest
  | _ => false

/-- Does what begins or ends a document stand here? -/
def startsMarker (cs : List Char) : Bool := startsTriple '-' cs || startsTriple '.' cs

/-! ## What means something -/

/-- Commas and brackets. -/
def isFlowIndicator (c : Char) : Bool := [',', '[', ']', '{', '}'].contains c

/-- Characters that start something else than a plain scalar. -/
def isIndicator (c : Char) : Bool :=
  isFlowIndicator c
    || ['#', '&', '*', '!', '|', '>', '\'', '\x22', '%', '@', '\x60'].contains c

/-- Characters of names: letters and digits of ASCII, the dash and the underscore. -/
def isWordChar (c : Char) : Bool := c.isAlphanum || c = '-' || c = '_'

/-- Characters of the text of a tag, besides those that are escaped. Between angle brackets there are
more. -/
def isTagChar (bracketed : Bool) (c : Char) : Bool :=
  isWordChar c
    || [';', '/', '?', ':', '@', '&', '=', '+', '$', '.', '!', '~', '*', '\'', '(', ')'].contains c
    || (bracketed && [',', '[', ']'].contains c)

/-- The value of a hexadecimal digit. -/
def hexDigit? (c : Char) : Option Nat :=
  if c.isDigit then some (c.toNat - '0'.toNat)
  else if 'a' ≤ c && c ≤ 'f' then some (c.toNat - 'a'.toNat + 10)
  else if 'A' ≤ c && c ≤ 'F' then some (c.toNat - 'A'.toNat + 10)
  else none

/-- Can a plain scalar start here? -/
def startsPlain (flow : Bool) : List Char → Bool
  | [] => false
  | c :: cs =>
    if c = '-' then !startsSpace cs
    else if c = '?' || c = ':' then !flow && !startsSpace cs
    else !isSpace c && !isIndicator c

end PointsTo.Yaml
