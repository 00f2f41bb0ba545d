import PointsTo.Yaml.Quoted
import PointsTo.Yaml.Resolution

/-!
# Writing YAML

Values are written in block form. The members of a map that is itself the value of a key are indented by
two columns, the items of a list are not; what has no members or items is written as `{}` or `[]`.

Text is written without quotes if it would not stand for something else and none of its characters means
something where it is: not at the start, where indicators open other nodes and three dashes or dots look like
the border of a document, not behind it, where a colon ends a key and a number sign begins a comment, and not
around it, where spaces are lost. Text with line feeds stands below a header with its line breaks as they are,
unless spaces at the end of a line would be hard to see. All other text stands between quotes: single ones, or
double ones where a character has to be escaped or spaces next to a line break would be lost.
-/

namespace PointsTo.Yaml

/-! ## How text is written -/

/-- Do two characters stand next to each other, one that `p` holds of and then one that `q` holds of? -/
def hasPair (p q : Char → Bool) : List Char → Bool
  | c :: d :: cs => (p c && q d) || hasPair p q (d :: cs)
  | _ => false

/-- Can a character be written as it is, at least in quotes? -/
def isWritable (c : Char) : Bool := isPrintable c && !isBreak c

/-- Is every character written as it is, and are no spaces next to line breaks? -/
def isFaithful (cs : List Char) : Bool :=
  cs.all isPrintable && !hasPair (· = ' ') isBreak cs && !hasPair isBreak (· = ' ') cs

/-- Does the text look like a line that begins or ends a document? -/
def startsLikeMarker : List Char → Bool
  | '-' :: '-' :: '-' :: _ | '.' :: '.' :: '.' :: _ => true
  | _ => false

/-- Characters that mean something at the start of a text, whatever follows. -/
def openingIndicators : List Char :=
  ['#', ',', '[', ']', '{', '}', '&', '*', '!', '|', '>', '\'', '\x22', '%', '@', '\x60']

/-- Does the first character mean something? A dash, a question mark and a colon do if a space follows. -/
def startsWithIndicator : List Char → Bool
  | [] => false
  | c :: cs => openingIndicators.contains c || (['-', '?', ':'].contains c && startsSpace cs)

/-- Does a colon stand before a space or at the end, or a number sign behind a space? -/
def hasIndicator (cs : List Char) : Bool :=
  hasPair (· = ':') isSpace cs || cs.getLast? = some ':' || hasPair isSpace (· = '#') cs

/-- Does every character of the text stand for itself without quotes? -/
def isBare (cs : List Char) : Bool :=
  !cs.isEmpty && cs.all isWritable && !startsWithIndicator cs && !hasIndicator cs
    && !cs.head?.any isSpace && !cs.getLast?.any isSpace

/-- Can the text be written without quotes? -/
def isPlainText (text : String) : Bool :=
  !isAmbiguous text && !startsLikeMarker text.toList && isBare text.toList

/-- Can the text be written below a header? -/
def isLiteralText (cs : List Char) : Bool :=
  cs.contains '\n' && cs.all isPrintable && !hasPair (· = ' ') isBreak cs && cs.getLast? ≠ some ' '

/-- How a text is written. -/
def styleOf (text : String) : Style :=
  if isPlainText text then .plain
  else if isLiteralText text.toList then .literal
  else .quoted

/-! ## Scalars -/

/-- A scalar that stands for a text. -/
def ofText (text : String) : Yaml := scalar (styleOf text) none text

/-- A scalar that stands for a number. -/
def ofNat (n : Nat) : Yaml := bare n.repr

/-- A list of values. -/
def ofList {α : Type} (f : α → Yaml) (xs : List α) : Yaml := list (xs.map f)

/-- So many spaces. -/
def spaces (n : Nat) : List Char := List.replicate n ' '

/-- The text with spaces at the start of each line; they are left out before the line breaks of blank
lines. -/
def indentLines (indent : Nat) (start : Bool) : List Char → List Char
  | [] => []
  | c :: cs =>
    if isBreak c then c :: indentLines indent true cs
    else (if start then spaces indent else []) ++ c :: indentLines indent false cs

/-- How a character stands between single quotes. -/
def singleEscape (c : Char) : List Char := if c = '\'' then ['\'', '\''] else [c]

/-- A text between single quotes. -/
def singleQuote (indent : Nat) (cs : List Char) : List Char :=
  let last := if cs.getLast?.any isBreak then spaces indent else []
  '\'' :: (indentLines indent false (cs.flatMap singleEscape) ++ last ++ ['\''])

/-- The last `digits` hexadecimal digits of a number. -/
def hexDigits (digits n : Nat) : List Char :=
  let shown := (Nat.toDigits 16 n).map Char.toUpper
  List.replicate (digits - shown.length) '0' ++ shown

/-- How a character stands between double quotes. -/
def doubleEscape (c : Char) : List Char :=
  let n := c.toNat
  if isWritable c && c ≠ '\x22' && c ≠ '\\' then [c]
  else
    match letterEscapes.find? (·.2 = c) with
    | some (letter, _) => ['\\', letter]
    | none =>
      if n < 0x100 then '\\' :: 'x' :: hexDigits 2 n
      else if n < 0x10000 then '\\' :: 'u' :: hexDigits 4 n
      else '\\' :: 'U' :: hexDigits 8 n

/-- A text between double quotes. -/
def doubleQuote (cs : List Char) : List Char := '\x22' :: (cs.flatMap doubleEscape ++ ['\x22'])

/-- What the header of a text says about its end: whether there is no line break, or more than one, or
nothing but one. -/
def endMark (cs : List Char) : List Char :=
  match cs.reverse with
  | c :: rest => if !isBreak c then ['-'] else if rest.head?.all isBreak then ['+'] else []
  | [] => ['-']

/-- A text below a header, which says by how much the text is indented if it starts with a space or a line
break. -/
def literalText (indent : Nat) (cs : List Char) : List Char :=
  let extra := if cs.head?.any fun c => c = ' ' || isBreak c then ['2'] else []
  '|' :: (extra ++ endMark cs ++ '\n' :: indentLines indent true cs)

/-- A text between quotes. -/
def quote (indent : Nat) (cs : List Char) : List Char :=
  if isFaithful cs && !cs.contains '\n' then singleQuote indent cs else doubleQuote cs

/-- A scalar as it is written; its further lines are indented by so much. -/
def scalarChars (indent : Nat) (style : Style) (text : String) : List Char :=
  match style with
  | .plain => text.toList
  | .quoted => quote indent text.toList
  | .literal | .folded => literalText indent text.toList

/-! ## Maps and lists -/

/-- A line: the number of spaces it starts with, and the rest, which may go on over more lines. -/
structure Line where
  /-- The number of spaces at the start. -/
  indent : Nat
  /-- What follows the spaces. -/
  text : List Char
deriving DecidableEq

/-- The line as text, with a line break at its end. -/
def Line.chars (l : Line) : List Char :=
  spaces l.indent ++ l.text ++ if l.text.getLast?.any isBreak then [] else ['\n']

/-- The lines of an item, whose own lines are given: its dash takes the place of two spaces. -/
def dashFirst (indent : Nat) : List Line → List Line
  | [] => [⟨indent, ['-']⟩]
  | l :: ls => ⟨indent, '-' :: ' ' :: l.text⟩ :: ls

/-- The text of a key. -/
def keyChars (indent : Nat) : Yaml → List Char
  | scalar style _ text => scalarChars (indent + 2) style text
  | _ => []

mutual

/-- The lines of a value. -/
def nodeLines (indent : Nat) : Yaml → List Line
  | scalar style _ text => [⟨indent, scalarChars (max 2 indent) style text⟩]
  | reference _ => [⟨indent, []⟩]
  | list [] => [⟨indent, ['[', ']']⟩]
  | list (y :: ys) => dashFirst indent (nodeLines (indent + 2) y) ++ itemLines indent ys
  | map [] => [⟨indent, ['{', '}']⟩]
  | map ((k, y) :: ms) => memberLine indent (keyChars indent k) y ++ memberLines indent ms

/-- The lines of the items of a list. -/
def itemLines (indent : Nat) : List Yaml → List Line
  | [] => []
  | y :: ys => dashFirst indent (nodeLines (indent + 2) y) ++ itemLines indent ys

/-- The lines of a key and its value. -/
def memberLine (indent : Nat) (key : List Char) : Yaml → List Line
  | scalar style _ text => [⟨indent, key ++ ':' :: ' ' :: scalarChars (indent + 2) style text⟩]
  | reference _ => [⟨indent, key ++ [':']⟩]
  | list [] => [⟨indent, key ++ [':', ' ', '[', ']']⟩]
  | list (y :: ys) =>
    ⟨indent, key ++ [':']⟩ :: (dashFirst indent (nodeLines (indent + 2) y) ++ itemLines indent ys)
  | map [] => [⟨indent, key ++ [':', ' ', '{', '}']⟩]
  | map ((k, y) :: ms) =>
    ⟨indent, key ++ [':']⟩
      :: (memberLine (indent + 2) (keyChars indent k) y ++ memberLines (indent + 2) ms)

/-- The lines of the members of a map. -/
def memberLines (indent : Nat) : List (Yaml × Yaml) → List Line
  | [] => []
  | (k, y) :: ms => memberLine indent (keyChars indent k) y ++ memberLines indent ms

end

/-- The document that holds a value. -/
def write (y : Yaml) : String := String.ofList ((nodeLines 0 y).flatMap Line.chars)

end PointsTo.Yaml
