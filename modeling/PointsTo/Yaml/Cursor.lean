import PointsTo.Yaml.Character

/-!
# Places in a text

A cursor is a place in a text: what is ahead, and how far the place is from the start. Structure shows in
columns, and a key must end on its line and within so many bytes, so all three are counted.
-/

namespace PointsTo.Yaml

/-- How far a place is from the start of the text. -/
structure Position where
  /-- Characters since the start of the line. -/
  column : Nat := 0
  /-- Line breaks. -/
  line : Nat := 0
  /-- Bytes. -/
  offset : Nat := 0
deriving DecidableEq

/-- The position behind a character. -/
def Position.step (p : Position) (c : Char) : Position :=
  if isBreak c then ⟨0, p.line + 1, p.offset + c.utf8Size⟩
  else ⟨p.column + 1, p.line, p.offset + c.utf8Size⟩

/-- A place in a text. -/
structure Cursor where
  /-- How far it is from the start. -/
  position : Position
  ahead : List Char
deriving DecidableEq

namespace Cursor

/-- The start of a text. -/
def start (cs : List Char) : Cursor := ⟨{}, cs⟩

/-- The column. -/
def column (c : Cursor) : Nat := c.position.column

/-- The place behind `n` characters, or the end of the text. -/
def skip (n : Nat) (c : Cursor) : Cursor :=
  ⟨(c.ahead.take n).foldl Position.step c.position, c.ahead.drop n⟩

/-- The place of the first character of another kind. -/
def skipWhile (p : Char → Bool) (c : Cursor) : Cursor := c.skip (c.ahead.takeWhile p).length

/-- The place where `rest`, the end of what is ahead, starts. -/
def skipTo (rest : List Char) (c : Cursor) : Cursor := c.skip (c.ahead.length - rest.length)

/-- The place behind a comment, if there is one. -/
def skipComment (c : Cursor) : Cursor :=
  if c.ahead.head? = some '#' then c.skipWhile fun d => !isBreak d else c

/-- The next line, if there is nothing on this one but perhaps blanks and a comment. -/
def nextLine? (c : Cursor) : Option Cursor :=
  let d := (c.skipWhile isBlank).skipComment
  if startsBreak d.ahead then some (d.skip 1) else none

end Cursor

end PointsTo.Yaml
