import PointsTo.Yaml.Cursor

/-!
# Block scalars

The text of a block scalar stands below its header, in lines that are all indented by the same number of
spaces, or by more. The header says whether line breaks count as they are or as in other scalars, what
becomes of those at the end, and perhaps by how much the lines are indented; if it does not, the first line
that holds anything shows it.
-/

namespace PointsTo.Yaml

/-- What becomes of the line breaks at the end of a block scalar. -/
inductive Chomping where
  /-- The first one counts. -/
  | clip
  /-- None counts. -/
  | strip
  /-- All count. -/
  | keep
deriving DecidableEq

/-- What the header of a block scalar says. -/
structure BlockHeader where
  /-- Do line breaks count as they are? -/
  literal : Bool
  /-- What becomes of those at the end. -/
  chomping : Chomping
  /-- By how much the lines are indented beyond what is around them. -/
  extra : Option Nat
deriving DecidableEq

/-! ## Headers -/

/-- The mark for what becomes of line breaks at the end, if there is one. -/
def chomping? : List Char → Option (Chomping × List Char)
  | '-' :: cs => some (.strip, cs)
  | '+' :: cs => some (.keep, cs)
  | _ => none

/-- The digit for the indentation, if there is one. A zero is an error. -/
def extra? : List Char → Option (Option Nat × List Char)
  | c :: cs =>
    if c = '0' then none
    else if c.isDigit then some (some (c.toNat - '0'.toNat), cs)
    else some (none, c :: cs)
  | [] => some (none, [])

/-- The header behind its first character, and the rest of its line. The mark and the digit come in any
order. -/
def blockHeader? (literal : Bool) (cs : List Char) : Option (BlockHeader × List Char) :=
  match chomping? cs with
  | some (chomping, rest) =>
    (extra? rest).map fun (extra, rest) => (⟨literal, chomping, extra⟩, rest)
  | none =>
    (extra? cs).map fun (extra, rest) =>
      match extra, chomping? rest with
      | some n, some (chomping, rest) => (⟨literal, chomping, some n⟩, rest)
      | _, _ => (⟨literal, .clip, extra⟩, rest)

/-! ## Contents -/

/-- A block scalar up to the start of a line. -/
structure BlockText where
  /-- Its text up to the end of the last line that holds anything, last character first. -/
  text : List Char := []
  /-- The line break of that line. -/
  first : Option Char := none
  /-- The line breaks of the blank lines since, last first. -/
  more : List Char := []
  /-- Does that line start with a blank? -/
  isIndented : Bool := false
deriving DecidableEq

namespace BlockText

/-- A line that holds something is next, and it starts with `c`. Line breaks between two lines that start
with no blank count as in other scalars unless the header says otherwise. -/
def startLine (literal : Bool) (b : BlockText) (c : Char) : BlockText :=
  let breaks :=
    if !literal && b.first = some '\n' && !b.isIndented && !isBlank c then
      if b.more.isEmpty then [' '] else b.more
    else b.more ++ b.first.toList
  { text := c :: (breaks ++ b.text), isIndented := isBlank c }

/-- The text at its end. -/
def finish (chomping : Chomping) (b : BlockText) : List Char :=
  match chomping with
  | .strip => b.text.reverse
  | .clip => (b.first.toList ++ b.text).reverse
  | .keep => (b.more ++ b.first.toList ++ b.text).reverse

end BlockText

/-- The lines from here on of a block scalar that is indented by `indent`; `inLine` in the middle of a
line. -/
def blockLines (h : BlockHeader) (indent : Nat) (inLine : Bool) (b : BlockText) (p : Position) :
    List Char → Option (List Char × Cursor)
  | [] => some (b.finish h.chomping, ⟨p, []⟩)
  | c :: cs =>
    if inLine then
      if isBreak c then blockLines h indent false { b with first := some c } (p.step c) cs
      else blockLines h indent true { b with text := c :: b.text } (p.step c) cs
    else if isBreak c then blockLines h indent false { b with more := c :: b.more } (p.step c) cs
    else if p.column < indent && c = ' ' then blockLines h indent false b (p.step c) cs
    else if p.column < indent && c = '\t' then none
    else if p.column = indent then blockLines h indent true (b.startLine h.literal c) (p.step c) cs
    else some (b.finish h.chomping, ⟨p, c :: cs⟩)

/-- The most spaces that a line starts with, up to and with the first one that holds anything. A tab in
place of a space is an error. -/
def blockIndent? (most spaces : Nat) : List Char → Option Nat
  | [] => some (max most spaces)
  | c :: cs =>
    if c = ' ' then blockIndent? most (spaces + 1) cs
    else if c = '\t' then none
    else if isBreak c then blockIndent? (max most spaces) 0 cs
    else some (max most spaces)

/-- The block scalar at a place, which is at the first character of its header, inside of collections whose
innermost one is in the column `around`. -/
def blockAt (literal : Bool) (around : Option Nat) (c : Cursor) : Option (List Char × Cursor) := do
  let (h, rest) ← blockHeader? literal (c.ahead.drop 1)
  let below ← (c.skipTo rest).nextLine?
  let indent ← match h.extra with
    | some n => some (around.getD 0 + n)
    | none => (blockIndent? 0 0 below.ahead).map fun n => max n (max 1 (around.elim 0 (· + 1)))
  blockLines h indent false {} below.position below.ahead

end PointsTo.Yaml
