import PointsTo.Yaml.Block
import PointsTo.Yaml.Plain
import PointsTo.Yaml.Quoted
import PointsTo.Yaml.Token

/-!
# From text to tokens

`tokens?` finds the tokens of a text. Outside of brackets the column of a line shows what it belongs to:
block lists and maps open in the column of their first item or key, and close before anything further to
the left.

A key need not be marked as one. Until a colon comes, every place where it could have started is kept, one
for the text outside of brackets and one for each pair of brackets; the colon then makes a key of what has
come since. A key that is not marked ends on its line and within 1024 bytes. Where nothing but a key can
stand, it is an error if no colon comes.
-/

namespace PointsTo.Yaml

/-- A place where a key may have started. -/
structure KeyStart where
  position : Position
  /-- The number of tokens before it. -/
  index : Nat
  /-- Can nothing but a key stand there? -/
  required : Bool
deriving DecidableEq

/-- Is it too late for a colon to make a key? -/
def KeyStart.isStale (k : KeyStart) (p : Position) : Bool :=
  k.position.line < p.line || k.position.offset + 1024 < p.offset

/-- A text that is read into tokens. -/
structure Lexer where
  /-- The place in the text. -/
  cursor : Cursor
  /-- The tokens before it, last first. -/
  tokens : List Token := []
  count : Nat := 0
  /-- The columns of the block lists and maps that are open, innermost first. -/
  columns : List Nat := []
  /-- The place where a key may have started since the last bracket. -/
  keyStart : Option KeyStart := none
  /-- The places where one may have started before each open bracket, innermost first. -/
  outerKeyStarts : List (Option KeyStart) := []
  /-- May a key that is not marked start here? -/
  keyAllowed : Bool := true

namespace Lexer

/-- Is it between brackets? -/
def inFlow (s : Lexer) : Bool := !s.outerKeyStarts.isEmpty

/-- The column. -/
def column (s : Lexer) : Nat := s.cursor.column

/-- By how much the lines of a scalar are indented at least. -/
def indent (s : Lexer) : Nat := s.columns.head?.elim 0 (· + 1)

/-- A token is next. -/
def emit (s : Lexer) (t : Token) : Lexer :=
  { s with tokens := t :: s.tokens, count := s.count + 1 }

/-- A token goes where `index` tokens are before it. -/
def insert (s : Lexer) (index : Nat) (t : Token) : Lexer :=
  { s with tokens := s.tokens.insertIdx (s.count - index) t, count := s.count + 1 }

/-- The place behind `n` characters. -/
def skip (s : Lexer) (n : Nat) : Lexer := { s with cursor := s.cursor.skip n }

/-! ## Keys -/

/-- No key has started. It is an error if one had to. -/
def dropKey (s : Lexer) : Option Lexer :=
  if s.keyStart.any (·.required) then none else some { s with keyStart := none }

/-- A key may start here. -/
def saveKey (s : Lexer) : Option Lexer :=
  if s.keyAllowed then
    s.dropKey.map fun s =>
      let required := !s.inFlow && s.columns.head? = some s.column
      { s with keyStart := some ⟨s.cursor.position, s.count, required⟩ }
  else some s

/-- Is it an error that no colon has come? -/
def isOverdue (p : Position) (k : Option KeyStart) : Bool := k.any fun k => k.required && k.isStale p

/-- The places that are not too far away. -/
def dropStale (s : Lexer) : Option Lexer :=
  let p := s.cursor.position
  if isOverdue p s.keyStart || s.outerKeyStarts.any (isOverdue p) then none
  else some { s with
    keyStart := s.keyStart.filter (!·.isStale p)
    outerKeyStarts := s.outerKeyStarts.map (·.filter (!·.isStale p)) }

/-! ## Indentation -/

/-- A block list or map opens in a column, unless one is open there; its token goes where `index` tokens are
before it. -/
def openBlock (s : Lexer) (column index : Nat) (t : Token) : Lexer :=
  if s.inFlow || s.columns.head?.any (column ≤ ·) then s
  else { s.insert index t with columns := column :: s.columns }

/-- The block lists and maps close that `p` holds of. -/
def closeBlocks (s : Lexer) (p : Nat → Bool) : Lexer :=
  if s.inFlow then s
  else
    let closed := s.columns.takeWhile p
    { s with
      tokens := List.replicate closed.length .blockEnd ++ s.tokens
      count := s.count + closed.length
      columns := s.columns.dropWhile p }

/-! ## Between tokens -/

/-- The next place that is neither a blank nor in a comment, and whether a key may start there. A tab is a
blank where no key may start. The byte order mark may start a line. -/
def idle (flow keyAllowed comment : Bool) (p : Position) : List Char → Bool × Cursor
  | [] => (keyAllowed, ⟨p, []⟩)
  | c :: cs =>
    if isBreak c then idle flow (keyAllowed || !flow) false (p.step c) cs
    else if comment then idle flow keyAllowed true (p.step c) cs
    else if c = ' ' || (c = '\t' && (flow || !keyAllowed)) || (c = byteOrderMark && p.column = 0) then
      idle flow keyAllowed false (p.step c) cs
    else if c = '#' then idle flow keyAllowed true (p.step c) cs
    else (keyAllowed, ⟨p, c :: cs⟩)

/-- The place of the next token. -/
def skipIdle (s : Lexer) : Lexer :=
  let (keyAllowed, cursor) := idle s.inFlow s.keyAllowed false s.cursor.position s.cursor.ahead
  { s with keyAllowed, cursor }

/-! ## Tokens of one kind -/

/-- The end of all blocks, for what stands at the start of a line and belongs to no node. -/
def leaveNodes (s : Lexer) : Option Lexer :=
  (s.closeBlocks fun _ => true).dropKey.map fun s => { s with keyAllowed := false }

/-- A directive. -/
def directive (s : Lexer) : Option Lexer := do
  let s ← s.leaveNodes
  let (d, rest) ← directive? (s.cursor.ahead.drop 1)
  let cursor ← (s.cursor.skipTo rest).nextLine?
  pure { s.emit (.directive d) with cursor }

/-- What begins or ends a document. -/
def marker (s : Lexer) (t : Token) : Option Lexer := s.leaveNodes.map fun s => (s.emit t).skip 3

/-- A bracket that starts a list or a map. -/
def openFlow (s : Lexer) (t : Token) : Option Lexer :=
  s.saveKey.map fun s =>
    { (s.emit t).skip 1 with
      keyStart := none, outerKeyStarts := s.keyStart :: s.outerKeyStarts, keyAllowed := true }

/-- A bracket that ends a list or a map. -/
def closeFlow (s : Lexer) (t : Token) : Option Lexer :=
  s.dropKey.map fun s =>
    { (s.emit t).skip 1 with
      keyStart := s.outerKeyStarts.head?.getD s.keyStart
      outerKeyStarts := s.outerKeyStarts.tail, keyAllowed := false }

/-- A comma. -/
def comma (s : Lexer) : Option Lexer :=
  s.dropKey.map fun s => { (s.emit .comma).skip 1 with keyAllowed := true }

/-- The dash of an item. -/
def item (s : Lexer) : Option Lexer :=
  if !s.inFlow && !s.keyAllowed then none
  else (s.openBlock s.column s.count .blockListStart).dropKey.map fun s =>
    { (s.emit .item).skip 1 with keyAllowed := true }

/-- The mark of a key. -/
def key (s : Lexer) : Option Lexer :=
  if !s.inFlow && !s.keyAllowed then none
  else (s.openBlock s.column s.count .blockMapStart).dropKey.map fun s =>
    { (s.emit .key).skip 1 with keyAllowed := !s.inFlow }

/-- The colon behind a key. -/
def value (s : Lexer) : Option Lexer :=
  match s.keyStart with
  | some k =>
    let t := (s.insert k.index .key).openBlock k.position.column k.index .blockMapStart
    some { (t.emit .value).skip 1 with keyStart := none, keyAllowed := false }
  | none =>
    if !s.inFlow && !s.keyAllowed then none
    else
      let t := s.openBlock s.column s.count .blockMapStart
      some { (t.emit .value).skip 1 with keyAllowed := !s.inFlow }

/-- May this character follow a name? -/
def endsName : List Char → Bool
  | [] => true
  | c :: _ => isSpace c || ['?', ':', ',', ']', '}', '%', '@', '\x60'].contains c

/-- The name behind a character, which stands for a node or names one. -/
def name (s : Lexer) (t : String → Token) : Option Lexer :=
  s.saveKey.bind fun s =>
    let word := (s.cursor.ahead.drop 1).takeWhile isWordChar
    let cursor := s.cursor.skip (word.length + 1)
    if word.isEmpty || !endsName cursor.ahead then none
    else some { s.emit (t (String.ofList word)) with cursor, keyAllowed := false }

/-- A tag. -/
def tag (s : Lexer) : Option Lexer :=
  s.saveKey.bind fun s =>
    (tagMark? (s.cursor.ahead.drop 1)).bind fun (mark, rest) =>
      if startsSpace rest || (s.inFlow && rest.head? = some ',') then
        some { s.emit (.tag mark) with cursor := s.cursor.skipTo rest, keyAllowed := false }
      else none

/-- A scalar between quotes, of which the first one is passed. -/
def quoted (s : Lexer) (read : Position → List Char → Option (List Char × Cursor)) : Option Lexer :=
  s.saveKey.bind fun s =>
    let inside := s.cursor.skip 1
    (read inside.position inside.ahead).map fun (text, cursor) =>
      { s.emit (.scalar .quoted (String.ofList text)) with cursor, keyAllowed := false }

/-- A scalar below a header. -/
def block (s : Lexer) (style : Style) : Option Lexer :=
  s.dropKey.bind fun s =>
    (blockAt (style = .literal) s.columns.head? s.cursor).map fun (text, cursor) =>
      { s.emit (.scalar style (String.ofList text)) with cursor, keyAllowed := true }

/-- A plain scalar. -/
def plain (s : Lexer) : Option Lexer :=
  s.saveKey.bind fun s =>
    (plainAt s.inFlow s.indent s.cursor).map fun r =>
      { s.emit (.scalar .plain (String.ofList r.text)) with cursor := r.rest, keyAllowed := r.isBroken }

/-! ## All tokens -/

/-- The token at a place where one starts with `c` and goes on with `cs`. -/
def next (s : Lexer) (c : Char) (cs : List Char) : Option Lexer :=
  if s.column = 0 && c = '%' then s.directive
  else if s.column = 0 && startsTriple '-' (c :: cs) then s.marker .documentStart
  else if s.column = 0 && startsTriple '.' (c :: cs) then s.marker .documentEnd
  else if c = '[' then s.openFlow .listStart
  else if c = '{' then s.openFlow .mapStart
  else if c = ']' then s.closeFlow .listEnd
  else if c = '}' then s.closeFlow .mapEnd
  else if c = ',' then s.comma
  else if c = '-' && startsSpace cs then s.item
  else if c = '?' && (s.inFlow || startsSpace cs) then s.key
  else if c = ':' && (s.inFlow || startsSpace cs) then s.value
  else if c = '*' then s.name .reference
  else if c = '&' then s.name .anchor
  else if c = '!' then s.tag
  else if c = '|' && !s.inFlow then s.block .literal
  else if c = '>' && !s.inFlow then s.block .folded
  else if c = '\'' then s.quoted (singleQuoted {})
  else if c = '\x22' then s.quoted (doubleQuoted .none {})
  else if startsPlain s.inFlow (c :: cs) then s.plain
  else none

/-- The place of the next token, with what it says about keys and indentation. -/
def settle (s : Lexer) : Option Lexer :=
  s.skipIdle.dropStale.map fun s => s.closeBlocks (s.column < ·)

/-- The end of the text. -/
def finish (s : Lexer) : Option (List Token) :=
  (s.closeBlocks fun _ => true).dropKey.map (·.tokens.reverse)

/-- All tokens; every one uses up text, so as much fuel as there are characters is enough. -/
def run : (fuel : Nat) → Lexer → Option (List Token)
  | 0, _ => none
  | n + 1, s =>
    match s.settle with
    | none => none
    | some s =>
      match s.cursor.ahead with
      | [] => s.finish
      | c :: cs =>
        match s.next c cs with
        | none => none
        | some s => run n s

end Lexer

/-- The tokens of a text. -/
def tokens? (text : String) : Option (List Token) :=
  let cs := text.toList
  if cs.all isReadable then
    let cs := unifyBreaks cs
    Lexer.run (cs.length + 1) { cursor := .start cs }
  else none

end PointsTo.Yaml
