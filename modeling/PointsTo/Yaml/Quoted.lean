import PointsTo.Yaml.Cursor
import PointsTo.Yaml.Folding

/-!
# Scalars between quotes

Between single quotes, a quote is written twice. Between double quotes, a backslash starts an escape; before
a line break it makes the break count as nothing. Either may go on over lines, but not over what begins or
ends a document.
-/

namespace PointsTo.Yaml

/-- The rest of a scalar between single quotes, of which `f` has been read, and what is behind it. -/
def singleQuoted (f : Folding) (p : Position) : List Char → Option (List Char × Cursor)
  | [] => none
  | '\'' :: '\'' :: cs => singleQuoted (f.push '\'') ((p.step '\'').step '\'') cs
  | '\'' :: cs => some (f.whole, ⟨p.step '\'', cs⟩)
  | c :: cs =>
    if isSpace c then singleQuoted (f.space c) (p.step c) cs
    else if p.column = 0 && startsMarker (c :: cs) then none
    else singleQuoted (f.push c) (p.step c) cs

/-! ## Escapes -/

/-- How far an escape has been read. -/
inductive Escape where
  /-- There is none. -/
  | none
  /-- Its backslash has been read. -/
  | begun
  /-- So many digits are missing, and the ones before have the given value. -/
  | code (missing value : Nat)
deriving DecidableEq

/-- The characters that have an escape of one letter. -/
def letterEscapes : List (Char × Char) :=
  [('0', '\x00'), ('a', '\x07'), ('b', '\x08'), ('t', '\t'), ('\t', '\t'), ('n', '\n'), ('v', '\x0b'),
   ('f', '\x0c'), ('r', '\r'), ('e', '\x1b'), (' ', ' '), ('\x22', '\x22'), ('/', '/'), ('\\', '\\'),
   ('N', '\x85'), ('_', '\xa0'), ('L', '\u2028'), ('P', '\u2029')]

/-- The letters of escapes by number, with the number of their digits. -/
def codeEscapes : List (Char × Nat) := [('x', 2), ('u', 4), ('U', 8)]

/-- The character of a number, if there is one. -/
def charOf? (n : Nat) : Option Char :=
  if n < 0xD800 || (0xDFFF < n && n ≤ 0x10FFFF) then some (Char.ofNat n) else none

/-- The rest of a scalar between double quotes, of which `f` has been read, and what is behind it. -/
def doubleQuoted (e : Escape) (f : Folding) (p : Position) : List Char → Option (List Char × Cursor)
  | [] => none
  | c :: cs =>
    match e with
    | .none =>
      if c = '\x22' then some (f.whole, ⟨p.step c, cs⟩)
      else if isSpace c then doubleQuoted .none (f.space c) (p.step c) cs
      else if p.column = 0 && startsMarker (c :: cs) then none
      else if c = '\\' then doubleQuoted .begun f (p.step c) cs
      else doubleQuoted .none (f.push c) (p.step c) cs
    | .begun =>
      if isBreak c then doubleQuoted .none f.join (p.step c) cs
      else
        match letterEscapes.lookup c, codeEscapes.lookup c with
        | some d, _ => doubleQuoted .none (f.push d) (p.step c) cs
        | none, some digits => doubleQuoted (.code digits 0) f (p.step c) cs
        | none, none => none
    | .code missing value =>
      match hexDigit? c with
      | none => none
      | some digit =>
        if missing ≤ 1 then
          match charOf? (16 * value + digit) with
          | none => none
          | some d => doubleQuoted .none (f.push d) (p.step c) cs
        else doubleQuoted (.code (missing - 1) (16 * value + digit)) f (p.step c) cs

end PointsTo.Yaml
