import PointsTo.Yaml.Cursor
import PointsTo.Yaml.Folding

/-!
# Plain scalars

A plain scalar stands without quotes. It ends before a colon that a space follows, before a comment, before
what begins or ends a document, and between the brackets of a list or a map before a comma or a bracket.
Outside of brackets it goes on over lines that are indented far enough. A tab does not indent.
-/

namespace PointsTo.Yaml

/-- A plain scalar that has been read. -/
structure PlainScalar where
  text : List Char
  /-- Are there line breaks between the text and what follows? -/
  isBroken : Bool
  /-- What follows. -/
  rest : Cursor
deriving DecidableEq

/-- Does a plain scalar end before a character that is not a space? -/
def endsPlain (flow : Bool) (f : Folding) (c : Char) (cs : List Char) : Bool :=
  (c = ':' && startsSpace cs) || (flow && isFlowIndicator c) || (f.isSpaced && c = '#')

/-- A colon right before a comma, a bracket or a question mark is an error between brackets. -/
def isStrayColon (flow : Bool) (c : Char) (cs : List Char) : Bool :=
  flow && c = ':' && cs.head?.any fun d => isFlowIndicator d || d = '?'

/-- The rest of a plain scalar, of which `f` has been read. Its further lines are indented by at least
`indent`. -/
def plainFrom (flow : Bool) (indent : Nat) (f : Folding) (p : Position) :
    List Char → Option PlainScalar
  | [] => some ⟨f.content, f.isBroken, ⟨p, []⟩⟩
  | c :: cs =>
    if isSpace c then
      if f.isBroken && c = '\t' && p.column < indent then none
      else plainFrom flow indent (f.space c) (p.step c) cs
    else if (!flow && f.isSpaced && p.column < indent) || (p.column = 0 && startsMarker (c :: cs)) then
      some ⟨f.content, f.isBroken, ⟨p, c :: cs⟩⟩
    else if isStrayColon flow c cs then none
    else if endsPlain flow f c cs then some ⟨f.content, f.isBroken, ⟨p, c :: cs⟩⟩
    else plainFrom flow indent (f.push c) (p.step c) cs

/-- The plain scalar that starts at a place. -/
def plainAt (flow : Bool) (indent : Nat) (c : Cursor) : Option PlainScalar :=
  plainFrom flow indent {} c.position c.ahead

end PointsTo.Yaml
