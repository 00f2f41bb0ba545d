import PointsTo.Yaml.Basic

/-!
# Tokens

A text is read in two steps: into tokens, which show the structure of indentation as brackets, and from
tokens into nodes.
-/

namespace PointsTo.Yaml

/-- What a text is made of. -/
inductive Token where
  | directive (d : Directive)
  /-- The mark that begins a document. -/
  | documentStart
  /-- The mark that ends a document. -/
  | documentEnd
  /-- The start of a list whose items stand below one another. -/
  | blockListStart
  /-- The start of a map whose members stand below one another. -/
  | blockMapStart
  /-- The end of either. -/
  | blockEnd
  /-- The bracket that starts a list. -/
  | listStart
  /-- The bracket that ends a list. -/
  | listEnd
  /-- The bracket that starts a map. -/
  | mapStart
  /-- The bracket that ends a map. -/
  | mapEnd
  | item
  /-- The comma between brackets. -/
  | comma
  /-- What follows is a key. -/
  | key
  /-- What follows is the value of a key. -/
  | value
  /-- A node that stands elsewhere. -/
  | reference (name : String)
  /-- The name of the node that follows. -/
  | anchor (name : String)
  /-- The tag of the node that follows. -/
  | tag (mark : TagMark)
  | scalar (style : Style) (text : String)
deriving DecidableEq

end PointsTo.Yaml
