import PointsTo.Yaml.Tag

/-!
# YAML values

The tree that a YAML document stands for: scalars, lists and maps, with the members of a map in the order
of the text and repetitions kept. A scalar is text; whether it stands for a number, a truth value or
nothing at all is for the reader of a particular format to say, and that depends on how the scalar is
written and on its tag.

A node may also stand for another one, even for one that it is part of, so a document holds besides its
tree what each number stands for that occurs in it. `Document.deref` finds the node that a node stands for.

A node that is left out, as behind the colon of `key:`, is the empty scalar without quotes.
-/

namespace PointsTo

namespace Yaml

/-- How a scalar is written. -/
inductive Style where
  | plain
  | quoted
  /-- Below a header, with line breaks as they are. -/
  | literal
  /-- Below a header, with line breaks as in other scalars. -/
  | folded
deriving DecidableEq

end Yaml

/-- A YAML value. -/
inductive Yaml where
  | scalar (style : Yaml.Style) (tag : Option Yaml.Tag) (text : String)
  | list (items : List Yaml)
  | map (members : List (Yaml × Yaml))
  /-- The node that a number stands for. -/
  | reference (number : Nat)

namespace Yaml

/-- A plain scalar. -/
def bare (text : String) : Yaml := scalar .plain none text

/-- A node that is left out. -/
def nothing : Yaml := bare ""

instance : Inhabited Yaml := ⟨nothing⟩

/-- Is it an empty plain scalar? -/
def isNothing : Yaml → Bool
  | scalar .plain _ text => text.isEmpty
  | _ => false

/-- A tree and what the numbers in it stand for. -/
structure Document where
  root : Yaml
  /-- What numbers stand for; the first one counts. -/
  anchored : List (Nat × Yaml)
deriving Inhabited

namespace Document

/-- The node that a node stands for. -/
def deref (d : Document) : Yaml → Yaml
  | reference number => (d.anchored.lookup number).getD nothing
  | y => y

/-- The text of a scalar. -/
def text? (d : Document) (y : Yaml) : Option String :=
  match d.deref y with
  | scalar _ _ text => some text
  | _ => none

/-- The items of a list; a node that is left out is a list without items. -/
def items? (d : Document) (y : Yaml) : Option (List Yaml) :=
  match d.deref y with
  | list items => some items
  | y => if y.isNothing then some [] else none

/-- The members of a map whose keys are scalars; a node that is left out is a map without members. -/
def members? (d : Document) (y : Yaml) : Option (List (String × Yaml)) :=
  match d.deref y with
  | map members => members.mapM fun (key, value) => (d.text? key).map (·, value)
  | y => if y.isNothing then some [] else none

/-- Every item of a list as `f` reads it. -/
def list? {α : Type} (d : Document) (f : Yaml → Option α) (y : Yaml) : Option (List α) :=
  (d.items? y).bind (·.mapM f)

end Document

end Yaml

end PointsTo
