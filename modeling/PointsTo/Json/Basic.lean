/-!
# JSON values

A value as a document spells it: members in the order of the text with repetitions kept, numbers as
the literal that was written. What a number or a repeated member means is for the reader of a
particular format to say; ids want integers without a sign, durations want any number.

A string may hold the escape of an unpaired surrogate, such as `\ud800`. It is well-formed JSON and
denotes no text, so the text of a string is optional.
-/

namespace PointsTo

/-- What a JSON string denotes: nothing if it holds an unpaired surrogate. -/
abbrev JsonText := Option String

/-- A JSON value. -/
inductive Json where
  /-- `null` -/
  | null
  /-- `true` or `false` -/
  | bool (b : Bool)
  /-- A number, as it is written. -/
  | num (literal : String)
  | str (text : JsonText)
  | arr (items : List Json)
  | obj (members : List (JsonText × Json))

namespace Json

instance : Inhabited Json := ⟨null⟩

/-- A string value. -/
def ofString (s : String) : Json := str (some s)

/-- An integer value. -/
def ofNat (n : Nat) : Json := num n.repr

/-- `null`, or a value. -/
def ofOption {α : Type} (f : α → Json) : Option α → Json
  | none => null
  | some a => f a

/-- An array of values. -/
def ofList {α : Type} (f : α → Json) (xs : List α) : Json := arr (xs.map f)

/-- An object with the given members. -/
def record (members : List (String × Json)) : Json := obj (members.map fun (k, v) => (some k, v))

/-- The text of a string value. -/
def text? : Json → Option String
  | str t => t
  | _ => none

/-- The truth value. -/
def bool? : Json → Option Bool
  | bool b => some b
  | _ => none

/-- The items of an array. -/
def items? : Json → Option (List Json)
  | arr items => some items
  | _ => none

/-- The members of an object, if every key is text. -/
def members? : Json → Option (List (String × Json))
  | obj members => members.mapM fun (k, v) => k.map (·, v)
  | _ => none

/-- `null` as nothing, any other value as `f` reads it. -/
def nullable? {α : Type} (f : Json → Option α) : Json → Option (Option α)
  | null => some none
  | j => (f j).map some

/-- Every item of an array as `f` reads it. -/
def list? {α : Type} (f : Json → Option α) (j : Json) : Option (List α) := j.items?.bind (·.mapM f)

mutual

/-- How deep arrays and objects are nested in a value. -/
def depth : Json → Nat
  | null | bool _ | num _ | str _ => 0
  | arr items => itemsDepth items + 1
  | obj members => membersDepth members + 1

/-- The greatest depth among the items of an array. -/
def itemsDepth : List Json → Nat
  | [] => 0
  | j :: js => max (depth j) (itemsDepth js)

/-- The greatest depth among the members of an object. -/
def membersDepth : List (JsonText × Json) → Nat
  | [] => 0
  | (_, j) :: ms => max (depth j) (membersDepth ms)

end

end Json

end PointsTo
