import PointsTo.Json.Numeral

/-!
# Records and tagged values in JSON

A record with known field names is written as an object, whose unknown keys are ignored and whose
known keys may not be repeated, or as an array of its fields in order, which may stop early but may
not go on. `Json.slots?` finds the fields either way; a `Slot` is then read as required, optional or
with a default.

A value that is one of several named ones is written as its name, or as an object with the name as its
only key.
-/

namespace PointsTo.Json

/-- Where a field of a record is. -/
inductive Slot where
  /-- It has a value. -/
  | found (j : Json)
  /-- The object has no such key. -/
  | noKey
  /-- The array ends before it. -/
  | pastEnd

namespace Slot

/-- A field that must be there. -/
def required {α : Type} (f : Json → Option α) : Slot → Option α
  | found j => f j
  | _ => none

/-- A field that counts as `d` if it is not there. -/
def orElse {α : Type} (d : α) (f : Json → Option α) : Slot → Option α
  | found j => f j
  | _ => some d

/-- A field whose key may be left out of an object; `null` counts as left out. An array must reach
as far as the field. -/
def keyed {α : Type} (f : Json → Option α) : Slot → Option (Option α)
  | found j => nullable? f j
  | noKey => some none
  | pastEnd => none

/-- A field that may be left out; `null` counts as left out. -/
def optional {α : Type} (f : Json → Option α) : Slot → Option (Option α) :=
  orElse none (nullable? f)

end Slot

/-- The only value that `members` has under a key: nothing if there are several. -/
def slotOf? (members : List (String × Json)) (name : String) : Option Slot :=
  match members.filter (·.1 = name) with
  | [] => some .noKey
  | [(_, j)] => some (.found j)
  | _ => none

/-- The fields of a record, in the order of their names. -/
def slots? (names : List String) : Json → Option (List Slot)
  | obj members => do
    let members ← (obj members).members?
    names.mapM (slotOf? members)
  | arr items =>
    if items.length ≤ names.length then
      some (items.map .found ++ List.replicate (names.length - items.length) .pastEnd)
    else none
  | _ => none

/-- The name of a tagged value, and what stands with it: nothing for a bare name. -/
def tagged? : Json → Option (String × Option Json)
  | str (some name) => some (name, none)
  | obj [(some name, j)] => some (name, some j)
  | _ => none

/-- One of several named values. `blank` says what may stand with the name when it is a key. -/
def choice? {α : Type} (blank : Json → Bool) (choices : List (String × α)) (j : Json) : Option α :=
  match tagged? j with
  | some (name, none) => choices.lookup name
  | some (name, some payload) => if blank payload then choices.lookup name else none
  | none => none

/-- Is it `null`? -/
def isNull : Json → Bool
  | null => true
  | _ => false

/-- Is it `null` or an object without members? -/
def isNullOrEmpty : Json → Bool
  | null | obj [] => true
  | _ => false

end PointsTo.Json
