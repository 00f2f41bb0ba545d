import PointsTo.Yaml.Cursor

/-!
# Tags and directives

A tag says what a node is. It is written in full between angle brackets, or as a handle and a suffix; what
a handle stands for is said by a directive in front of the document, or is fixed.

Escapes in a tag are octets, so a tag is a list of octets. An escaped zero ends it.
-/

namespace PointsTo.Yaml

/-- What a node is said to be. -/
structure Tag where
  /-- The text of the tag. -/
  octets : List UInt8
deriving DecidableEq

namespace Tag

/-- The tag with a given text. -/
def ofString (s : String) : Tag := ⟨s.toUTF8.data.toList⟩

/-- What the handle `!!` stands for. -/
def standardPrefix : String := "tag:yaml.org,2002:"

/-- The tag of a scalar that stands for nothing. -/
def null : Tag := ofString (standardPrefix ++ "null")

/-- The tag of integers. -/
def int : Tag := ofString (standardPrefix ++ "int")

/-- The tag that is written as an exclamation mark alone. -/
def bare : Tag := ofString "!"

/-- The octets up to an escaped zero. -/
def cut (octets : List UInt8) : List UInt8 := octets.takeWhile (· ≠ 0)

/-- The name of a tag that belongs to the document, if it is one: what follows the exclamation mark that
starts it, or the mark itself if nothing does. -/
def name? (t : Tag) : Option String :=
  match t.octets with
  | 0x21 :: rest => String.fromUTF8? ⟨(if rest.isEmpty then t.octets else rest).toArray⟩
  | _ => none

end Tag

/-! ## Text of tags -/

/-- How many octets the character has that starts with an octet. -/
def octetsOf? (o : UInt8) : Option Nat :=
  if o < 0x80 then some 1
  else if 0xC0 ≤ o && o < 0xE0 then some 2
  else if 0xE0 ≤ o && o < 0xF0 then some 3
  else if 0xF0 ≤ o && o < 0xF8 then some 4
  else none

/-- How many octets are missing behind an octet, when `missing` were in front of it. -/
def missingAfter? (missing : Nat) (o : UInt8) : Option Nat :=
  if missing = 0 then (octetsOf? o).map (· - 1)
  else if 0x80 ≤ o && o < 0xC0 then some (missing - 1)
  else none

/-- The text of a tag from here on, and what is behind it. `missing` octets of an escaped character are
still to come. -/
def tagText? (bracketed : Bool) (missing : Nat) : List Char → Option (List UInt8 × List Char)
  | '%' :: a :: b :: cs => do
    let o := UInt8.ofNat (16 * (← hexDigit? a) + (← hexDigit? b))
    let missing ← missingAfter? missing o
    let (octets, rest) ← tagText? bracketed missing cs
    pure (o :: octets, rest)
  | c :: cs =>
    if missing ≠ 0 || c = '%' then none
    else if isTagChar bracketed c then
      (tagText? bracketed 0 cs).map fun (octets, rest) => (UInt8.ofNat c.toNat :: octets, rest)
    else some ([], c :: cs)
  | [] => if missing = 0 then some ([], []) else none

/-- The text of a tag, of at least one character. -/
def someTagText? (bracketed : Bool) (cs : List Char) : Option (List UInt8 × List Char) :=
  (tagText? bracketed 0 cs).filter (!·.1.isEmpty)

/-- A tag as it is written. -/
structure TagMark where
  /-- The handle with its exclamation marks, or nothing if the tag is written in full. -/
  handle : String
  suffix : List UInt8
deriving DecidableEq

/-- The octets of a word. -/
def wordOctets (cs : List Char) : List UInt8 := cs.map fun c => UInt8.ofNat c.toNat

/-- The tag behind an exclamation mark, and what is behind it. -/
def tagMark? (cs : List Char) : Option (TagMark × List Char) :=
  match cs with
  | '<' :: cs => do
    let (octets, rest) ← someTagText? true cs
    match rest with
    | '>' :: rest => pure (⟨"", Tag.cut octets⟩, rest)
    | _ => none
  | cs =>
    let word := cs.takeWhile isWordChar
    match cs.dropWhile isWordChar with
    | '!' :: rest => do
      let (octets, rest) ← someTagText? false rest
      pure (⟨String.ofList ('!' :: word ++ ['!']), Tag.cut octets⟩, rest)
    | rest => do
      let (octets, rest) ← tagText? false 0 rest
      let suffix := Tag.cut (wordOctets word ++ octets)
      pure (if suffix.isEmpty then ⟨"", Tag.bare.octets⟩ else ⟨"!", suffix⟩, rest)

/-! ## Directives -/

/-- What is said in front of a document. -/
inductive Directive where
  /-- The version of the language. -/
  | version (major minor : Nat)
  /-- What a handle stands for. -/
  | handle (name : String) (octets : List UInt8)
deriving DecidableEq

/-- A number of up to nine digits, and what is behind it. -/
def versionNumber? (cs : List Char) : Option (Nat × List Char) :=
  let digits := cs.takeWhile Char.isDigit
  if digits.isEmpty || digits.length > 9 then none
  else some (Nat.ofDigitChars 10 digits 0, cs.dropWhile Char.isDigit)

/-- The text without blanks at its start. -/
def dropBlanks (cs : List Char) : List Char := cs.dropWhile isBlank

/-- The directive behind a percent sign, and what is behind it. -/
def directive? (cs : List Char) : Option (Directive × List Char) :=
  let name := cs.takeWhile isWordChar
  let rest := cs.dropWhile isWordChar
  if !startsSpace rest then none
  else if name = "YAML".toList then do
    let (major, rest) ← versionNumber? (dropBlanks rest)
    match rest with
    | '.' :: rest =>
      let (minor, rest) ← versionNumber? rest
      pure (.version major minor, rest)
    | _ => none
  else if name = "TAG".toList then
    match dropBlanks rest with
    | '!' :: rest =>
      let word := rest.takeWhile isWordChar
      let (handle, rest) := match rest.dropWhile isWordChar with
        | '!' :: rest => (some ('!' :: word ++ ['!']), rest)
        | rest => (if word.isEmpty then some ['!'] else none, rest)
      match handle, rest with
      | some handle, c :: rest =>
        if isBlank c then do
          let (octets, rest) ← someTagText? true (dropBlanks rest)
          if startsSpace rest then pure (.handle (String.ofList handle) (Tag.cut octets), rest) else none
        else none
      | _, _ => none
    | _ => none
  else none

/-! ## Handles -/

/-- The handles of a document, and what they stand for; the first one of a name counts. -/
abbrev Handles := List (String × List UInt8)

/-- The handles that need no directive. -/
def standardHandles : Handles :=
  [("!", Tag.bare.octets), ("!!", (Tag.ofString Tag.standardPrefix).octets)]

/-- The tag that is written in some way. -/
def TagMark.tag? (handles : Handles) (m : TagMark) : Option Tag :=
  if m.handle.isEmpty then some ⟨m.suffix⟩
  else (handles.lookup m.handle).map fun octets => ⟨octets ++ m.suffix⟩

end PointsTo.Yaml
