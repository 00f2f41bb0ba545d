/-!
# Edit distance

The least number of insertions, deletions and substitutions of one character that turn one text into
another, counted in code points. It is computed row by row: the row of a prefix of the first text
holds the distances from that prefix to every prefix of the second one.
-/

namespace PointsTo.Text

/-- The rest of a row. `left` is the entry before it, `above` the previous row from the entry above
`left` on; `c` is the new character of the first text, `ds` what is left of the second one. -/
def fillRow (c : Char) (left : Nat) : (ds : List Char) → (above : List Nat) → List Nat
  | d :: ds, diagonal :: up :: above =>
    let entry := min (min (up + 1) (left + 1)) (diagonal + if c = d then 0 else 1)
    entry :: fillRow c entry ds (up :: above)
  | _, _ => []

/-- The row of a prefix with one more character. -/
def nextRow (ds : List Char) (above : List Nat) (c : Char) : List Nat :=
  let left := above.headD 0 + 1
  left :: fillRow c left ds above

/-- The row of the empty prefix. -/
def firstRow (ds : List Char) : List Nat := List.range (ds.length + 1)

/-- The edit distance between two texts. -/
def editDistance (s t : List Char) : Nat := (s.foldl (nextRow t) (firstRow t)).getLast?.getD 0

/-- The candidate with the least edit distance to `name`, the first of several. -/
def closest? (name : String) : List String → Option String
  | [] => none
  | c :: cs =>
    match closest? name cs with
    | none => some c
    | some d =>
      if editDistance name.toList c.toList ≤ editDistance name.toList d.toList then some c
      else some d

example : editDistance "kitten".toList "sitting".toList = 3 := by decide

example : closest? "o" ["insensitive", "call-site", "object", "type"] = some "type" := by decide

end PointsTo.Text
