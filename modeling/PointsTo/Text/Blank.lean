/-!
# Blank characters

The characters with the Unicode property `White_Space`, and text that holds nothing else.
-/

namespace PointsTo.Text

/-- The ranges of `White_Space`, by first and last code point. -/
def blankRanges : List (Nat × Nat) :=
  [(0x9, 0xD), (0x20, 0x20), (0x85, 0x85), (0xA0, 0xA0), (0x1680, 0x1680), (0x2000, 0x200A),
   (0x2028, 0x2029), (0x202F, 0x202F), (0x205F, 0x205F), (0x3000, 0x3000)]

/-- Does the character have the property `White_Space`? -/
def isBlankChar (c : Char) : Bool :=
  blankRanges.any fun (first, last) => first ≤ c.toNat && c.toNat ≤ last

/-- Does the text hold no character but blank ones? -/
def isBlank (s : String) : Bool := s.toList.all isBlankChar

end PointsTo.Text
