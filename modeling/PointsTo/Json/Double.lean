import PointsTo.Decimal.Notation
import PointsTo.Json.Basic

/-!
# Doubles as JSON

A finite double is written with the fewest digits that read back as it, and always with a fraction or an
exponent. What is not finite has no JSON number and is written as `null`.
-/

namespace PointsTo.Json

/-- Numbers are written positionally from `1e-5` up to but not including `1e+16`, and every exponent has a
sign. -/
def doubleStyle : DecimalStyle := ⟨-5, 15, true⟩

/-- The bits of a double without its sign. -/
structure DoubleParts where
  /-- The exponent as it is stored. -/
  biased : Nat
  /-- The fraction as it is stored. -/
  fraction : Nat

/-- The text of the positive double with the given parts. -/
def magnitude (p : DoubleParts) : List Char :=
  if p.biased = 0 then
    if p.fraction = 0 then "0.0".toList
    else (Interval.around p.fraction (-1074) false).shortest.write doubleStyle
  else
    (Interval.around (Nat.pow 2 52 + p.fraction) (p.biased - 1075)
      (p.fraction = 0 && p.biased > 1)).shortest.write doubleStyle

/-- A number value. -/
def ofFloat (f : Float) : Json :=
  if f.isNaN || f.isInf then null
  else
    let bits := f.toBits.toNat
    let text := magnitude ⟨bits / Nat.pow 2 52 % Nat.pow 2 11, bits % Nat.pow 2 52⟩
    num (String.ofList (if bits ≥ Nat.pow 2 63 then '-' :: text else text))

end PointsTo.Json
