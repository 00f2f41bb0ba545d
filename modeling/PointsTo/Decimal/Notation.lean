import PointsTo.Decimal.Shortest

/-!
# Writing decimals

A decimal is written positionally while its leading digit is not too far from the point, and with an
exponent beyond. Where the one ends and the other begins is a choice of the format, and so is the sign of
a positive exponent.
-/

namespace PointsTo

/-- What a format decides about decimals. -/
structure DecimalStyle where
  /-- The lowest power of ten of the leading digit for which a number is written positionally. -/
  lowest : Int
  /-- The highest one. -/
  highest : Int
  /-- Does an exponent that is not negative have a sign? -/
  plus : Bool
deriving DecidableEq

namespace Decimal

/-- The digits as text. -/
def digitChars (d : Decimal) : List Char := Nat.toDigits 10 d.digits

/-- The position of the point behind the first digit that it follows: `1` for `1.5`. -/
def point (d : Decimal) : Int := d.digitChars.length + d.exponent

/-- A point among digits, or before or behind them; there is always a digit on either side. -/
def positional (d : Decimal) : List Char :=
  let ds := d.digitChars
  if d.exponent ≥ 0 then ds ++ List.replicate d.exponent.toNat '0' ++ ['.', '0']
  else if d.point > 0 then ds.take d.point.toNat ++ '.' :: ds.drop d.point.toNat
  else '0' :: '.' :: (List.replicate (-d.point).toNat '0' ++ ds)

/-- An exponent as text. -/
def exponentChars (plus : Bool) (e : Int) : List Char :=
  if e < 0 then '-' :: Nat.toDigits 10 (-e).toNat
  else if plus then '+' :: Nat.toDigits 10 e.toNat
  else Nat.toDigits 10 e.toNat

/-- One digit, the others behind a point, and an exponent. -/
def scientific (plus : Bool) (d : Decimal) : List Char :=
  let mantissa := match d.digitChars with
    | c :: c' :: cs => c :: '.' :: c' :: cs
    | cs => cs
  mantissa ++ 'e' :: exponentChars plus (d.point - 1)

/-- The decimal as text. -/
def write (style : DecimalStyle) (d : Decimal) : List Char :=
  if style.lowest ≤ d.point - 1 && d.point - 1 ≤ style.highest then d.positional
  else d.scientific style.plus

end Decimal

end PointsTo
