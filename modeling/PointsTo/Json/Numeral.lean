import PointsTo.Json.Basic

/-!
# Number literals

The grammar of a JSON number, and the numbers a literal stands for. `Numeral.parse?` splits a literal
into sign, digits, fraction and exponent; it fails on text that is no number.

`Json.nat?` reads an integer that is written with digits alone. `Json.float?` reads any number as a
double: the digits, cut to those that fit 64 bits, are rounded to a double, which is then scaled by a
power of ten and rounded once more. A number too large for a double is refused.
-/

namespace PointsTo

/-- The parts of a number literal. -/
structure Numeral where
  /-- Is there a minus sign? -/
  negative : Bool
  /-- The digits before the point. -/
  whole : List Char
  /-- The digits behind the point, if there is one. -/
  fraction : Option (List Char)
  /-- The power of ten, if one is written. -/
  exponent : Option Int

namespace Numeral

/-- The number that a list of decimal digits stands for. -/
def ofDigits (ds : List Char) : Nat := ds.foldl (fun n d => 10 * n + (d.toNat - '0'.toNat)) 0

/-- The exponent part: nothing, or a sign and digits behind the letter. -/
def exponent? : List Char → Option (Option Int)
  | [] => some none
  | e :: rest =>
    if e = 'e' || e = 'E' then
      let (negative, ds) := match rest with
        | '+' :: ds => (false, ds)
        | '-' :: ds => (true, ds)
        | ds => (false, ds)
      if ds.isEmpty || !ds.all Char.isDigit then none
      else some (some (if negative then -(ofDigits ds : Int) else ofDigits ds))
    else none

/-- Everything behind the whole part: the fraction and the exponent. -/
def tail? : List Char → Option (Option (List Char) × Option Int)
  | '.' :: rest =>
    let ds := rest.takeWhile Char.isDigit
    if ds.isEmpty then none
    else (exponent? (rest.dropWhile Char.isDigit)).map (some ds, ·)
  | rest => (exponent? rest).map (none, ·)

/-- A literal without its sign: no digit may follow a leading zero. -/
def unsigned? (negative : Bool) (cs : List Char) : Option Numeral :=
  let whole := cs.takeWhile Char.isDigit
  if whole.isEmpty || (whole.head? = some '0' && whole.length ≠ 1) then none
  else (tail? (cs.dropWhile Char.isDigit)).map fun (fraction, exponent) =>
    { negative, whole, fraction, exponent }

/-- The parts of a literal. -/
def parse? : List Char → Option Numeral
  | '-' :: rest => unsigned? true rest
  | cs => unsigned? false cs

/-- The natural number, for digits without sign, fraction and exponent. -/
def nat? (n : Numeral) : Option Nat :=
  if n.negative || n.fraction.isSome || n.exponent.isSome then none else some (ofDigits n.whole)

/-- All digits as one number; the value is that times ten to the `scale`. -/
def significand (n : Numeral) : Nat := ofDigits (n.whole ++ n.fraction.getD [])

/-- The power of ten that goes with the significand. -/
def scale (n : Numeral) : Int := n.exponent.getD 0 - ((n.fraction.getD []).length : Int)

/-- The largest power of ten among the doubles. -/
def maxScale : Nat := 308

/-- Last digits dropped until the number fits 64 bits, with the power of ten that stands for them.
One digit is dropped at most `digits` times. -/
def fitWord (m : Nat) (e : Int) : (digits : Nat) → Nat × Int
  | 0 => (m, e)
  | d + 1 => if m < Nat.pow 2 64 then (m, e) else fitWord (m / 10) (e + 1) d

/-- The double `m` times ten to the `e`, if it is finite. A number of 64 bits always is. -/
def scaled? (m : Nat) (e : Int) : Option Float :=
  let f := m.toUInt64.toFloat
  let power (k : Nat) : Float := Float.ofScientific 1 false k
  if e = 0 then some f
  else if e > 0 then
    if e.toNat ≤ maxScale then
      let r := f * power e.toNat
      if r.isInf then none else some r
    else if m = 0 then some f else none
  else
    let k := (-e).toNat
    if k ≤ maxScale then some (f / power k)
    else if k ≤ 2 * maxScale then some (f / power maxScale / power (k - maxScale))
    else some 0

/-- The double nearest to the value, as described at the head of this module. -/
def float? (n : Numeral) : Option Float :=
  let (m, e) := fitWord n.significand n.scale (n.whole.length + (n.fraction.getD []).length)
  (scaled? m e).map fun f => if n.negative then -f else f

end Numeral

namespace Json

/-- An integer from `0` to `bound - 1`, written with digits alone. -/
def nat? (bound : Nat) : Json → Option Nat
  | num literal => ((Numeral.parse? literal.toList).bind Numeral.nat?).filter (· < bound)
  | _ => none

/-- An id: an integer of 32 bits. -/
def id? : Json → Option Nat := nat? (Nat.pow 2 32)

/-- A count or a depth: an integer of 64 bits. -/
def size? : Json → Option Nat := nat? (Nat.pow 2 64)

/-- A number of any form. -/
def float? : Json → Option Float
  | num literal => (Numeral.parse? literal.toList).bind Numeral.float?
  | _ => none

mutual

/-- Does every string in the value denote text, and every number a double? -/
def isPlain : Json → Bool
  | null | bool _ => true
  | num literal => ((Numeral.parse? literal.toList).bind Numeral.float?).isSome
  | str t => t.isSome
  | arr items => arePlain items
  | obj members => membersPlain members

/-- As `isPlain`, for the items of an array. -/
def arePlain : List Json → Bool
  | [] => true
  | j :: js => isPlain j && arePlain js

/-- As `isPlain`, for the members of an object. -/
def membersPlain : List (JsonText × Json) → Bool
  | [] => true
  | (k, j) :: ms => k.isSome && isPlain j && membersPlain ms

end

end Json

end PointsTo
