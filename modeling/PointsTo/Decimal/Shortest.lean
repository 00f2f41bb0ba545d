/-!
# The shortest decimal for a double

Among the decimals that read back as a given double, `Float.shortest` takes one with the fewest digits,
and of those the nearest.

A double `m * 2 ^ q` is itself a decimal, with a great many digits, and so are the ends of the interval of
numbers that round to it. `Interval` holds all three on one decimal scale, so that the search compares
natural numbers: it drops digits from the right and looks for the coarsest grid with a point inside the
interval. If a grid has such a point, one of the two points next to the double is one.
-/

namespace PointsTo

/-- The number `digits * 10 ^ exponent`. -/
structure Decimal where
  /-- All digits as one number. -/
  digits : Nat
  /-- The power of ten that goes with them. -/
  exponent : Int
deriving DecidableEq

/-- A positive number and the interval of numbers that round to it, all in units of `10 ^ exponent`. -/
structure Interval where
  value : Nat
  low : Nat
  high : Nat
  /-- Do the ends round to the number as well? -/
  closed : Bool
  /-- The power of ten of the unit. -/
  exponent : Int
deriving DecidableEq

namespace Interval

/-- The interval around `m * 2 ^ q`. The next smaller double is half as far away as the next larger one
if `atStep` holds. The ends round to an even `m`. -/
def around (m : Nat) (q : Int) (atStep : Bool) : Interval :=
  let unit := if q ≥ 2 then Nat.pow 2 (q - 2).toNat else Nat.pow 5 (2 - q).toNat
  { value := 4 * m * unit
    low := (4 * m - if atStep then 1 else 2) * unit
    high := (4 * m + 2) * unit
    closed := m % 2 = 0
    exponent := min (q - 2) 0 }

/-- Does a number round to the value? -/
def contains (i : Interval) (n : Nat) : Bool :=
  if i.closed then i.low ≤ n && n ≤ i.high else i.low < n && n < i.high

/-- The nearest of the multiples of `10 ^ dropped` next to the value that lie in the interval, counted
in that unit. A tie goes to the even one. -/
def onGrid? (i : Interval) (dropped : Nat) : Option Nat :=
  let unit := Nat.pow 10 dropped
  let below := i.value / unit
  let above := below + 1
  match i.contains (below * unit), i.contains (above * unit) with
  | true, false => some below
  | false, true => some above
  | false, false => none
  | true, true =>
    let down := i.value - below * unit
    let up := above * unit - i.value
    if down < up then some below
    else if up < down then some above
    else if below % 2 = 0 then some below
    else some above

/-- The first hit among the grids from `10 ^ dropped` downwards; the finest one holds the value. -/
def search (i : Interval) : (dropped : Nat) → Decimal
  | 0 => ⟨i.value, i.exponent⟩
  | d + 1 =>
    match i.onGrid? (d + 1) with
    | some n => ⟨n, i.exponent + ((d + 1 : Nat) : Int)⟩
    | none => i.search d

/-- The shortest decimal in the interval. -/
def shortest (i : Interval) : Decimal := i.search i.value.repr.length

/-- The value is in its interval. -/
theorem contains_around {m : Nat} {q : Int} {atStep : Bool} (h : 0 < m) :
    (around m q atStep).contains (around m q atStep).value = true := by
  have hu : 0 < (if q ≥ 2 then Nat.pow 2 (q - 2).toNat else Nat.pow 5 (2 - q).toNat) := by
    split
    · exact Nat.two_pow_pos _
    · exact Nat.pow_pos (by decide)
  have hl : (4 * m - if atStep then 1 else 2) < 4 * m := by split <;> omega
  have hlow := Nat.mul_lt_mul_of_pos_right hl hu
  have hhigh := Nat.mul_lt_mul_of_pos_right (show 4 * m < 4 * m + 2 by omega) hu
  unfold contains
  split
  · exact Bool.and_eq_true_iff.2
      ⟨decide_eq_true (Nat.le_of_lt hlow), decide_eq_true (Nat.le_of_lt hhigh)⟩
  · exact Bool.and_eq_true_iff.2 ⟨decide_eq_true hlow, decide_eq_true hhigh⟩

end Interval

end PointsTo
