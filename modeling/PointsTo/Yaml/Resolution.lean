import PointsTo.Yaml.Basic

/-!
# What scalars stand for

Some texts stand for nothing, for a truth value or for a number when they are written without quotes.
Integers may have a sign and a radix, and decimal digits behind a leading zero are text. A tag may say that
a scalar stands for nothing, or for an integer if it is written below a header; a tag that belongs to the
document names one of several choices.
-/

namespace PointsTo.Yaml

/-! ## Nothing, and truth values -/

/-- Texts that stand for nothing, besides the empty one. -/
def nullTexts : List String := ["~", "null", "Null", "NULL"]

/-- Texts that stand for truth values. -/
def boolTexts : List String := ["true", "True", "TRUE", "false", "False", "FALSE"]

/-! ## Integers -/

/-- The value of digits behind those that have the value `n`. -/
def digitsFrom? (radix : Nat) (n : Nat) : List Char → Option Nat
  | [] => some n
  | c :: cs =>
    match hexDigit? c with
    | some d => if d < radix then digitsFrom? radix (radix * n + d) cs else none
    | none => none

/-- The value of one or more digits. -/
def digits? (radix : Nat) (cs : List Char) : Option Nat :=
  if cs.isEmpty then none else digitsFrom? radix 0 cs

/-- The value of digits behind a radix prefix. -/
def prefixed? : List Char → Option Nat
  | '0' :: 'x' :: cs => digits? 16 cs
  | '0' :: 'o' :: cs => digits? 8 cs
  | '0' :: 'b' :: cs => digits? 2 cs
  | _ => none

/-- Is it a zero with more decimal digits behind it? -/
def hasLeadingZero : List Char → Bool
  | '0' :: c :: cs => c.isDigit && cs.all Char.isDigit
  | _ => false

/-- The value of decimal digits, or of digits behind a radix prefix. -/
def magnitude? (cs : List Char) : Option Nat :=
  match prefixed? cs with
  | some n => some n
  | none => if hasLeadingZero cs then none else digits? 10 cs

/-- The value of an integer without a minus sign. -/
def natural? : List Char → Option Nat
  | '+' :: cs => magnitude? cs
  | cs => magnitude? cs

/-- Is it an integer of 128 bits? -/
def isInteger : List Char → Bool
  | '-' :: cs => (magnitude? cs).any (· ≤ Nat.pow 2 127)
  | cs => (natural? cs).any (· < Nat.pow 2 128)

/-! ## Other numbers -/

/-- Texts that stand for the numbers without digits. -/
def infiniteTexts : List String :=
  [".inf", ".Inf", ".INF", "+.inf", "+.Inf", "+.INF", "-.inf", "-.Inf", "-.INF", ".nan", ".NaN", ".NAN"]

/-- The value of decimal digits with at most one sign. -/
def signed? : List Char → Option Int
  | '+' :: ds => (digits? 10 ds).map fun n => (n : Int)
  | '-' :: ds => (digits? 10 ds).map fun n => -(n : Int)
  | ds => (digits? 10 ds).map fun n => (n : Int)

/-- The exponent behind a significand; none is `0`. -/
def exponent? : List Char → Option Int
  | [] => some 0
  | e :: ds => if e = 'e' || e = 'E' then signed? ds else none

/-- Does `m * 10 ^ e` round to a finite double? -/
def roundsToFinite (m : Nat) (e : Int) : Bool :=
  let leading : Int := m.repr.length + e
  if m = 0 || leading < 300 then true
  else if leading > 310 then false
  else if e ≥ 0 then m * Nat.pow 10 e.toNat < Nat.pow 2 1024 - Nat.pow 2 970
  else m < (Nat.pow 2 1024 - Nat.pow 2 970) * Nat.pow 10 (-e).toNat

/-- Is it digits, perhaps with a point among, before or behind them, and perhaps with an exponent? -/
def isUnsignedDecimal (cs : List Char) : Bool :=
  let whole := cs.takeWhile Char.isDigit
  let (fraction, rest) := match cs.dropWhile Char.isDigit with
    | '.' :: ds => (ds.takeWhile Char.isDigit, ds.dropWhile Char.isDigit)
    | ds => ([], ds)
  match digits? 10 (whole ++ fraction), exponent? rest with
  | some m, some e => roundsToFinite m (e - fraction.length)
  | _, _ => false

/-- Is it a decimal number with at most one sign? -/
def isDecimal : List Char → Bool
  | '+' :: cs => isUnsignedDecimal cs
  | '-' :: cs => isUnsignedDecimal cs
  | cs => isUnsignedDecimal cs

/-- Are all characters decimal digits, with a leading zero behind the sign? -/
def isPaddedNumber : List Char → Bool
  | '+' :: cs => hasLeadingZero cs
  | '-' :: cs => hasLeadingZero cs
  | cs => hasLeadingZero cs

/-! ## Reading -/

/-- Would the text stand for something else than itself, or look as if it did? -/
def isAmbiguous (text : String) : Bool :=
  let cs := text.toList
  text.isEmpty || nullTexts.contains text || boolTexts.contains text || infiniteTexts.contains text
    || isInteger cs || isDecimal cs || isPaddedNumber cs

namespace Document

/-- A natural number below a bound. -/
def nat? (d : Document) (bound : Nat) (y : Yaml) : Option Nat :=
  match d.deref y with
  | scalar style tag text =>
    if style = .plain || (style = .literal && tag = some .int) then
      (natural? text.toList).filter (· < bound)
    else none
  | _ => none

/-- Nothing, or the value as `f` reads it. A tag says whether a plain scalar stands for nothing; without
one, the text does. -/
def optional? {α : Type} (d : Document) (f : Yaml → Option α) (y : Yaml) : Option (Option α) :=
  match d.deref y with
  | scalar .plain none text =>
    if text.isEmpty || nullTexts.contains text then some none else (f y).map some
  | scalar .plain (some tag) text =>
    if tag = .null then if nullTexts.contains text then some none else none else (f y).map some
  | _ => (f y).map some

/-- One of several values by its exact name, which is the text of a scalar, or its tag if it stands for
nothing. -/
def choice? {α : Type} (d : Document) (choices : List (String × α)) (y : Yaml) : Option α :=
  match d.deref y with
  | scalar style tag text =>
    match tag.bind Tag.name? with
    | some name =>
      if style = .plain && (text.isEmpty || nullTexts.contains text) then choices.lookup name else none
    | none => choices.lookup text
  | _ => none

end Document

end PointsTo.Yaml
