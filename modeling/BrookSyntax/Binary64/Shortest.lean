import BrookSyntax.Binary64

namespace BrookSyntax

/-- The decimal number `digits * 10 ^ exponent`. -/
structure Decimal where
  digits : Nat
  exponent : Int
deriving DecidableEq

namespace Binary64

/-- The number of decimal digits of a natural number. -/
def digitCount (n : Nat) : Nat := (Nat.toDigits 10 n).length

/-- The least `e` with the magnitude below `10 ^ e`, for a finite number other than zero. -/
def decimalPoint (x : Binary64) : Int :=
  if 2 ^ 1074 ≤ x.scaled then digitCount (x.scaled / 2 ^ 1074)
  else 1 - digitCount ((2 ^ 1074 - 1) / x.scaled)

/-- The decimal reads back as the magnitude of `x`. -/
def readsBack (x : Binary64) (d : Decimal) : Bool :=
  (ofDecimal false d.digits d.exponent).rank == x.rank

/-- Twice the magnitude of `x` lies above the midpoint of `digits` and `digits + 1` on the grid of
the exponent: the upper neighbour is the nearer one, or the two are equally near and the upper one
is even. -/
def nearerAbove (x : Binary64) (d : Decimal) : Bool :=
  let num := 2 * x.scaled * 10 ^ (-d.exponent).toNat
  let mid := (2 * d.digits + 1) * 10 ^ d.exponent.toNat * 2 ^ 1074
  mid < num || (mid == num && d.digits % 2 == 1)

/-- The best decimal with `count` digits that reads back as the magnitude of `x`. -/
def withDigits? (x : Binary64) (count : Nat) : Option Decimal :=
  let exponent := x.decimalPoint - count
  let digits := x.scaled * 10 ^ (-exponent).toNat / (2 ^ 1074 * 10 ^ exponent.toNat)
  let below : Decimal := ⟨digits, exponent⟩
  let above : Decimal := ⟨digits + 1, exponent⟩
  match x.readsBack below, x.readsBack above with
  | true, true => some (if x.nearerAbove below then above else below)
  | true, false => some below
  | false, true => some above
  | false, false => none

/-- The magnitude written out to its last digit. -/
def exact (x : Binary64) : Decimal := ⟨x.scaled * 5 ^ 1074, -1074⟩

/-- The decimal with the fewest digits that reads back as the magnitude of `x`, the nearest of
those. -/
def shortest (x : Binary64) : Decimal :=
  ((List.range 17).findSome? fun n => x.withDigits? (n + 1)).getD x.exact

/-- The digits of a decimal without the zeros at their end, and the place of the decimal point
counted from their start. -/
def layout (d : Decimal) : Text × Int :=
  let digits := Text.ofNat d.digits
  let shown := (digits.reverse.dropWhile (· == CodeUnit.of '0')).reverse
  (shown, digits.length + d.exponent)

/-- An exponent with its sign. -/
def exponentText (e : Int) : Text :=
  (if e < 0 then CodeUnit.of '-' else CodeUnit.of '+') :: Text.ofNat e.natAbs

/-- The written form of digits with the decimal point at a place counted from their start:
positional from `1e-6` up to below `1e21`, with an exponent elsewhere. -/
def digitsText (digits : Text) (point : Int) : Text :=
  if digits.length ≤ point ∧ point ≤ 21 then
    digits ++ List.replicate (point.toNat - digits.length) (CodeUnit.of '0')
  else if 0 < point ∧ point ≤ 21 then
    digits.take point.toNat ++ CodeUnit.of '.' :: digits.drop point.toNat
  else if -6 < point ∧ point ≤ 0 then
    CodeUnit.of '0' :: CodeUnit.of '.' ::
      (List.replicate (-point).toNat (CodeUnit.of '0') ++ digits)
  else
    digits.take 1 ++ (if digits.length ≤ 1 then [] else CodeUnit.of '.' :: digits.drop 1) ++
      CodeUnit.of 'e' :: exponentText (point - 1)

/-- The written form of the magnitude. -/
def magnitudeText (x : Binary64) : Text :=
  if x.isZero then "0"
  else if x.isFinite then
    let (digits, point) := layout x.shortest
    digitsText digits point
  else "Infinity"

/-- The written form of a number; a zero has no sign. -/
def text (x : Binary64) : Text :=
  if x.negative && !x.isZero then CodeUnit.of '-' :: x.magnitudeText else x.magnitudeText

end Binary64

/-- The written form of a value of the number format. -/
def Double.text : Double → Text
  | nan => "NaN"
  | number x => x.text

/-- The written form of an integer, as that of the nearest double-precision number. -/
def Text.ofInt (i : Int) : Text := (Binary64.ofInt i).text

end BrookSyntax
