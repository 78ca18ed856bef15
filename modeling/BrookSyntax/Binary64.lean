import BrookSyntax.Text

-- Powers are those of the core library in every module, whatever else it imports.
attribute [default_instance 20000, instance (20000)] instPowNat

namespace BrookSyntax

/-- A double-precision number other than "not a number": its sign and the rank of its magnitude
among all magnitudes. Those below the infinite one are whole multiples of `2 ^ (-1074)`. -/
structure Binary64 where
  negative : Bool
  rank : Nat
  rank_le : rank ≤ 2047 * 2 ^ 52
deriving DecidableEq

namespace Binary64

/-- The rank of the infinite magnitude. -/
def infiniteRank : Nat := 2047 * 2 ^ 52

/-- The number of a given sign and rank; a rank beyond the infinite one is the infinite one. -/
def ofRank (negative : Bool) (rank : Nat) : Binary64 :=
  ⟨negative, min rank (2047 * 2 ^ 52), Nat.min_le_right _ _⟩

/-- Zero, without a sign. -/
def zero : Binary64 := ofRank false 0

instance : Inhabited Binary64 := ⟨zero⟩

def isFinite (x : Binary64) : Bool := x.rank < infiniteRank

def isZero (x : Binary64) : Bool := x.rank == 0

/-- The magnitude of a finite number as a multiple of `2 ^ (-1074)`. -/
def scaled (x : Binary64) : Nat :=
  if x.rank < 2 ^ 52 then x.rank
  else (x.rank % 2 ^ 52 + 2 ^ 52) * 2 ^ (x.rank / 2 ^ 52 - 1)

/-- The nearest whole number to a quotient, a tie going to the even one. -/
def roundDiv (num den : Nat) : Nat :=
  if den < 2 * (num % den) ∨ (den = 2 * (num % den) ∧ num / den % 2 = 1) then num / den + 1
  else num / den

/-- The rank nearest to the quotient of `num` and `den`, counted in multiples of `2 ^ (-1074)`. -/
def roundRank (num den : Nat) : Nat :=
  let shift := (num / den).log2 - 52
  shift * 2 ^ 52 + roundDiv num (den * 2 ^ shift)

/-- The number nearest to the quotient of two natural numbers; a tie goes to the even rank. -/
def ofRatio (negative : Bool) (num den : Nat) : Binary64 :=
  ofRank negative (roundRank (num * 2 ^ 1074) den)

/-- The number nearest to `digits * 10 ^ exponent`. Exponents far beyond the range are decided
without computing the power. -/
def ofDecimal (negative : Bool) (digits : Nat) (exponent : Int) : Binary64 :=
  if digits = 0 then ofRank negative 0
  else if 400 < exponent then ofRank negative infiniteRank
  else if exponent + digits.log2 < -400 then ofRank negative 0
  else if 0 ≤ exponent then ofRatio negative (digits * 10 ^ exponent.toNat) 1
  else ofRatio negative digits (10 ^ (-exponent).toNat)

/-- The number nearest to an integer. -/
def ofInt (i : Int) : Binary64 := ofRatio (i < 0) i.natAbs 1

/-- The number nearest to a natural number. -/
def ofNat (n : Nat) : Binary64 := ofRatio false n 1

/-- The number as a multiple of `2 ^ (-1074)`; an infinite one lies beyond all finite ones. -/
def signed (x : Binary64) : Int := if x.negative then -(x.scaled : Int) else x.scaled

/-- The number nearest to a multiple of `2 ^ (-1074)`. -/
def ofSigned (i : Int) : Binary64 := ofRank (i < 0) (roundRank i.natAbs 1)

instance : LT Binary64 := ⟨fun x y => x.signed < y.signed⟩

instance : LE Binary64 := ⟨fun x y => x.signed ≤ y.signed⟩

instance : DecidableLT Binary64 := fun x y => inferInstanceAs (Decidable (x.signed < y.signed))

instance : DecidableLE Binary64 := fun x y => inferInstanceAs (Decidable (x.signed ≤ y.signed))

instance : Min Binary64 := minOfLe

/-- The number nearest to the sum of two; an infinite one absorbs the other. -/
def add (x y : Binary64) : Binary64 :=
  if !x.isFinite then x else if !y.isFinite then y else ofSigned (x.signed + y.signed)

instance : Add Binary64 := ⟨add⟩

/-- The number with the other sign. -/
def neg (x : Binary64) : Binary64 := { x with negative := !x.negative }

instance : Neg Binary64 := ⟨neg⟩

instance : Sub Binary64 := ⟨fun x y => x + -y⟩

/-- The whole part of a number, between it and zero. -/
def trunc (x : Binary64) : Int := x.signed.tdiv (2 ^ 1074)

/-- The number is an integer. -/
def isWhole (x : Binary64) : Bool := x.isFinite && x.scaled % 2 ^ 1074 == 0

/-- The integer that a number is, if it is one. -/
def toInt? (x : Binary64) : Option Int := if x.isWhole then some x.trunc else none

/-- The number is finite and below an integer. -/
def lessThanInt (x : Binary64) (i : Int) : Bool := x.isFinite && x.signed < i * 2 ^ 1074

end Binary64

/-- A value of the number format: a number, or the one value that is not a number. -/
inductive Double where
  | nan
  | number (x : Binary64)
deriving DecidableEq, Inhabited

namespace Double

instance : Coe Binary64 Double := ⟨number⟩

/-- Zero, without a sign. -/
def zero : Double := number .zero

/-- The integer that a value is, if it is one. -/
def toInt? : Double → Option Int
  | nan => none
  | number x => x.toInt?

end Double

/-- Kinds of numbers that have a nearest double-precision number. -/
class Numeric (ν : Type) where
  number : ν → Binary64

instance : Numeric Nat := ⟨Binary64.ofNat⟩

instance : Numeric Int := ⟨Binary64.ofInt⟩

instance : Numeric Binary64 := ⟨id⟩

end BrookSyntax
