import TrioScore.Binary64.Basic

/-!
# Decimals

A decimal is a coefficient times a power of ten. The magnitude of a number is brought to a decimal
with a given count of digits, either the nearest one or, for `Decimal.between`, the two that hold
it between them.
-/

namespace TrioScore

/-- The number `coefficient * 10 ^ exponent`. -/
structure Decimal where
  coefficient : Nat
  exponent : Int
deriving DecidableEq

namespace Decimal

def toRat (d : Decimal) : Rat := (d.coefficient : Rat) * powerOf 10 d.exponent

def digits (d : Decimal) : List Char := Nat.toDigits 10 d.coefficient

def floorLog10 (q : Rat) : Int :=
  if 1 ≤ q then ((Nat.toDigits 10 q.floor.toNat).length : Int) - 1
  else -((Nat.toDigits 10 ((1 / q).ceil.toNat - 1)).length : Int)

/-- The exponent of the last of `count` digits of a positive `q`. -/
def lastExponent (count : Nat) (q : Rat) : Int := floorLog10 q - ((count : Int) - 1)

/-- The decimal of `count` digits nearest to a magnitude; a tie goes to the even coefficient. -/
def nearest (count : Nat) (q : Rat) : Decimal :=
  if q ≤ 0 then ⟨0, 0⟩
  else
    let e := lastExponent count q
    let steps := q * powerOf 10 (-e)
    ⟨roundQuotient steps.num.toNat steps.den, e⟩

end Decimal
end TrioScore
