import TrioScore.Decimal.Basic

/-!
# The shortest decimal that reads back

A finite binary64 is written with the fewest digits that are read back as the same number, and of
two such decimals of one length with the nearer. For each count of digits only the two decimals
around the exact value can qualify. Seventeen digits always do; the exact decimal stands behind
them.
-/

namespace TrioScore.Decimal

def readsAs (rank : Fin rankCount) (d : Decimal) : Bool :=
  Binary64.ofDecimal false d.coefficient d.exponent == .finite false rank

/-- The decimal of `count` digits that is read as the magnitude of this rank, the nearer if both
neighbours are; a tie goes to the even coefficient. -/
def readBack? (rank : Fin rankCount) (count : Nat) : Option Decimal :=
  let q := Binary64.magnitude rank
  let e := lastExponent count q
  let steps := q * powerOf 10 (-e)
  let below : Decimal := ⟨steps.floor.toNat, e⟩
  let above : Decimal := ⟨steps.floor.toNat + 1, e⟩
  let close : Decimal := ⟨roundQuotient steps.num.toNat steps.den, e⟩
  match readsAs rank below, readsAs rank above with
  | true, true => some close
  | true, false => some below
  | false, true => some above
  | false, false => none

def exact (rank : Fin rankCount) : Decimal :=
  let q := Binary64.magnitude rank
  let twos := q.den.log2
  ⟨q.num.toNat * Nat.pow 5 twos, -twos⟩

/-- The decimal with the fewest digits that is read as the magnitude of this rank. -/
def shortest (rank : Fin rankCount) : Decimal :=
  if rank.val = 0 then ⟨0, 0⟩
  else ((List.range' 1 17).findSome? (readBack? rank)).getD (exact rank)

end TrioScore.Decimal
