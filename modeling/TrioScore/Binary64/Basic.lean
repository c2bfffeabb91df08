/-!
# Binary64 numbers

The numbers of IEEE 754 binary64. A finite number is a sign and a rank: the ranks count the
magnitudes upwards from zero, so that neighbours on the grid have neighbouring ranks. Each finite
number has an exact rational value, `toRat`, and `ofMagnitude` goes back, to the nearest number,
a tie going to the even rank.
-/

namespace TrioScore

def powerOf (base : Nat) : Int → Rat
  | .ofNat n => (Nat.pow base n : Nat)
  | .negSucc n => mkRat 1 (Nat.pow base (n + 1))

/-- The integer nearest to `n / d`; a tie goes to the even one. -/
def roundQuotient (n d : Nat) : Nat :=
  let q := n / d
  let r := n % d
  if 2 * r < d then q else if d < 2 * r then q + 1 else q + q % 2

/-- The exponent of the greatest power of two that is not above a positive `q`. -/
def floorLog2 (q : Rat) : Int :=
  let e : Int := (q.num.toNat.log2 : Int) - (q.den.log2 : Int)
  if powerOf 2 e ≤ q then e else e - 1

/-- How many numbers follow one another at one spacing. -/
def octaveSize : Nat := 4503599627370496

def rankCount : Nat := 9218868437227405312

/-- A number of IEEE 754 binary64. There is one NaN. -/
inductive Binary64 where
  | nan
  | infinity (negative : Bool)
  | finite (negative : Bool) (rank : Fin rankCount)
deriving DecidableEq

namespace Binary64

/-- The integer that, times the spacing, is the magnitude of this rank. -/
def significand (rank : Nat) : Nat :=
  if rank < octaveSize then rank else rank % octaveSize + octaveSize

def spacing (rank : Nat) : Int :=
  if rank < octaveSize then -1074 else (rank / octaveSize : Nat) - 1075

def magnitude (rank : Nat) : Rat := (significand rank : Rat) * powerOf 2 (spacing rank)

/-- The exact value of a finite number; infinities and NaN count as zero. -/
def toRat : Binary64 → Rat
  | finite negative rank => if negative then -magnitude rank else magnitude rank
  | _ => 0

/-- The exponent of the spacing that numbers about a positive `q` have. -/
def spacingAt (q : Rat) : Int := max (-1074) (floorLog2 q - 52)

/-- The rank nearest to a magnitude, were there ranks without end. -/
def rankAt (q : Rat) : Nat :=
  if q ≤ 0 then 0
  else
    let e := spacingAt q
    let steps := q * powerOf 2 (-e)
    (e + 1074).toNat * octaveSize + roundQuotient steps.num.toNat steps.den

def ofMagnitude (negative : Bool) (q : Rat) : Binary64 :=
  let rank := rankAt q
  if h : rank < rankCount then finite negative ⟨rank, h⟩ else infinity negative

/-- The number nearest to `q`; zero is positive. -/
def ofRat (q : Rat) : Binary64 := if q < 0 then ofMagnitude true (-q) else ofMagnitude false q

def zero (negative : Bool) : Binary64 := finite negative ⟨0, by decide⟩

def greatest : Binary64 := finite false ⟨rankCount - 1, by decide⟩

def isFinite : Binary64 → Bool
  | finite .. => true
  | _ => false

def isZero : Binary64 → Bool
  | finite _ rank => rank.val == 0
  | _ => false

def neg : Binary64 → Binary64
  | nan => nan
  | infinity a => infinity (!a)
  | finite a r => finite (!a) r

/-- The rounded sum. A sum of zero is negative only when both terms are. -/
def add : Binary64 → Binary64 → Binary64
  | nan, _ => nan
  | _, nan => nan
  | infinity a, infinity b => if a = b then infinity a else nan
  | infinity a, finite .. => infinity a
  | finite .., infinity b => infinity b
  | finite a r, finite b s =>
    let q := (finite a r).toRat + (finite b s).toRat
    if q = 0 then zero (a && b) else ofRat q

def sub (x y : Binary64) : Binary64 := add x y.neg

def mul : Binary64 → Binary64 → Binary64
  | nan, _ => nan
  | _, nan => nan
  | infinity a, infinity b => infinity (a != b)
  | infinity a, finite b s => if s.val = 0 then nan else infinity (a != b)
  | finite a r, infinity b => if r.val = 0 then nan else infinity (a != b)
  | finite a r, finite b s => ofMagnitude (a != b) (magnitude r * magnitude s)

def div : Binary64 → Binary64 → Binary64
  | nan, _ => nan
  | _, nan => nan
  | infinity _, infinity _ => nan
  | infinity a, finite b _ => infinity (a != b)
  | finite a _, infinity b => zero (a != b)
  | finite a r, finite b s =>
    if s.val = 0 then (if r.val = 0 then nan else infinity (a != b))
    else ofMagnitude (a != b) (magnitude r / magnitude s)

instance : Add Binary64 := ⟨add⟩
instance : Sub Binary64 := ⟨sub⟩
instance : Mul Binary64 := ⟨mul⟩
instance : Div Binary64 := ⟨div⟩
instance : Neg Binary64 := ⟨neg⟩

/-- Whether one number is below another; NaN is neither above nor below any. -/
def less : Binary64 → Binary64 → Bool
  | nan, _ => false
  | _, nan => false
  | infinity a, infinity b => a && !b
  | infinity a, finite .. => a
  | finite .., infinity b => !b
  | finite a r, finite b s => decide ((finite a r).toRat < (finite b s).toRat)

def clamp (low high x : Binary64) : Binary64 :=
  let capped := if x.less high then x else high
  if low.less capped then capped else low

def ofInt? (n : Int) : Option Binary64 :=
  match ofRat n with
  | finite a r => some (finite a r)
  | _ => none

/-- The nearest number to `n * 10 ^ e`, with the sign given. Far beyond either end of the range the
answer is known without the power. -/
def ofDecimal (negative : Bool) (n : Nat) (e : Int) : Binary64 :=
  if n = 0 then zero negative
  else if 400 < e then infinity negative
  else if e + (n.log2 / 3 : Nat) + 2 < -330 then zero negative
  else ofMagnitude negative ((n : Rat) * powerOf 10 e)

end Binary64
end TrioScore
