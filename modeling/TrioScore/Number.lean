import TrioScore.Binary64.Basic
import TrioScore.Fault

/-!
# Numbers

A number is an exact integer or a binary64. The two mix: a sum with a binary64 is a binary64, and
comparison is by exact value. An integer whose nearest binary64 would be infinite is refused where
a binary64 is needed.
-/

namespace TrioScore

namespace Binary64

def floor : Binary64 → Except Fault Int
  | nan => .error .nanToInteger
  | infinity _ => .error .infinityToInteger
  | x => .ok x.toRat.floor

def truncate : Binary64 → Except Fault Int
  | nan => .error .nanToInteger
  | infinity _ => .error .infinityToInteger
  | x => .ok (x.toRat.num.tdiv x.toRat.den)

def half : Binary64 := ofRat (mkRat 1 2)

def ofInt (n : Int) : Except Fault Binary64 :=
  match ofInt? n with
  | some x => .ok x
  | none => .error .integerTooLarge

end Binary64

inductive Number where
  | int (n : Int)
  | real (x : Binary64)
deriving DecidableEq

namespace Number

/-- Whether the number differs from zero; NaN does. -/
def isNonzero : Number → Bool
  | int n => n != 0
  | real x => !x.isZero

def isFinite : Number → Bool
  | int _ => true
  | real x => x.isFinite

/-- The exact value; infinities and NaN count as zero. -/
def toRat : Number → Rat
  | int n => n
  | real x => x.toRat

def toBinary64 : Number → Except Fault Binary64
  | int n => Binary64.ofInt n
  | real x => .ok x

/-- Whether the number is finite; an integer has to have a binary64 to be asked. -/
def checkFinite : Number → Except Fault Bool
  | int n => (Binary64.ofInt n).map fun _ => true
  | real x => .ok x.isFinite

/-- The integer nearest to the number, halves going up, by way of a rounded sum with one half. -/
def nearestInt (x : Number) : Except Fault Int := do
  let y ← x.toBinary64
  (y + Binary64.half).floor

end Number

def limit (low high n : Int) : Int := max low (min high n)

theorem le_limit (low high n : Int) : low ≤ limit low high n := by
  unfold limit
  omega

theorem limit_le {low high : Int} (h : low ≤ high) (n : Int) : limit low high n ≤ high := by
  unfold limit
  omega

theorem limit_eq_self {low high n : Int} (hl : low ≤ n) (hh : n ≤ high) :
    limit low high n = n := by
  unfold limit
  omega

/-- A pitch or velocity as a data byte of a message, 0 to 127; no finite number gives middle C. -/
def Number.dataByte (x : Number) : Except Fault Int := do
  if ← x.checkFinite then
    return limit 0 127 (← x.nearestInt)
  return 60

end TrioScore
