import TrioScore.Number
import TrioScore.Text.Blank
import TrioScore.Text.DecimalDigit
import TrioScore.Text.Integer

/-!
# Meters

A meter is written as two numerals with a stroke between them, blanks allowed everywhere but inside
a numeral. The numerator is limited to 1 to 12; a denominator other than 2, 4, 8 and 16 becomes 4.
What is written otherwise is four quarters.
-/

namespace TrioScore

/-- How many notes of which part of a whole fill a measure. -/
structure Meter where
  numerator : Int
  denominator : Int
deriving DecidableEq

namespace Meter

def common : Meter := ⟨4, 4⟩

def ofValues (n d : Nat) : Meter :=
  ⟨limit 1 12 n, if d = 2 ∨ d = 4 ∨ d = 8 ∨ d = 16 then d else 4⟩

/-- The two numerals of a written meter, in digit values. -/
def numerals? (t : Text) : Option (List Nat × List Nat) :=
  let t := Text.trimStart t
  let numerator := t.takeWhile CodePoint.isDigit
  match Text.trimStart (t.dropWhile CodePoint.isDigit) with
  | [] => none
  | c :: t =>
    let t := Text.trimStart t
    let denominator := t.takeWhile CodePoint.isDigit
    if c = .ofChar '/' && !numerator.isEmpty && !denominator.isEmpty &&
        Text.isBlank (t.dropWhile CodePoint.isDigit) then
      some (numerator.filterMap CodePoint.digit?, denominator.filterMap CodePoint.digit?)
    else none

/-- The value of a numeral; there is a limit to its digits. -/
def numeralValue (digits : List Nat) : Except Fault Nat :=
  if digitLimit < digits.length then .error (.numeralTooLong digits.length)
  else .ok (ofDigits digits)

def parse (t : Text) : Except Fault Meter :=
  match numerals? t with
  | none => .ok common
  | some (numerator, denominator) => do
    let n ← numeralValue numerator
    let d ← numeralValue denominator
    return ofValues n d

def toText (meter : Meter) : Text :=
  Text.ofInt meter.numerator ++ Text.ofString "/" ++ Text.ofInt meter.denominator

def quarterBeats (meter : Meter) : Binary64 :=
  .ofRat ((4 * meter.numerator : Int) / (meter.denominator : Rat))

/-- The whole quarter pulses of a measure of a given length, 1 to 16. -/
def pulses (beats : Number) : Except Fault Int := (limit 1 16 ·) <$> beats.nearestInt

end Meter
end TrioScore
