import TrioScore.Number
import TrioScore.Text.Blank
import TrioScore.Text.Capital
import TrioScore.Text.DecimalDigit

/-!
# Numerals in texts

Numbers spelled in a text: white space around, a sign, decimal digits of any script with single
underscores between them, and for a binary64 a point, an exponent or one of the words for infinity
and NaN. An integer has at most 4300 digits; a longer one is no integer numeral, but it is still
read as a binary64.
-/

namespace TrioScore.Numeral

/-- Whether every underscore stands between two digits; `after` tells whether a digit stands just
before the text. -/
def isSpaced (after : Bool) : Text → Bool
  | [] => after
  | c :: t => if c = .ofChar '_' then after && isSpaced false t else isSpaced true t

def inRun (c : CodePoint) : Bool := c.isDigit || c = .ofChar '_'

/-- The digits at the start of a text and what follows them; underscores have to be in place. -/
def digitRun? (t : Text) : Option (List Nat × Text) :=
  let run := t.takeWhile inRun
  if run.isEmpty || isSpaced false run then
    some (run.filterMap CodePoint.digit?, t.dropWhile inRun)
  else none

/-- Whether a text starts with a minus, and the text behind its sign. -/
def takeSign : Text → Bool × Text
  | [] => (false, [])
  | c :: t =>
    if c = .ofChar '-' then (true, t)
    else if c = .ofChar '+' then (false, t)
    else (false, c :: t)

def signed (negative : Bool) (n : Nat) : Int := if negative then -n else n

def integer? (t : Text) : Option Int :=
  let (negative, t) := takeSign (t.strip CodePoint.isWhite)
  match digitRun? t with
  | some (d :: ds, []) =>
    if digitLimit < (d :: ds).length then none else some (signed negative (ofDigits (d :: ds)))
  | _ => none

/-- The digits behind a point, and what follows; a text without a point has none. -/
def fraction? : Text → Option (List Nat × Text)
  | [] => some ([], [])
  | c :: t => if c = .ofChar '.' then digitRun? t else some ([], c :: t)

def exponent? : Text → Option Int
  | [] => some 0
  | c :: t =>
    if c = .ofChar 'e' ∨ c = .ofChar 'E' then
      let (negative, t) := takeSign t
      match digitRun? t with
      | some (d :: ds, []) => some (signed negative (ofDigits (d :: ds)))
      | _ => none
    else none

def decimal? (negative : Bool) (t : Text) : Option Binary64 := do
  let (whole, t) ← digitRun? t
  let (fraction, t) ← fraction? t
  let e ← exponent? t
  if whole.isEmpty && fraction.isEmpty then none
  else some (Binary64.ofDecimal negative (ofDigits (whole ++ fraction)) (e - fraction.length))

def real? (t : Text) : Option Binary64 :=
  let (negative, t) := takeSign (t.strip CodePoint.isWhite)
  let word := t.smalls
  if word = Text.ofString "inf" ∨ word = Text.ofString "infinity" then some (.infinity negative)
  else if word = Text.ofString "nan" then some .nan
  else decimal? negative t

/-- The number a text spells: an integer if it can be one, else a binary64. -/
def number? (t : Text) : Option Number :=
  match integer? t with
  | some n => some (.int n)
  | none => (real? t).map .real

end TrioScore.Numeral
