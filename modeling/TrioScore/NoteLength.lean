import TrioScore.Number

/-!
# Note lengths

Notes are whole, half, quarter, eighth or sixteenth. A time in quarter beats goes to the nearest of
them, a tie to the longer; the distances are rounded binary64 differences.
-/

namespace TrioScore

namespace Binary64

def abs : Binary64 → Binary64
  | nan => nan
  | infinity _ => infinity false
  | finite _ rank => finite false rank

end Binary64

inductive NoteLength where
  | whole
  | half
  | quarter
  | eighth
  | sixteenth
deriving DecidableEq

namespace NoteLength

def sixteenths : NoteLength → Nat
  | whole => 16
  | half => 8
  | quarter => 4
  | eighth => 2
  | sixteenth => 1

theorem sixteenths_pos (length : NoteLength) : 0 < length.sixteenths := by
  cases length <;> decide

theorem sixteenths_le (length : NoteLength) : length.sixteenths ≤ 16 := by
  cases length <;> decide

def beats (length : NoteLength) : Binary64 := .ofRat (mkRat length.sixteenths 4)

/-- The least number of beats that each name stands for, the longest first. -/
def names : List (Binary64 × String) :=
  [(.ofRat 3, "whole"), (.ofRat (mkRat 3 2), "half"), (.ofRat (mkRat 3 4), "quarter"),
    (.ofRat (mkRat 3 8), "eighth")]

/-- The first name whose least number of beats the length reaches. -/
def label (length : NoteLength) : String :=
  ((names.find? fun entry => !length.beats.less entry.1).map (·.2)).getD "sixteenth"

def distance (length : NoteLength) (time : Binary64) : Binary64 := (time - length.beats).abs

def nearer (time : Binary64) (first second : NoteLength) : NoteLength :=
  if (second.distance time).less (first.distance time) then second else first

/-- The length nearest to a time; a time that is not positive and finite gives a sixteenth. -/
def nearest (time : Binary64) : NoteLength :=
  if time.isFinite && (Binary64.zero false).less time then
    [half, quarter, eighth, sixteenth].foldl (nearer time) whole
  else sixteenth

/-- The length nearest to a time given as a number; what is no number gives a sixteenth. -/
def ofNumber : Option Number → Except Fault NoteLength
  | none => .ok sixteenth
  | some x => nearest <$> x.toBinary64

end NoteLength
end TrioScore
