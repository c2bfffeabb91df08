import TrioScore.Fault
import TrioScore.Text.Capital

/-!
# Keys

A key is a tonic and a scale of offsets from it. Major and natural minor keys have names; a name
that is not in the table stands for C major. A degree counts scale steps upwards from 1, octave
after octave, in the octave above the tonic.
-/

namespace TrioScore

def octave : Int := 12

/-- A tonic and the offsets of the scale's steps from it. -/
structure Key where
  tonic : Int
  scale : List Int
deriving DecidableEq

namespace Key

def majorScale : List Int := [0, 2, 4, 5, 7, 9, 11]

def minorScale : List Int := [0, 2, 3, 5, 7, 8, 10]

def spellings : List (String × Int) :=
  [("C", 0), ("C#", 1), ("D", 2), ("D#", 3), ("E", 4), ("F", 5), ("F#", 6), ("G", 7), ("G#", 8),
   ("A", 9), ("A#", 10), ("B", 11), ("Db", 1), ("Eb", 3), ("Gb", 6), ("Ab", 8), ("Bb", 10)]

/-- The named keys: major ones with capital tonics, minor ones with small tonics. Their tonics lie
in the octave of middle C. -/
def table : List (Text × Key) :=
  spellings.flatMap fun (name, distance) =>
    [(Text.ofString name ++ Text.ofString " major", ⟨60 + distance, majorScale⟩),
     (Text.smalls name ++ Text.ofString " minor", ⟨60 + distance, minorScale⟩)]

def cMajor : Key := ⟨60, majorScale⟩

/-- The key of a name, C major if the name is not known. -/
def named (name : Text) : Key := (table.lookup name).getD cMajor

def isMinorName (name : Text) : Bool := name.smalls.contains (Text.ofString "minor")

def pitchClass (key : Key) : Int := key.tonic % octave

/-- The offset of a step of the scale, counted from zero and cyclically. -/
def offset (key : Key) (step : Int) : Int :=
  key.scale.getD (step % (key.scale.length : Int)).toNat 0

/-- The pitch of a degree in the octave above the tonic; degree 1 is the first step. Degrees beyond
the scale climb by octaves, and degrees below 1 descend. -/
def degreePitch (key : Key) (degree : Int) : Except Fault Int :=
  if key.scale.isEmpty then .error .emptyScale
  else .ok (key.tonic + octave + key.offset (degree - 1) +
    (degree - 1) / (key.scale.length : Int) * octave)

end Key
end TrioScore
