import TrioScore.Key

/-!
# Chords

A chord symbol is a Roman numeral, capital for a major third and small for a minor one. Its three
intervals over the tonic are folded onto the scale of a key: half an interval, rounded down, is the
step of the scale, and every twelve semitones of it are an octave.
-/

namespace TrioScore.Chord

def table : List (String × List Int) :=
  [("i", [0, 3, 7]), ("I", [0, 4, 7]), ("ii", [2, 5, 9]), ("II", [2, 6, 9]), ("iii", [4, 7, 11]),
   ("III", [4, 8, 11]), ("iv", [5, 8, 12]), ("IV", [5, 9, 12]), ("v", [7, 10, 14]),
   ("V", [7, 11, 14]), ("vi", [9, 12, 16]), ("VI", [9, 13, 16]), ("vii", [11, 14, 17]),
   ("VII", [11, 15, 17])]

/-- The intervals of a symbol; an unknown symbol has those of the tonic's major chord. -/
def intervals (symbol : Text) : List Int :=
  match table.find? fun entry => Text.ofString entry.1 = symbol with
  | some entry => entry.2
  | none => [0, 4, 7]

def pitch (key : Key) (register interval : Int) : Int :=
  register + key.pitchClass + key.offset (interval / 2) + interval / octave * octave

def pitches (symbol : Text) (key : Key) (register : Int) : Except Fault (List Int) :=
  if key.scale.isEmpty then .error .emptyScale
  else .ok ((intervals symbol).map (pitch key register))

def defaultProgression : List Text := ["I", "IV", "V", "I"]

end TrioScore.Chord
