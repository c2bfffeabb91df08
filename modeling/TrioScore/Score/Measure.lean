import TrioScore.Chord
import TrioScore.Piece.Basic
import TrioScore.Score.Basic

/-!
# Measures

A measure of a section, in quarter pulses. The harmony repeats the measure's chord on every pulse,
the bass plays its root, and the melody plays the motif of the measure with its weights scaled to
the length of the measure; when the motif runs out first, softer notes on the tonic fill the rest.
Chords and motifs come round in turn.

The time left in a measure is counted in sixteenths. Each note of the melody is of the length
nearest to its share, so the last one may run over the end.
-/

namespace TrioScore.Measure

/-- How loud a voice is played, against the dynamics of the section. -/
def scaleVelocity (velocity : Int) (share : Rat) : Int :=
  (Binary64.ofRat velocity * Binary64.ofRat share).toRat.floor

/-- The item of a list at an index that goes round. -/
def cycle? {α : Type} (items : List α) (index : Int) : Option α :=
  items[(index % (items.length : Int)).toNat]?

def chordSymbol (s : Section) (measure : Int) : Text :=
  let progression := if s.progression.isEmpty then Chord.defaultProgression else s.progression
  (cycle? progression measure).getD "I"

def motif? (s : Section) (measure : Int) : Option Motif := cycle? s.motifs measure

/-- The weight that counts: a missing one, or one that is not positive and finite, counts as 1. -/
def usableWeight : Option Binary64 → Binary64
  | some x => if x.isFinite && (Binary64.zero false).less x then x else .ofRat 1
  | none => .ofRat 1

def weights (motif : Motif) : List Binary64 :=
  motif.degrees.mapIdx fun i _ => usableWeight motif.rhythm[i]?

def sixteenthBeats (sixteenths : Int) : Binary64 := .ofRat (mkRat sixteenths 4)

/-- The length of a note whose share is a time, where no more than `remaining` is left. -/
def fitLength (remaining : Int) (share : Binary64) : NoteLength :=
  let left := sixteenthBeats remaining
  .nearest (if share.less left then share else left)

/-- The lengths of notes of given shares while time remains, and the time that is left. -/
def fitLengths (remaining : Int) : List Binary64 → List NoteLength × Int
  | [] => ([], remaining)
  | share :: shares =>
    if remaining ≤ 0 then ([], remaining)
    else
      let length := fitLength remaining share
      let (lengths, left) := fitLengths (remaining - length.sixteenths) shares
      (length :: lengths, left)

/-- The lengths of notes that fill what remains. -/
def fillLengths (remaining : Int) : List NoteLength :=
  if remaining ≤ 0 then []
  else
    let length := NoteLength.nearest (sixteenthBeats remaining)
    length :: fillLengths (remaining - length.sixteenths)
termination_by remaining.toNat
decreasing_by
  have := (NoteLength.nearest (sixteenthBeats remaining)).sixteenths_pos
  omega

def sustainPitch (key : Key) : Int := key.tonic + octave

def single (pitch : Int) (beats : Binary64) (velocity : Int) : Note := ⟨[pitch], beats, velocity⟩

def motifNotes (key : Key) (pulses : Int) (motif : Motif) (velocity : Int) :
    Except Fault (List Note) := do
  let weights := weights motif
  let total := weights.foldl (· + ·) (.ofRat 0)
  let scale := Binary64.ofRat pulses / total
  let (lengths, left) := fitLengths (4 * pulses) (weights.map (· * scale))
  let placed ← (motif.degrees.zip lengths).mapM fun (degree, length) =>
    return single (← key.degreePitch degree) length.beats velocity
  let sustained := (fillLengths left).map fun length =>
    single (sustainPitch key) length.beats (scaleVelocity velocity (mkRat 45 100))
  return placed ++ sustained

/-- The melody of a measure without a motif: the tonic on every pulse. -/
def pulseNotes (key : Key) (pulses : Int) (velocity : Int) : List Note :=
  List.replicate pulses.toNat
    (single (sustainPitch key) NoteLength.quarter.beats (scaleVelocity velocity (mkRat 55 100)))

def melodyNotes (key : Key) (pulses : Int) (motif : Option Motif) (velocity : Int) :
    Except Fault (List Note) :=
  match motif with
  | none => .ok (pulseNotes key pulses velocity)
  | some motif =>
    if motif.degrees.isEmpty then .ok (pulseNotes key pulses velocity)
    else motifNotes key pulses motif velocity

/-- The bass of a measure: two half notes when four pulses fit in, else a note on every pulse. -/
def bassNotes (root : Int) (pulses : Int) (velocity : Int) : List Note :=
  if 4 ≤ pulses then List.replicate 2 (single root NoteLength.half.beats velocity)
  else List.replicate pulses.toNat (single root NoteLength.quarter.beats velocity)

def harmonyNotes (chord : List Int) (pulses : Int) (velocity : Int) : List Note :=
  List.replicate pulses.toNat ⟨chord, NoteLength.quarter.beats, velocity⟩

def harmonyRegister : Int := 60

def bassRegister : Int := 36

def parts (key : Key) (pulses : Int) (s : Section) (measure : Int) : Except Fault Parts := do
  let velocity := Dynamics.velocity s.dynamics
  let symbol := chordSymbol s measure
  let chord ← Chord.pitches symbol key harmonyRegister
  let low ← Chord.pitches symbol key bassRegister
  let root := low.headD (key.tonic - octave)
  let melody ← melodyNotes key pulses (motif? s measure) velocity
  return {
    melody := melody
    harmony := harmonyNotes chord pulses (scaleVelocity velocity (mkRat 62 100))
    bass := bassNotes root pulses (scaleVelocity velocity (mkRat 72 100)) }

end TrioScore.Measure

namespace TrioScore.Score

def appendMeasure (score : Score) (key : Key) (pulses : Int) (s : Section) (measure : Int) :
    Except Fault Score :=
  score.appendParts <$> Measure.parts key pulses s measure

end TrioScore.Score
