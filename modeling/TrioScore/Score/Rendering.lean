import TrioScore.Log
import TrioScore.Score.Measure

/-!
# Rendering pieces

The score of a piece is made measure by measure, section by section. The emergency score is a fixed
phrase of two measures, which depends on a tempo and a meter only.
-/

namespace TrioScore

/-- The measures of a section, counted from zero. -/
def Section.measureIndices (s : Section) : List Int :=
  (List.range s.measures.toNat).map Int.ofNat

namespace Score

def appendSection (key : Key) (pulses : Int) (score : Score) (s : Section) : Except Fault Score :=
  s.measureIndices.foldlM (fun score measure => score.appendMeasure key pulses s measure) score

def ofPiece (piece : Piece) : Except Fault Score := do
  let meter ← Meter.parse piece.timeSignature
  let pulses ← Meter.pulses (.real meter.quarterBeats)
  piece.sections.foldlM (appendSection (Key.named piece.key) pulses) (empty piece.tempo meter)

def record (piece : Piece) (score : Score) : Log.Record :=
  ⟨.debug, Text.ofString "Rendered " ++ Text.ofNat piece.sections.length ++
    Text.ofString " section(s): " ++ Text.ofNat score.melody.events.size ++
    Text.ofString " melody / " ++ Text.ofNat score.harmony.events.size ++
    Text.ofString " harmony / " ++ Text.ofNat score.bass.events.size ++
    Text.ofString " bass events"⟩

/-- The measures of the emergency phrase: melody, chord and bass. -/
def emergencyMeasures : List (List Int × List Int × Int) :=
  [([72, 76, 79, 76], [60, 64, 67], 48), ([79, 77, 74, 72], [55, 59, 62], 43)]

def emergencyParts (meter : Meter) : Parts where
  melody := emergencyMeasures.flatMap fun (melody, _, _) =>
    melody.map fun pitch => ⟨[pitch], meter.quarterBeats / .ofRat 4, 80⟩
  harmony := emergencyMeasures.map fun (_, chord, _) => ⟨chord, meter.quarterBeats, 56⟩
  bass := emergencyMeasures.map fun (_, _, bass) => ⟨[bass], meter.quarterBeats, 64⟩

def emergency (tempo : Int) (meter : Meter) : Score :=
  (empty tempo meter).appendParts (emergencyParts meter)

end Score
end TrioScore
