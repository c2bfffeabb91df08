import TrioScore.Mood.Commission
import TrioScore.Piece.Repair
import TrioScore.Score.Rendering
import TrioScore.Smf.File

/-!
# Delivery

A document is repaired, rendered and written as a MIDI file. If any of that fails, the emergency
phrase is delivered instead, at the tempo and in the meter that the document gives, with a warning.
Where the emergency phrase cannot be written either, the fault stands.
-/

namespace TrioScore

/-- A writer of files, which may fail at times: the contents at each of its calls, the first being
call zero. -/
abbrev Exporter := Nat → Score → Except Fault Bytes

namespace Exporter

def standard (division : Int) : Exporter := fun _ score => Smf.ofScore division score

def failing (calls : Nat) (fault : Fault) (exporter : Exporter) : Exporter := fun call score =>
  if call < calls then .error fault else exporter call score

/-- The ticks of a quarter beat, unless something else is asked for. -/
def standardDivision : Int := 960

end Exporter

structure Delivery where
  piece : Option Piece
  bytes : Bytes
  provider : Text
  isEmergency : Bool
  warnings : List Text
deriving DecidableEq

def Json.score (document : Json) : Except Fault (Piece × Score) := do
  let piece ← Piece.repair document
  let score ← Score.ofPiece piece
  return (piece, score)

def Piece.repairRecords : Json → List Log.Record
  | .object fields =>
    if Repair.lacksSections (Json.field "sections" fields) then
      [⟨.debug, Text.ofString "Structure has no usable sections; using the default section"⟩]
    else []
  | _ => []

namespace Delivery

def tempoAndMeter : Json → Except Fault (Int × Meter)
  | .object fields => do
    let written ← Repair.timeSignature (Json.field "timeSignature" fields)
    return (Repair.tempo (Json.field "tempo" fields), ← Meter.parse written)
  | _ => .ok (90, .common)

def failure (fault : Fault) : Log.Record :=
  ⟨.warning, Text.ofString "Render failed, using emergency output: " ++ fault.message⟩

def warning (fault : Fault) : Text :=
  Text.ofString "emergency fallback: " ++ fault.label ++ Text.ofString ": " ++ fault.message

/-- The emergency phrase for a document, written at a call. -/
def emergency (exporter : Exporter) (call : Nat) (provider : Text) (document : Json)
    (fault : Fault) : Except Fault Delivery := do
  let (tempo, meter) ← tempoAndMeter document
  let bytes ← exporter call (Score.emergency tempo meter)
  return ⟨none, bytes, provider, true, [warning fault]⟩

end Delivery

/-- The file of a document, or the emergency phrase, with the records left on the way. -/
def deliver (exporter : Exporter) (provider : Text) (document : Json) :
    List Log.Record × Except Fault Delivery :=
  let repaired := Piece.repairRecords document
  match document.score with
  | .error fault =>
    (repaired ++ [Delivery.failure fault],
      Delivery.emergency exporter 0 provider document fault)
  | .ok (piece, score) =>
    let rendered := repaired ++ [Score.record piece score]
    match exporter 0 score with
    | .ok bytes => (rendered, .ok ⟨some piece, bytes, provider, false, []⟩)
    | .error fault =>
      (rendered ++ [Delivery.failure fault],
        Delivery.emergency exporter 1 provider document fault)

def Delivery.completion (delivery : Delivery) : Log.Record :=
  ⟨.info, Text.ofString "Generated " ++ Text.ofNat delivery.bytes.length ++
    Text.ofString " MIDI bytes (provider=" ++ delivery.provider ++ Text.ofString ", emergency=" ++
    Text.ofString (if delivery.isEmergency then "True" else "False") ++ Text.ofString ")"⟩

def deliverCommissioned (exporter : Exporter) (commissioned : Commissioned) :
    List Log.Record × Except Fault Delivery :=
  match commissioned.result with
  | .error fault => (commissioned.records, .error fault)
  | .ok commission =>
    match deliver exporter commission.provider commission.document with
    | (records, .error fault) => (commissioned.records ++ records, .error fault)
    | (records, .ok delivery) =>
      (commissioned.records ++ records ++ [delivery.completion], .ok delivery)

end TrioScore
