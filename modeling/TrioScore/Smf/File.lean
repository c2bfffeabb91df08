import TrioScore.Smf.Message
import TrioScore.Score.Basic

/-!
# Scores as MIDI files

A score is written as a standard MIDI file of format 1: a header, a conductor track with tempo and
meter, and the three tracks of the score. The division is how many ticks a quarter beat has; starts
and lengths become ticks separately, each without its fraction.
-/

namespace TrioScore.Smf

def ticks (division : Int) (time : Binary64) : Except Fault Int :=
  (time * Binary64.ofRat division).truncate

def microseconds (tempo : Int) : Except Fault Int :=
  if tempo = 0 then .error .divisionByZero
  else (Binary64.ofRat ((60000000 : Rat) / (tempo : Rat))).truncate

/-- The exponent of the greatest power of two that is not above a denominator. -/
def denominatorPower (denominator : Int) : Int := denominator.natAbs.log2

def conductor (tempo : Int) (meter : Meter) : Except Fault (List Timed) := do
  return [⟨0, .tempo (← microseconds tempo)⟩,
    ⟨0, .timeSignature meter.numerator (denominatorPower meter.denominator)⟩]

def outsideLatin1 (c : CodePoint) : Bool := 256 ≤ c.value

/-- A name in Latin-1. The first gap is told in the fault. -/
def latin1 (name : Text) : Except Fault Bytes :=
  match name.gap? outsideLatin1 outsideLatin1 with
  | none => .ok (name.map fun c => UInt8.ofNat c.value)
  | some gap => .error (.outsideLatin1 gap)

def noteMessages (division channel : Int) (e : Event) (pitch : Int) :
    Except Fault (List Timed) := do
  let pitch ← (Number.int pitch).dataByte
  let velocity ← (Number.int e.velocity).dataByte
  let start ← ticks division e.start
  let duration ← ticks division e.duration
  return [⟨start, .noteOn channel pitch velocity⟩,
    ⟨start + duration, .noteOff channel pitch velocity⟩]

def eventMessages (division channel : Int) (e : Event) : Except Fault (List Timed) :=
  List.flatten <$> e.pitches.mapM (noteMessages division channel e)

def trackMessages (division : Int) (track : Track) : Except Fault (List Timed) := do
  let name ← latin1 track.name
  let events ← track.events.toList.mapM (eventMessages division track.channel)
  return ⟨0, .trackName name⟩ :: events.flatten

/-- The header: format 1, four tracks, and the division. -/
def header (division : Int) : Except Fault Bytes := do
  chunk [0x4D, 0x54, 0x68, 0x64] ([0, 1, 0, 4] ++ (← field 2 division))

/-- The file of a score. The division is looked at first, then every message is made, and the bytes
of messages come last. -/
def ofScore (division : Int) (score : Score) : Except Fault Bytes := do
  let header ← header division
  let conductor ← conductor score.tempo score.meter
  let tracks ← score.tracks.mapM (trackMessages division)
  let chunks ← (conductor :: tracks).mapM trackChunk
  return header ++ chunks.flatten

end TrioScore.Smf
