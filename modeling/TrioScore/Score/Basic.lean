import TrioScore.Meter
import TrioScore.NoteLength

/-!
# Scores

A score has three tracks: melody, harmony and bass. A track takes notes one after another; each
becomes an event at the cursor, which moves on by the length of the note, in binary64.
-/

namespace TrioScore

structure Note where
  pitches : List Int
  beats : Binary64
  velocity : Int
deriving DecidableEq

/-- A note with its place on a track, in quarter beats from the start of the piece. -/
structure Event where
  pitches : List Int
  start : Binary64
  duration : Binary64
  velocity : Int
deriving DecidableEq

def Event.label (e : Event) : String := (NoteLength.nearest e.duration).label

/-- A line of events and the place where the next will start. -/
structure Track where
  name : Text
  channel : Int
  events : Array Event
  cursor : Binary64
deriving DecidableEq

namespace Track

def empty (name : Text) (channel : Int) : Track := ⟨name, channel, #[], .ofRat 0⟩

/-- The event that a note becomes on the track. -/
def place (track : Track) (note : Note) : Event :=
  ⟨note.pitches, track.cursor, note.beats, note.velocity⟩

def append (track : Track) (note : Note) : Track :=
  let event := track.place note
  { track with events := track.events.push event, cursor := track.cursor + note.beats }

def appendAll (track : Track) (notes : List Note) : Track := notes.foldl append track

@[simp] theorem appendAll_nil (track : Track) : track.appendAll [] = track := rfl

@[simp] theorem appendAll_cons (track : Track) (note : Note) (notes : List Note) :
    track.appendAll (note :: notes) = (track.append note).appendAll notes := rfl

theorem appendAll_append (track : Track) (notes more : List Note) :
    track.appendAll (notes ++ more) = (track.appendAll notes).appendAll more := by
  simp [appendAll, List.foldl_append]

@[simp] theorem size_events_append (track : Track) (note : Note) :
    (track.append note).events.size = track.events.size + 1 := by simp [append]

theorem size_events_appendAll (track : Track) (notes : List Note) :
    (track.appendAll notes).events.size = track.events.size + notes.length := by
  induction notes generalizing track with
  | nil => simp
  | cons note notes ih =>
    simp only [appendAll_cons, ih, size_events_append, List.length_cons]
    omega

end Track

structure Score where
  tempo : Int
  meter : Meter
  melody : Track
  harmony : Track
  bass : Track
deriving DecidableEq

namespace Score

def empty (tempo : Int) (meter : Meter) : Score :=
  ⟨tempo, meter, .empty "Melody" 0, .empty "Harmony" 1, .empty "Bass" 2⟩

/-- The tracks in the order of a file. -/
def tracks (score : Score) : List Track := [score.melody, score.harmony, score.bass]

theorem forall_mem_tracks {score : Score} {P : Track → Prop} :
    (∀ track ∈ score.tracks, P track) ↔ P score.melody ∧ P score.harmony ∧ P score.bass := by
  simp [tracks]

end Score

structure Parts where
  melody : List Note
  harmony : List Note
  bass : List Note
deriving DecidableEq

def Score.appendParts (score : Score) (parts : Parts) : Score :=
  { score with
    melody := score.melody.appendAll parts.melody
    harmony := score.harmony.appendAll parts.harmony
    bass := score.bass.appendAll parts.bass }

end TrioScore
