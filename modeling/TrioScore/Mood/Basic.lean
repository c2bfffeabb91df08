import TrioScore.Json.Basic
import TrioScore.Decimal.Layout
import TrioScore.Chord
import TrioScore.Piece.Basic
import TrioScore.Text.Integer

/-!
# Composing by mood

A mood is a reading of valence (-1 to 1), arousal (0 to 1) and focus (0 to 1). From it a piece is
composed by rule: a negative valence gives D minor and a falling motif, else C major and an arch;
arousal gives the tempo and the dynamics; focus the meter and the form.
-/

namespace TrioScore

structure Mood where
  valence : Binary64
  arousal : Binary64
  focus : Binary64
deriving DecidableEq

namespace Mood

/-- A parameter of a reading within its range; what is no finite number gives the default. -/
def parameter (low high default : Binary64) (value : Json) : Except Fault Binary64 :=
  match value.quantity? with
  | none => .ok default
  | some x => do
    if ← x.checkFinite then
      return Binary64.clamp low high (← x.toBinary64)
    return default

def ofValues (valence arousal focus : Json) : Except Fault Mood := do
  let half := Binary64.half
  let valence ← parameter (.ofRat (-1)) (.ofRat 1) (.ofRat 0) valence
  let arousal ← parameter (.ofRat 0) (.ofRat 1) half arousal
  let focus ← parameter (.ofRat 0) (.ofRat 1) half focus
  return { valence, arousal, focus }

def isMinor (mood : Mood) : Bool := mood.valence.less (.ofRat 0)

def key (mood : Mood) : Text := if mood.isMinor then "d minor" else "C major"

/-- The tempo of the mood, 60 to 140. -/
def tempo (mood : Mood) : Except Fault Int :=
  (Number.real (.ofRat 60 + mood.arousal * .ofRat 80)).nearestInt

def timeSignature (mood : Mood) : Text :=
  if (Binary64.ofRat (mkRat 6 10)).less mood.focus then "4/4" else "3/4"

def hasReprise (mood : Mood) : Bool := Binary64.half.less mood.focus

def form (mood : Mood) : Text := if mood.hasReprise then "ABA" else "theme-variation"

def dynamics (mood : Mood) : Text :=
  if mood.arousal.less (.ofRat (mkRat 3 10)) then "p"
  else if (Binary64.ofRat (mkRat 7 10)).less mood.arousal then "f"
  else "mf"

def opening (mood : Mood) : Section where
  name := "A"
  measures := 8
  progression := if mood.isMinor then ["i", "iv", "V", "i"] else ["I", "IV", "V", "I"]
  motifs :=
    [⟨if mood.isMinor then [5, 4, 3, 2, 1] else [1, 3, 5, 3, 1],
      [.ofRat 1, .ofRat 1, .ofRat 1, .ofRat 1, .ofRat 2]⟩]
  dynamics := mood.dynamics
  texture := "simple"
  cadence := some "HC"

def contrast (mood : Mood) : Section where
  name := "B"
  measures := 8
  progression := if mood.isMinor then ["VI", "iv", "V", "i"] else ["vi", "IV", "I", "V"]
  motifs := [⟨[3, 5, 6, 5, 3], [.half, .half, .ofRat 1, .ofRat 1, .ofRat 2]⟩]
  dynamics := mood.dynamics
  texture := "simple"
  cadence := some (Cadence.closing mood.key)

def reprise (mood : Mood) : Section :=
  { mood.opening with name := "A (reprise)", cadence := some (Cadence.closing mood.key) }

def sections (mood : Mood) : List Section :=
  [mood.opening, mood.contrast] ++ if mood.hasReprise then [mood.reprise] else []

def character (mood : Mood) : Text :=
  Text.ofString (if mood.isMinor then "melancholic" else "uplifting") ++ Text.ofString " and " ++
    Text.ofString (if mood.arousal.less .half then "calm" else "energetic")

def parameterText (x : Binary64) : Text := Text.ofChars x.twoPlaces

def reasoning (mood : Mood) (tempo : Int) : Text :=
  Text.ofString "Rule-based: valence " ++ parameterText mood.valence ++ Text.ofString " -> " ++
    mood.key ++ Text.ofString ", arousal " ++ parameterText mood.arousal ++
    Text.ofString " -> " ++ Text.ofInt tempo ++ Text.ofString " BPM " ++
    mood.dynamics ++ Text.ofString ", focus " ++ parameterText mood.focus ++
    Text.ofString " -> " ++ mood.timeSignature ++ Text.ofString " " ++ mood.form

def piece (mood : Mood) (instrumentation : Text) : Except Fault Piece := do
  let tempo ← mood.tempo
  return {
    key := mood.key
    tempo := tempo
    timeSignature := mood.timeSignature
    form := mood.form
    sections := mood.sections
    instrumentation := instrumentation
    character := mood.character
    reasoning := some (mood.reasoning tempo) }

end Mood

/-- Wishes about the instruments and the genre. -/
structure Hints where
  instrumentation : Json
  genre : Json

namespace Hints

def empty : Hints := ⟨.null, .null⟩

def textsFrom (index : Nat) : List Json → Except Fault (List Text)
  | [] => .ok []
  | .text t :: rest => (t :: ·) <$> textsFrom (index + 1) rest
  | value :: _ => .error (.hintNotText index value.kind)

/-- The texts that a hint about instruments lists: a text lists its code points, an object the
names of its fields. -/
def texts : Json → Except Fault (List Text)
  | .text t => .ok (t.map fun c => [c])
  | .array items => textsFrom 0 items
  | .object fields => .ok (fields.map (·.1))
  | _ => .error .hintsNotIterable

/-- The instruments wished for, or a piano. -/
def instruments (hints : Hints) : Except Fault Text :=
  if hints.instrumentation.isTruthy then Text.join ", " <$> texts hints.instrumentation
  else
    match hints.genre with
    | .text t => .ok (if t = Text.ofString "jazz" then "piano (jazz-influenced)" else "piano")
    | _ => .ok "piano"

end Hints

def pieceOfReading (valence arousal focus : Json) (hints : Hints) : Except Fault Piece := do
  let mood ← Mood.ofValues valence arousal focus
  mood.piece (← hints.instruments)

end TrioScore
