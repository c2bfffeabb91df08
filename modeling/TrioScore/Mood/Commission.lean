import TrioScore.Json.Literal
import TrioScore.Log
import TrioScore.Mood.Basic
import TrioScore.Piece.Document

/-!
# Commissions

A piece may be ordered from an outside composer, who gets the reading and all hints. An answer is
accepted as it is when it is an object with a key, a tempo and sections that can be counted. If the
composer fails, or the answer is refused, the piece is composed by rule instead.
-/

namespace TrioScore

/-- An outside composer: a value for the named arguments of an order, or a failure. -/
abbrev Composer := List (Text × Json) → Except Fault Json

inductive Commission where
  | external (answer : Json)
  | ruleBased (piece : Piece)

namespace Commission

def provider : Commission → Text
  | external _ => "external"
  | ruleBased _ => "rule-based"

def document : Commission → Json
  | external answer => answer
  | ruleBased piece => piece.toJson

def requiredFields : List Text := ["key", "tempo", "sections"]

def isComplete (fields : List (Text × Json)) : Bool :=
  requiredFields.all fun name => (Json.field name fields).isTruthy

/-- The fields of an answer that can be accepted, and how many sections they give. -/
def accept : Json → Except Fault (List (Text × Json) × Nat)
  | .object fields =>
    if isComplete fields then (fields, ·) <$> (Json.field "sections" fields).length
    else .error .incompletePiece
  | _ => .error .incompletePiece

def arguments (valence arousal focus : Json) (hints : List (Text × Json)) : List (Text × Json) :=
  [(Text.ofString "valence", valence), (Text.ofString "arousal", arousal),
   (Text.ofString "focus", focus)] ++ hints

def heeded (hints : List (Text × Json)) : Hints :=
  ⟨Json.field "instrumentation" hints, Json.field "primary_genre" hints⟩

/-- What is told of an accepted answer, if its key and its tempo can be shown. -/
def acceptance (fields : List (Text × Json)) (sections : Nat) : List Log.Record :=
  match (Json.field "key" fields).shown?, (Json.field "tempo" fields).shown? with
  | some key, some tempo => [⟨.info, Text.ofString "External composer: key=" ++ key ++
      Text.ofString " tempo=" ++ tempo ++ Text.ofString " sections=" ++ Text.ofNat sections⟩]
  | _, _ => []

def refusal (fault : Fault) : Log.Record :=
  ⟨.warning, Text.ofString "Falling back to rule-based composition: " ++ fault.message⟩

end Commission

/-- What an order leaves behind: the arguments of each call of the composer, and the records. -/
structure Notes where
  calls : List (List (Text × Json))
  records : List Log.Record

/-- What may fail, with the notes so far. -/
abbrev Noted (α : Type) := ExceptT Fault (StateM Notes) α

def record (records : List Log.Record) : Noted Unit :=
  modify fun notes => { notes with records := notes.records ++ records }

def Composer.call (composer : Composer) (arguments : List (Text × Json)) : Noted Json := do
  modify fun notes => { notes with calls := notes.calls ++ [arguments] }
  MonadExcept.ofExcept (composer arguments)

namespace Commission

def attempt (composer : Composer) (arguments : List (Text × Json)) : Noted Commission := do
  let answer ← composer.call arguments
  let (fields, sections) ← MonadExcept.ofExcept (accept answer)
  record (acceptance fields sections)
  return .external answer

/-- An order from an outside composer, if there is one, or else by rule. -/
def order (composer : Option Composer) (valence arousal focus : Json)
    (hints : List (Text × Json)) : Noted Commission :=
  let byRule := MonadExcept.ofExcept
    (ruleBased <$> pieceOfReading valence arousal focus (heeded hints))
  match composer with
  | none => byRule
  | some composer =>
    tryCatch (attempt composer (arguments valence arousal focus hints)) fun fault => do
      record [refusal fault]
      byRule

end Commission

structure Commissioned extends Notes where
  result : Except Fault Commission

def commission (composer : Option Composer) (valence arousal focus : Json)
    (hints : List (Text × Json)) : Commissioned :=
  let (result, notes) := (Commission.order composer valence arousal focus hints).run.run ⟨[], []⟩
  ⟨notes, result⟩

end TrioScore
