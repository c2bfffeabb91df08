import TrioScore.Decimal.Numeral
import TrioScore.Meter
import TrioScore.Chord
import TrioScore.Piece.Document

/-!
# Repairing pieces

A piece that can be rendered is made of any document that is an object: every field is checked
against its range, and what is not usable is replaced by its default. A numeral in a text counts as
its number. The one other fault is a meter spelled with too many digits.
-/

namespace TrioScore

namespace Repair

/-- The finite number that a value is or spells, between blanks of any kind. -/
def number? : Json → Option Number
  | .text t => (Numeral.number? t.trim).filter Number.isFinite
  | value => value.finite?

/-- The number rounded to an integer, halves up, within a range. An integer is exact. -/
def clampRounded (low high : Int) : Number → Int
  | .int n => limit low high n
  | .real x =>
    match (Number.real x).nearestInt with
    | .ok n => limit low high n
    | .error _ => low

/-- A text without the blanks around it, unless nothing is left of it. -/
def text (default : Text) : Json → Text
  | .text t => if t.isBlank then default else t.trim
  | _ => default

def tempo (value : Json) : Int := ((number? value).map (clampRounded 40 220)).getD 90

/-- The meter that a value writes; what is no text is four quarters. -/
def meter : Json → Except Fault Meter
  | .text t => Meter.parse t
  | _ => .ok .common

def timeSignature (value : Json) : Except Fault Text := Meter.toText <$> meter value

def degree? (value : Json) : Option Int := do
  let q := (← value.finite?).toRat
  if q.den = 1 then some (limit (-20) 29 q.num) else none

/-- The weight that a value gives: a positive finite number, the greatest binary64 at most. -/
def weight (value : Json) : Binary64 :=
  match value.finite? with
  | none => .ofRat 1
  | some x =>
    if x.toRat ≤ 0 then .ofRat 1
    else if Binary64.greatest.toRat ≤ x.toRat then .greatest
    else .ofRat x.toRat

/-- The weights that belong to a list of degrees. A weight whose degree is dropped is dropped, and
there are no more weights than given. -/
def weights (degrees rhythm : List Json) : List Binary64 :=
  (degrees.zip rhythm).filterMap fun (d, r) => (degree? d).map fun _ => weight r

def items : Json → List Json
  | .array items => items
  | _ => []

def motif? : Json → Option Motif
  | .object fields =>
    let degrees := items (Json.field "degrees" fields)
    let usable := degrees.filterMap degree?
    if usable.isEmpty then none
    else some ⟨usable, weights degrees (items (Json.field "rhythm" fields))⟩
  | _ => none

def progression (value : Json) : List Text :=
  let symbols := (items value).filterMap fun
    | .text t => if t.isBlank then none else some t.trim
    | _ => none
  if symbols.isEmpty then Chord.defaultProgression else symbols

def motifs : Json → List Motif
  | .object fields => (items (Json.field "motifs" fields)).filterMap motif?
  | _ => []

def dynamics : Json → Text
  | .text t => if (Dynamics.velocity? t).isSome then t else Dynamics.standard
  | _ => Dynamics.standard

def cadence? : Json → Option Text
  | .text t => Cadence.mark? t
  | _ => none

def measures (value : Json) : Int := ((number? value).map (clampRounded 1 256)).getD 8

def defaultName (index : Nat) : Text := Text.ofString "Section " ++ Text.ofNat (index + 1)

def sectionAt (index : Nat) (fields : List (Text × Json)) : Section where
  name := text (defaultName index) (Json.field "name" fields)
  measures := measures (Json.field "measures" fields)
  progression := progression (Json.field "chordProgression" fields)
  motifs := motifs (Json.field "melody" fields)
  dynamics := dynamics (Json.field "dynamics" fields)
  texture := text "simple" (Json.field "texture" fields)
  cadence := cadence? (Json.field "cadence" fields)

def fields? : Json → Option (List (Text × Json))
  | .object fields => some fields
  | _ => none

def sections (value : Json) : List Section :=
  ((items value).filterMap fields?).mapIdx sectionAt

def defaultSection : Section where
  name := "A"
  measures := 8
  progression := Chord.defaultProgression
  motifs := [⟨[1, 3, 5, 3], List.replicate 4 (.ofRat 1)⟩]
  dynamics := Dynamics.standard
  texture := "simple"
  cadence := none

def lacksSections (value : Json) : Bool := (sections value).isEmpty

def text? : Json → Option Text
  | .text t => some t
  | _ => none

end Repair

/-- The piece that can be rendered, made of any object. -/
def Piece.repair : Json → Except Fault Piece
  | .object fields => do
    let key := Repair.text "C major" (Json.field "key" fields)
    let listed := Json.field "sections" fields
    let sections :=
      if Repair.lacksSections listed then [Repair.defaultSection] else Repair.sections listed
    let timeSignature ← Repair.timeSignature (Json.field "timeSignature" fields)
    return {
      key := key
      tempo := Repair.tempo (Json.field "tempo" fields)
      timeSignature := timeSignature
      form := Repair.text "free" (Json.field "form" fields)
      sections := Piece.closeSections key sections
      instrumentation := Repair.text [] (Json.field "instrumentation" fields)
      character := Repair.text [] (Json.field "character" fields)
      reasoning := Repair.text? (Json.field "reasoning" fields) }
  | value => .error (.notAnObject value.kind)

end TrioScore
