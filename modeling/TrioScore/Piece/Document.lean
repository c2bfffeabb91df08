import TrioScore.Json.Basic
import TrioScore.Piece.Basic

/-!
# Pieces as documents

The fields of a piece and their order in a document. A cadence or a reasoning that is not there
has no field.
-/

namespace TrioScore

def Json.ofTexts (texts : List Text) : Json := .array (texts.map .text)

/-- A field that is there only with a value. -/
def Json.optionalField (name : Text) : Option Text → List (Text × Json)
  | none => []
  | some t => [(name, .text t)]

def Motif.toJson (m : Motif) : Json :=
  .object [("degrees", .array (m.degrees.map .ofInt)),
    ("rhythm", .array (m.rhythm.map .ofBinary64))]

def Section.fields (s : Section) : List (Text × Json) :=
  [("name", .text s.name),
   ("measures", .ofInt s.measures),
   ("chordProgression", .ofTexts s.progression),
   ("melody", .object [("motifs", .array (s.motifs.map Motif.toJson))]),
   ("dynamics", .text s.dynamics),
   ("texture", .text s.texture)]

def Section.toJson (s : Section) : Json :=
  .object (s.fields ++ Json.optionalField "cadence" s.cadence)

def Piece.fields (p : Piece) : List (Text × Json) :=
  [("key", .text p.key),
   ("tempo", .ofInt p.tempo),
   ("timeSignature", .text p.timeSignature),
   ("form", .text p.form),
   ("sections", .array (p.sections.map Section.toJson)),
   ("instrumentation", .text p.instrumentation),
   ("character", .text p.character)]

def Piece.toJson (p : Piece) : Json :=
  .object (p.fields ++ Json.optionalField "reasoning" p.reasoning)

end TrioScore
