import TrioScore.Marking
import TrioScore.Number

/-!
# Pieces

The description of a short piece: a key, a tempo, a meter and a list of sections. Nothing in it is
checked; `Piece.repair` makes a description that can be rendered. Form, instrumentation, character
and reasoning are for readers only.
-/

namespace TrioScore

/-- A short melody: scale degrees, and their weights in time relative to one another. -/
structure Motif where
  degrees : List Int
  rhythm : List Binary64
deriving DecidableEq

structure Section where
  name : Text
  measures : Int
  progression : List Text
  motifs : List Motif
  dynamics : Text
  texture : Text
  cadence : Option Text
deriving DecidableEq

structure Piece where
  key : Text
  tempo : Int
  timeSignature : Text
  form : Text
  sections : List Section
  instrumentation : Text
  character : Text
  reasoning : Option Text
deriving DecidableEq

def Section.hasCadence (s : Section) : Bool := s.cadence.any fun mark => !mark.isEmpty

/-- The last section is closed as the key asks for, unless some section says how it closes. -/
def Piece.closeSections (key : Text) (sections : List Section) : List Section :=
  if sections.any Section.hasCadence then sections
  else
    match sections.getLast? with
    | none => []
    | some last => sections.dropLast ++ [{ last with cadence := some (Cadence.closing key) }]

end TrioScore
