import TrioScore.Text.CodePoint

/-!
# Gaps of an encoding

An encoding may have no bytes for some code points. Where a text holds such, the first run of them
is told.
-/

namespace TrioScore

/-- A run of code points that an encoding has no bytes for: the places of its first and its last
code point, and the first one itself. -/
structure Gap where
  first : Nat
  last : Nat
  code : CodePoint
deriving DecidableEq

namespace Text

/-- The first gap of a text. It begins with a code point that is `refused` and goes on over those
that are `further`. -/
def gap? (refused further : CodePoint → Bool) (t : Text) : Option Gap :=
  let before := t.takeWhile fun c => !refused c
  match t.drop before.length with
  | [] => none
  | c :: rest => some ⟨before.length, before.length + (rest.takeWhile further).length, c⟩

end Text
end TrioScore
