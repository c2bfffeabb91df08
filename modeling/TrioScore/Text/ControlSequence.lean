import TrioScore.Text.CodePoint

/-!
# Control sequences

A control sequence steers a terminal: an escape, a left bracket, parameters, intermediates, and a
final. Each of the three kinds is a range of the ASCII code points; only the final must be there.
A plain text has no control sequences. An escape that begins none stays.
-/

namespace TrioScore

namespace CodePoint

def escape : CodePoint := ⟨0x1B, by decide⟩

/-- A parameter of a control sequence: a digit or one of `:;<=>?`. -/
def isParameter (c : CodePoint) : Bool := 0x30 ≤ c.value && c.value ≤ 0x3F

/-- An intermediate of a control sequence: from the space to the stroke. -/
def isIntermediate (c : CodePoint) : Bool := 0x20 ≤ c.value && c.value ≤ 0x2F

def isFinal (c : CodePoint) : Bool := 0x40 ≤ c.value && c.value ≤ 0x7E

end CodePoint

namespace Text

/-- How long the control sequence at the start of a text is; zero if there is none. -/
def sequenceLength : Text → Nat
  | first :: second :: t =>
    if first = CodePoint.escape ∧ second = .ofChar '[' then
      let parameters := t.takeWhile CodePoint.isParameter
      let rest := t.drop parameters.length
      let intermediates := rest.takeWhile CodePoint.isIntermediate
      match rest.drop intermediates.length with
      | c :: _ => if c.isFinal then parameters.length + intermediates.length + 3 else 0
      | [] => 0
    else 0
  | _ => 0

/-- The text behind its first `skip` code points, without control sequences. -/
def plainBehind : Nat → Text → Text
  | _, [] => []
  | skip + 1, _ :: t => plainBehind skip t
  | 0, c :: t =>
    match sequenceLength (c :: t) with
    | 0 => c :: plainBehind 0 t
    | length + 1 => plainBehind length t

def plain (t : Text) : Text := plainBehind 0 t

end Text
end TrioScore
