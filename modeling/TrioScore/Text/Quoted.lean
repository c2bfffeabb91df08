import TrioScore.Text.Printable

/-!
# Quoted text

A text between quotes, as messages show the name of a file. The quote is single unless the text
holds single quotes and no double one. A backslash stands before the quote and before itself, and
what does not show is written by its number.
-/

namespace TrioScore.Text

/-- The hexadecimal digits of `n`, in small letters, at least `width` of them. -/
def hexadecimal (width n : Nat) : Text :=
  let digits := Nat.toDigits 16 n
  (List.replicate (width - digits.length) '0' ++ digits).map CodePoint.ofChar

/-- A code point by its number, in the shortest of three forms. -/
def numbered (c : CodePoint) : Text :=
  if c.value < 0x100 then "\\x" ++ hexadecimal 2 c.value
  else if c.value < 0x10000 then "\\u" ++ hexadecimal 4 c.value
  else "\\U" ++ hexadecimal 8 c.value

def quotedPoint (quote c : CodePoint) : Text :=
  if c = quote ∨ c = .ofChar '\\' then [.ofChar '\\', c]
  else if c = .ofChar '\t' then "\\t"
  else if c = .ofChar '\n' then "\\n"
  else if c = .ofChar '\r' then "\\r"
  else if c.isPrintable then [c]
  else numbered c

def quoted (t : Text) : Text :=
  let single := CodePoint.ofChar '\''
  let double := CodePoint.ofChar '"'
  let quote := if t.contains [single] && !t.contains [double] then double else single
  quote :: t.flatMap (quotedPoint quote) ++ [quote]

end TrioScore.Text
