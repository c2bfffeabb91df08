import TrioScore.Text.CodePoint

/-!
# Blanks

The blanks are the 25 code points with the Unicode property White_Space and the four information
separators U+001C to U+001F. Trimming takes blanks off both ends of a text. A numeral may stand
between white space, but not between separators.
-/

namespace TrioScore

/-- Closed ranges of the code points with the property White_Space, ascending. -/
def whiteRanges : List (Nat × Nat) :=
  [(0x09, 0x0D), (0x20, 0x20), (0x85, 0x85), (0xA0, 0xA0), (0x1680, 0x1680), (0x2000, 0x200A),
   (0x2028, 0x2029), (0x202F, 0x202F), (0x205F, 0x205F), (0x3000, 0x3000)]

namespace CodePoint

def isWhite (c : CodePoint) : Bool := whiteRanges.any fun r => r.1 ≤ c.value && c.value ≤ r.2

def isSeparator (c : CodePoint) : Bool := 0x1C ≤ c.value && c.value ≤ 0x1F

def isBlank (c : CodePoint) : Bool := c.isWhite || c.isSeparator

end CodePoint

namespace Text

/-- The text without the code points at either end that are of one kind. -/
def strip (kind : CodePoint → Bool) (t : Text) : Text :=
  ((t.dropWhile kind).reverse.dropWhile kind).reverse

def trimStart (t : Text) : Text := t.dropWhile CodePoint.isBlank

def trim (t : Text) : Text := t.strip CodePoint.isBlank

def isBlank (t : Text) : Bool := t.all CodePoint.isBlank

end Text
end TrioScore
