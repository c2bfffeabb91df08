/-!
# Text as code points

Piece descriptions come from documents whose texts may hold a surrogate that stands alone, which
no `Char` can be. `Text` is therefore a list of code points, surrogates included; a `String` is
read into it character by character.
-/

namespace TrioScore

/-- A Unicode code point, surrogates included. -/
structure CodePoint where
  value : Nat
  value_lt : value < 0x110000
deriving DecidableEq

namespace CodePoint

def ofChar (c : Char) : CodePoint :=
  ⟨c.toNat, by
    have h := c.valid
    simp only [UInt32.isValidChar, Nat.isValidChar] at h
    have e : c.val.toNat = c.toNat := rfl
    omega⟩

def toChar? (c : CodePoint) : Option Char :=
  if h : c.value.isValidChar then some (Char.ofNatAux c.value h) else none

def isHighSurrogate (c : CodePoint) : Bool := 0xD800 ≤ c.value && c.value < 0xDC00

def isLowSurrogate (c : CodePoint) : Bool := 0xDC00 ≤ c.value && c.value < 0xE000

end CodePoint

abbrev Text := List CodePoint

namespace Text

def ofChars (chars : List Char) : Text := chars.map CodePoint.ofChar

def ofString (s : String) : Text := ofChars s.toList

instance : Coe String Text := ⟨ofString⟩

/-- The text as a string, with U+FFFD in place of each surrogate. -/
def toString (t : Text) : String :=
  String.ofList (t.map fun c => c.toChar?.getD '\uFFFD')

/-- The texts joined, with `separator` between neighbours. -/
def join (separator : Text) : List Text → Text
  | [] => []
  | [t] => t
  | t :: ts => t ++ separator ++ join separator ts

def contains : Text → Text → Bool
  | [], word => word.isEmpty
  | c :: t, word => word.isPrefixOf (c :: t) || contains t word

end Text
end TrioScore
