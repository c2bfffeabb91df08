import TrioScore.Text.CodePoint

/-!
# Integers in texts

An integer is written in decimal digits, a minus in front of a negative one.
-/

namespace TrioScore

def integerChars : Int → List Char
  | .ofNat n => Nat.toDigits 10 n
  | .negSucc n => '-' :: Nat.toDigits 10 (n + 1)

namespace Text

def ofInt (n : Int) : Text := ofChars (integerChars n)

def ofNat (n : Nat) : Text := ofChars (Nat.toDigits 10 n)

end Text
end TrioScore
