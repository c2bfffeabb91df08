import TrioScore.Decimal.Shortest

/-!
# Layouts of decimals

How the digits of a decimal are laid out: with a point among them while the exponent is moderate,
else as one digit, a point, the others, and an exponent of at least two digits with its sign. Zeros
at the end are dropped.
-/

namespace TrioScore

structure Layout where
  /-- The least exponent that is not written by digits in their places. -/
  positionalBelow : Int
  /-- Whether an integer is marked by a point and a zero. -/
  pointZero : Bool

namespace Layout

/-- Numbers of documents: written out below ten to the sixteenth, never without a point. -/
def document : Layout := ⟨16, true⟩

def brief : Layout := ⟨6, false⟩

def exponentChars (e : Int) : List Char :=
  let digits := Nat.toDigits 10 e.natAbs
  'e' :: (if e < 0 then '-' else '+') :: (List.replicate (2 - digits.length) '0' ++ digits)

def fractionChars (layout : Layout) : List Char → List Char
  | [] => if layout.pointZero then ['.', '0'] else []
  | digits => '.' :: digits

def chars (layout : Layout) (d : Decimal) : List Char :=
  let all := if d.coefficient = 0 then ['0'] else d.digits
  let kept := ((all.drop 1).reverse.dropWhile (· = '0')).reverse
  let digits := all.take 1 ++ kept
  let e : Int := if d.coefficient = 0 then 0 else (all.length : Int) - 1 + d.exponent
  if -4 ≤ e ∧ e < layout.positionalBelow then
    if e < 0 then '0' :: '.' :: (List.replicate (-e - 1).toNat '0' ++ digits)
    else
      let whole := (e + 1).toNat
      (digits ++ List.replicate (whole - digits.length) '0').take whole ++
        layout.fractionChars (digits.drop whole)
  else
    digits.take 1 ++ (if kept.isEmpty then [] else '.' :: kept) ++ exponentChars e

def signChars (negative : Bool) : List Char := if negative then ['-'] else []

end Layout

namespace Binary64

/-- The number in the fewest digits that read back, as documents have it; the words for infinity
and NaN are given. -/
def documentChars (infinityWord nanWord : String) : Binary64 → List Char
  | nan => nanWord.toList
  | infinity negative => Layout.signChars negative ++ infinityWord.toList
  | finite negative rank =>
    Layout.signChars negative ++ Layout.document.chars (Decimal.shortest rank)

def briefChars : Binary64 → List Char
  | nan => "nan".toList
  | infinity negative => Layout.signChars negative ++ "inf".toList
  | finite negative rank =>
    Layout.signChars negative ++ Layout.brief.chars (Decimal.nearest 6 (magnitude rank))

/-- The number with two places after the point, the exact value rounded with ties to even. -/
def twoPlaces : Binary64 → List Char
  | nan => "nan".toList
  | infinity negative => Layout.signChars negative ++ "inf".toList
  | finite negative rank =>
    let q := magnitude rank * 100
    let hundredths := roundQuotient q.num.toNat q.den
    Layout.signChars negative ++ Nat.toDigits 10 (hundredths / 100) ++
      ['.', Nat.digitChar (hundredths / 10 % 10), Nat.digitChar (hundredths % 10)]

end Binary64

end TrioScore
