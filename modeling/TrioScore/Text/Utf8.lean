import TrioScore.Text.Encoding

/-!
# Texts in UTF-8

What leaves the program as text is UTF-8, which has no bytes for surrogates. The name of a file is
any bytes without zero: a byte that is no part of UTF-8 is carried by the surrogate that is 0xDC00
above it, and only the other surrogates are refused in a name.
-/

namespace TrioScore

namespace CodePoint

def isSurrogate (c : CodePoint) : Bool := c.isHighSurrogate || c.isLowSurrogate

/-- A surrogate that carries a byte, 0x80 or above. -/
def carriesByte (c : CodePoint) : Bool := 0xDC80 ≤ c.value && c.value ≤ 0xDCFF

def ofByte (b : UInt8) : CodePoint :=
  ⟨0xDC00 + b.toNat, by have := b.toNat_lt; omega⟩

def utf8 (c : CodePoint) : List UInt8 :=
  if c.carriesByte then [UInt8.ofNat (c.value - 0xDC00)]
  else
    match c.toChar? with
    | some char => String.utf8EncodeChar char
    | none => []

end CodePoint

namespace Text

def utf8 (t : Text) : List UInt8 := t.flatMap CodePoint.utf8

/-- The text of the bytes behind the first `skip` ones. -/
def ofUtf8Behind : Nat → List UInt8 → Text
  | _, [] => []
  | skip + 1, _ :: bytes => ofUtf8Behind skip bytes
  | 0, b :: bytes =>
    match (b :: bytes.take 3).toByteArray.utf8DecodeChar? 0 with
    | some c => .ofChar c :: ofUtf8Behind (c.utf8Size - 1) bytes
    | none => .ofByte b :: ofUtf8Behind 0 bytes

def ofUtf8 (bytes : List UInt8) : Text := ofUtf8Behind 0 bytes

/-- A name as it is found again: carried bytes that make up a character become that character. -/
def asFound (t : Text) : Text := ofUtf8 t.utf8

def printGap? (t : Text) : Option Gap := t.gap? CodePoint.isSurrogate CodePoint.isSurrogate

def nameGap? (t : Text) : Option Gap :=
  t.gap? (fun c => c.isSurrogate && !c.carriesByte) CodePoint.isSurrogate

end Text
end TrioScore
