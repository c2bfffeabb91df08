import TrioScore.Fault

/-!
# Fields of a MIDI file

Numbers of a fixed width are written with their most significant byte first, and refused when they
do not fit. Times between events are quantities of variable length: seven bits to a byte, the top
bit set on all bytes but the last. A negative quantity has no bytes.
-/

namespace TrioScore

abbrev Bytes := List UInt8

namespace Smf

/-- A number in `width` bytes, the most significant first; higher digits are dropped. -/
def bigEndian : Nat → Nat → Bytes
  | 0, _ => []
  | width + 1, n => bigEndian width (n / 256) ++ [UInt8.ofNat (n % 256)]

@[simp] theorem length_bigEndian (width n : Nat) : (bigEndian width n).length = width := by
  induction width generalizing n with
  | zero => rfl
  | succ width ih => simp [bigEndian, ih]

def field (width : Nat) (n : Int) : Except Fault Bytes :=
  if 0 ≤ n ∧ n < Nat.pow 256 width then .ok (bigEndian width n.toNat)
  else .error (.fieldOutOfRange width n)

/-- The bytes of a quantity that stand before its last seven bits. -/
def continued (n : Nat) : Bytes :=
  if n = 0 then [] else continued (n / 128) ++ [UInt8.ofNat (n % 128 + 128)]

def quantity (n : Nat) : Bytes := continued (n / 128) ++ [UInt8.ofNat (n % 128)]

theorem quantity_ne_nil (n : Nat) : quantity n ≠ [] := by simp [quantity]

def delta (n : Int) : Bytes := if n < 0 then [] else quantity n.toNat

/-- A part of the file: a tag of four bytes, the length of what follows, and the payload. -/
def chunk (tag payload : Bytes) : Except Fault Bytes := do
  return tag ++ (← field 4 payload.length) ++ payload

end Smf
end TrioScore
