import TrioScore.Text.CodePoint

/-!
# Capitals of marks

Cadence marks and the names of log levels are spelled with the Latin capitals A to Z and are
recognised in any case. Besides a to z, the letters whose capital is one of those are dotless i
and long s.
-/

namespace TrioScore

/-- The Latin capital of a letter that has one; any other code point stays. -/
def CodePoint.capital (c : CodePoint) : CodePoint :=
  if 0x61 ≤ c.value ∧ c.value ≤ 0x7A then ⟨c.value - 0x20, by have := c.value_lt; omega⟩
  else if c.value = 0x131 then .ofChar 'I'
  else if c.value = 0x17F then .ofChar 'S'
  else c

/-- The small letter of a Latin capital; any other code point stays. -/
def CodePoint.small (c : CodePoint) : CodePoint :=
  if h : 0x41 ≤ c.value ∧ c.value ≤ 0x5A then ⟨c.value + 0x20, by omega⟩ else c

def Text.capitals (t : Text) : Text := t.map CodePoint.capital

def Text.smalls (t : Text) : Text := t.map CodePoint.small

end TrioScore
