import TrioScore.Json.Basic
import TrioScore.Decimal.Layout
import TrioScore.Text.Integer

/-!
# Printing documents

A document is printed over several lines, two spaces to a level, in ASCII: a code point outside
the printable ASCII range is escaped by its number in UTF-16 units.
-/

namespace TrioScore.Json

def unitChars (n : Nat) : List Char :=
  let digit (k : Nat) : Char := Nat.digitChar (n / k % 16)
  ['\\', 'u', digit 4096, digit 256, digit 16, digit 1]

def pointChars (c : CodePoint) : List Char :=
  if c = .ofChar '"' then ['\\', '"']
  else if c = .ofChar '\\' then ['\\', '\\']
  else if c = .ofChar '\n' then ['\\', 'n']
  else if c = .ofChar '\r' then ['\\', 'r']
  else if c = .ofChar '\t' then ['\\', 't']
  else if c = .ofChar '\x0c' then ['\\', 'f']
  else if c = .ofChar '\x08' then ['\\', 'b']
  else if 0x20 ≤ c.value ∧ c.value ≤ 0x7E then [Char.ofNat c.value]
  else if c.value < 0x10000 then unitChars c.value
  else
    unitChars (0xD800 + (c.value - 0x10000) / 0x400) ++
      unitChars (0xDC00 + (c.value - 0x10000) % 0x400)

def textChars (t : Text) : List Char := '"' :: t.flatMap pointChars ++ ['"']

def numberChars : Number → List Char
  | .int n => integerChars n
  | .real x => x.documentChars "Infinity" "NaN"

def lineStart (level : Nat) : List Char := '\n' :: List.replicate (2 * level) ' '

mutual

def chars (level : Nat) : Json → List Char
  | null => "null".toList
  | bool true => "true".toList
  | bool false => "false".toList
  | number x => numberChars x
  | text t => textChars t
  | array [] => ['[', ']']
  | array (item :: items) =>
    '[' :: (lineStart (level + 1) ++ chars (level + 1) item ++ itemsChars (level + 1) items ++
      lineStart level ++ [']'])
  | object [] => ['{', '}']
  | object ((name, value) :: fields) =>
    '{' :: (lineStart (level + 1) ++ textChars name ++ [':', ' '] ++ chars (level + 1) value ++
      fieldsChars (level + 1) fields ++ lineStart level ++ ['}'])

def itemsChars (level : Nat) : List Json → List Char
  | [] => []
  | item :: items => ',' :: (lineStart level ++ chars level item ++ itemsChars level items)

def fieldsChars (level : Nat) : List (Text × Json) → List Char
  | [] => []
  | (name, value) :: fields =>
    ',' :: (lineStart level ++ textChars name ++ [':', ' '] ++ chars level value ++
      fieldsChars level fields)

end

def print (value : Json) : List Char := chars 0 value

end TrioScore.Json
