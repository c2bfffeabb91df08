import TrioScore.Json.Basic
import TrioScore.Decimal.Layout
import TrioScore.Text.DecimalDigit
import TrioScore.Text.Integer
import TrioScore.Text.Quoted

/-!
# Values in messages

A message shows a text as it is, and any other value as a literal, with the texts in it quoted. It
cannot show an integer of too many digits.
-/

namespace TrioScore.Json

mutual

def literal? : Json → Option Text
  | null => some "None"
  | bool true => some "True"
  | bool false => some "False"
  | number (.int n) =>
    if digitLimit < (Nat.toDigits 10 n.natAbs).length then none else some (Text.ofInt n)
  | number (.real x) => some (Text.ofChars (x.documentChars "inf" "nan"))
  | text t => some t.quoted
  | array items => do return "[" ++ Text.join ", " (← itemLiterals? items) ++ "]"
  | object fields => do return "\x7b" ++ Text.join ", " (← fieldLiterals? fields) ++ "\x7d"

def itemLiterals? : List Json → Option (List Text)
  | [] => some []
  | item :: items => do return (← literal? item) :: (← itemLiterals? items)

def fieldLiterals? : List (Text × Json) → Option (List Text)
  | [] => some []
  | (name, value) :: fields => do
    return (name.quoted ++ ": " ++ (← literal? value)) :: (← fieldLiterals? fields)

end

def shown? : Json → Option Text
  | text t => some t
  | value => value.literal?

end TrioScore.Json
