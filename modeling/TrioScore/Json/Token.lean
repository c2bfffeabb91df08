import TrioScore.Json.Basic

/-!
# Tokens of a document

The characters of a document are read into tokens. Between tokens stand spaces, tabs and line ends
only. A text runs to its closing quote; two escapes that are the halves of a surrogate pair give
one code point. A numeral with a fraction or an exponent is a binary64, any other an integer, whose
count of digits may be limited. The words `NaN`, `Infinity` and `-Infinity` are numbers too.
-/

namespace TrioScore.Json

inductive Token where
  | openArray
  | closeArray
  | openObject
  | closeObject
  | comma
  | colon
  | text (t : Text)
  | scalar (value : Json)

namespace Token

def isSpace (c : Char) : Bool := c = ' ' || c = '\t' || c = '\n' || c = '\r'

def hexDigit? (c : Char) : Option Nat :=
  if c.isDigit then some (c.toNat - '0'.toNat)
  else if 'a' ≤ c ∧ c ≤ 'f' then some (c.toNat - 'a'.toNat + 10)
  else if 'A' ≤ c ∧ c ≤ 'F' then some (c.toNat - 'A'.toNat + 10)
  else none

def codePoint? (n : Nat) : Option CodePoint := if h : n < 0x110000 then some ⟨n, h⟩ else none

/-- The code point that four hexadecimal digits name. -/
def fourDigits? (a b c d : Char) : Option CodePoint := do
  let a ← hexDigit? a
  let b ← hexDigit? b
  let c ← hexDigit? c
  let d ← hexDigit? d
  codePoint? (((a * 16 + b) * 16 + c) * 16 + d)

/-- The code point that a letter behind a backslash stands for. -/
def escape? : Char → Option CodePoint
  | '"' => some (.ofChar '"')
  | '\\' => some (.ofChar '\\')
  | '/' => some (.ofChar '/')
  | 'b' => some (.ofChar '\x08')
  | 'f' => some (.ofChar '\x0c')
  | 'n' => some (.ofChar '\n')
  | 'r' => some (.ofChar '\r')
  | 't' => some (.ofChar '\t')
  | _ => none

/-- A code point before a text that starts with the second half of its pair joins it. -/
def joinPair (c : CodePoint) : Text → Text
  | [] => [c]
  | d :: t =>
    if c.isHighSurrogate && d.isLowSurrogate then
      match codePoint? (0x10000 + (c.value - 0xD800) * 0x400 + (d.value - 0xDC00)) with
      | some e => e :: t
      | none => c :: d :: t
    else c :: d :: t

def joinPairs (t : Text) : Text := t.foldr joinPair []

/-- The text up to the closing quote and what follows; `read` is what has been read, backwards. -/
def scanText (read : Text) : List Char → Option (Text × List Char)
  | [] => none
  | '"' :: rest => some (joinPairs read.reverse, rest)
  | ['\\'] => none
  | '\\' :: 'u' :: a :: b :: c :: d :: rest =>
    match fourDigits? a b c d with
    | some e => scanText (e :: read) rest
    | none => none
  | '\\' :: c :: rest =>
    match escape? c with
    | some e => scanText (e :: read) rest
    | none => none
  | c :: rest => if c.toNat < 0x20 then none else scanText (.ofChar c :: read) rest

def takeMinus : List Char → Bool × List Char
  | '-' :: rest => (true, rest)
  | s => (false, s)

/-- The digits of a fraction and what follows; a point needs digits. -/
def fraction? : List Char → Option (List Char × List Char)
  | '.' :: s =>
    let digits := s.takeWhile Char.isDigit
    if digits.isEmpty then none else some (digits, s.dropWhile Char.isDigit)
  | s => some ([], s)

def exponent? : List Char → Option (Option Int)
  | [] => some none
  | c :: s =>
    if c = 'e' || c = 'E' then
      let (negative, digits) := match s with
        | '+' :: digits => (false, digits)
        | s => takeMinus s
      if digits.isEmpty || !digits.all Char.isDigit then none
      else
        let e : Int := Nat.ofDigitChars 10 digits 0
        some (some (if negative then -e else e))
    else none

def number? (digitLimit : Option Nat) (s : List Char) : Option Number := do
  let (negative, s) := takeMinus s
  let whole := s.takeWhile Char.isDigit
  if whole.isEmpty || (whole.head? = some '0' && whole.length != 1) then none
  else
    let (fraction, s) ← fraction? (s.dropWhile Char.isDigit)
    match fraction, ← exponent? s with
    | [], none =>
      if digitLimit.any fun most => most < whole.length then none
      else
        let n : Int := Nat.ofDigitChars 10 whole 0
        some (.int (if negative then -n else n))
    | _, e =>
      let coefficient := Nat.ofDigitChars 10 (whole ++ fraction) 0
      some (.real (.ofDecimal negative coefficient (e.getD 0 - fraction.length)))

def isNumeric (c : Char) : Bool :=
  c.isDigit || c = '-' || c = '+' || c = '.' || c = 'e' || c = 'E'

def dropWord? (word : List Char) (s : List Char) : Option (List Char) :=
  if word.isPrefixOf s then some (s.drop word.length) else none

/-- The word tokens, less their first characters. -/
def words : List (Char × List Char × Json) :=
  [('n', "ull".toList, null), ('t', "rue".toList, bool true), ('f', "alse".toList, bool false),
   ('N', "aN".toList, .ofBinary64 .nan), ('I', "nfinity".toList, .ofBinary64 (.infinity false)),
   ('-', "Infinity".toList, .ofBinary64 (.infinity true))]

def scanWord? (c : Char) (s : List Char) : Option (Token × List Char) :=
  words.findSome? fun (first, word, value) =>
    if first = c then (dropWord? word s).map fun rest => (scalar value, rest) else none

def scanNumber? (digitLimit : Option Nat) (c : Char) (s : List Char) : Option (Token × List Char) :=
  (number? digitLimit (c :: s.takeWhile isNumeric)).map fun x =>
    (scalar (number x), s.dropWhile isNumeric)

/-- The token that starts with `c` and goes on in `s`, and what follows it. -/
def scan? (digitLimit : Option Nat) (c : Char) (s : List Char) : Option (Token × List Char) :=
  match c with
  | '[' => some (openArray, s)
  | ']' => some (closeArray, s)
  | '{' => some (openObject, s)
  | '}' => some (closeObject, s)
  | ',' => some (comma, s)
  | ':' => some (colon, s)
  | '"' => (scanText [] s).map fun (t, rest) => (text t, rest)
  | c =>
    match scanWord? c s with
    | some found => some found
    | none => scanNumber? digitLimit c s

theorem length_scanText {read : Text} {s : List Char} {t : Text} {rest : List Char}
    (h : scanText read s = some (t, rest)) : rest.length ≤ s.length := by
  fun_induction scanText read s <;> simp_all <;> omega

theorem length_scanWord? {c : Char} {s : List Char} {token : Token} {rest : List Char}
    (h : scanWord? c s = some (token, rest)) : rest.length ≤ s.length := by
  obtain ⟨⟨first, word, value⟩, -, h⟩ := List.exists_of_findSome?_eq_some h
  simp only [dropWord?] at h
  split at h
  · split at h
    · simp at h
      simp [← h.2]
    · simp at h
  · simp at h

theorem length_scan? {digitLimit : Option Nat} {c : Char} {s : List Char} {token : Token}
    {rest : List Char} (h : scan? digitLimit c s = some (token, rest)) :
    rest.length ≤ s.length := by
  unfold scan? at h
  split at h
  case h_7 =>
    obtain ⟨⟨t, r⟩, ht, hr⟩ := Option.map_eq_some_iff.1 h
    simp at hr
    exact hr.2 ▸ length_scanText ht
  case h_8 =>
    split at h
    · next hw => exact length_scanWord? (hw.trans h)
    · obtain ⟨x, -, hr⟩ := Option.map_eq_some_iff.1 h
      simp at hr
      exact hr.2 ▸ (List.dropWhile_sublist _).length_le
  all_goals simp_all

/-- The tokens of a document; `read` are those read so far, backwards. -/
def tokensFrom (digitLimit : Option Nat) (read : List Token) (s : List Char) :
    Option (List Token) :=
  match s with
  | [] => some read.reverse
  | c :: s =>
    if isSpace c then tokensFrom digitLimit read s
    else
      match h : scan? digitLimit c s with
      | none => none
      | some (token, rest) =>
        have := length_scan? h
        tokensFrom digitLimit (token :: read) rest
termination_by s.length
decreasing_by all_goals simp_all; try omega

def tokens? (digitLimit : Option Nat) (s : List Char) : Option (List Token) :=
  tokensFrom digitLimit [] s

end Token
end TrioScore.Json
