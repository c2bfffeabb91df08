import TrioScore.Json.Token

/-!
# Reading documents

A document is read token by token. What is open, innermost first, is kept as a stack of frames,
with what has to come next. Of two fields of one name in an object the later value is kept, in the
place of the first.
-/

namespace TrioScore.Json

/-- An array or object that has been opened and not yet closed. -/
inductive Frame where
  /-- An array with its items so far, backwards. -/
  | array (items : List Json)
  | object (fields : List (Text × Json))
  | named (fields : List (Text × Json)) (name : Text)

inductive Want where
  | value
  | valueOrClose
  | name
  | nameOrClose
  | colon
  | commaOrClose

/-- How far a document has been read. -/
inductive Progress where
  | inside (want : Want) (frames : List Frame)
  | done (value : Json)

namespace Progress

def complete (value : Json) : List Frame → Option Progress
  | [] => some (done value)
  | .array items :: frames => some (inside .commaOrClose (.array (value :: items) :: frames))
  | .named fields name :: frames =>
    some (inside .commaOrClose (.object (setField name value fields) :: frames))
  | .object _ :: _ => none

def begin? (frames : List Frame) : Token → Option Progress
  | .scalar value => complete value frames
  | .text t => complete (.text t) frames
  | .openArray => some (inside .valueOrClose (.array [] :: frames))
  | .openObject => some (inside .nameOrClose (.object [] :: frames))
  | _ => none

def step : Progress → Token → Option Progress
  | inside .value frames, token => begin? frames token
  | inside .valueOrClose (.array [] :: frames), .closeArray => complete (.array []) frames
  | inside .valueOrClose frames, token => begin? frames token
  | inside .nameOrClose (.object [] :: frames), .closeObject => complete (.object []) frames
  | inside .nameOrClose (.object fields :: frames), .text name =>
    some (inside .colon (.named fields name :: frames))
  | inside .name (.object fields :: frames), .text name =>
    some (inside .colon (.named fields name :: frames))
  | inside .colon frames, .colon => some (inside .value frames)
  | inside .commaOrClose (.array items :: frames), .comma =>
    some (inside .value (.array items :: frames))
  | inside .commaOrClose (.array items :: frames), .closeArray =>
    complete (.array items.reverse) frames
  | inside .commaOrClose (.object fields :: frames), .comma =>
    some (inside .name (.object fields :: frames))
  | inside .commaOrClose (.object fields :: frames), .closeObject =>
    complete (.object fields) frames
  | _, _ => none

def value? : Progress → Option Json
  | done value => some value
  | inside .. => none

end Progress

def ofTokens? (tokens : List Token) : Option Json :=
  (tokens.foldlM Progress.step (.inside .value [])).bind Progress.value?

/-- The value of a document. Integers may be limited in their count of digits. -/
def read? (digitLimit : Option Nat) (s : List Char) : Option Json :=
  (Token.tokens? digitLimit s).bind ofTokens?

end TrioScore.Json
