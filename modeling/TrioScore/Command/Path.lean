import TrioScore.Text.CodePoint

/-!
# Paths

A path is a root and the names of its steps, without the empty ones and the single dots. It is
written with strokes between the names; a path without steps is a single dot or its root.
-/

namespace TrioScore

structure Path where
  root : Text
  parts : List Text
deriving DecidableEq

namespace Path

def stroke : CodePoint := .ofChar '/'

def split (t : Text) : List Text := t.splitOn stroke

/-- The single dot, which names the folder that it is written in. -/
def here : Text := "."

/-- The names that a text writes between strokes, single dots included. -/
def names (t : Text) : List Text := (split t).filter fun name => !name.isEmpty

def steps (t : Text) : List Text := (names t).filter (· != here)

/-- The root of a written path: two strokes at its start are a root of their own, any other number
counts as one. -/
def rootOf (t : Text) : Text :=
  match (t.takeWhile (· = stroke)).length with
  | 0 => []
  | 2 => [stroke, stroke]
  | _ => [stroke]

def ofText (t : Text) : Path := ⟨rootOf t, steps t⟩

def toText (path : Path) : Text :=
  let written := path.root ++ Text.join [stroke] path.parts
  if written.isEmpty then here else written

/-- A name without its suffix, which begins at the last dot, if that dot is neither the first nor
the last code point. -/
def stem (name : Text) : Text :=
  let suffix := name.reverse.takeWhile (· != .ofChar '.')
  let rest := name.reverse.drop suffix.length
  if suffix.isEmpty || rest.length ≤ 1 then name else (rest.drop 1).reverse

def withSuffix (path : Path) (suffix : Text) : Path :=
  match path.parts.getLast? with
  | none => path
  | some name => { path with parts := path.parts.dropLast ++ [stem name ++ suffix] }

end Path
end TrioScore
