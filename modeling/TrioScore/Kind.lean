/-!
# Kinds of values

The kinds a value of a document can be of, and their names in messages.
-/

namespace TrioScore

inductive Kind where
  | null
  | bool
  | integer
  | real
  | text
  | array
  | object
deriving DecidableEq

def Kind.name : Kind → String
  | null => "NoneType"
  | bool => "bool"
  | integer => "int"
  | real => "float"
  | text => "str"
  | array => "list"
  | object => "dict"

end TrioScore
