import TrioScore.Number

/-!
# Documents

The values of a JSON document. Numbers keep the distinction between integers and binary64, texts
may hold surrogates, and an object lists its fields in the order of their first appearance.
-/

namespace TrioScore

inductive Json where
  | null
  | bool (b : Bool)
  | number (x : Number)
  | text (t : Text)
  | array (items : List Json)
  | object (fields : List (Text × Json))

namespace Json

def kind : Json → Kind
  | null => .null
  | bool _ => .bool
  | number (.int _) => .integer
  | number (.real _) => .real
  | text _ => .text
  | array _ => .array
  | object _ => .object

/-- Whether the value counts as given: null, false, zero and what is empty do not. -/
def isTruthy : Json → Bool
  | null => false
  | bool b => b
  | number x => x.isNonzero
  | text t => !t.isEmpty
  | array items => !items.isEmpty
  | object fields => !fields.isEmpty

/-- The value of a field, null if there is none. -/
def field (name : Text) (fields : List (Text × Json)) : Json := (fields.lookup name).getD null

/-- The fields with the value of one of them set; a new field comes last. -/
def setField (name : Text) (value : Json) : List (Text × Json) → List (Text × Json)
  | [] => [(name, value)]
  | (other, old) :: rest =>
    if other = name then (other, value) :: rest else (other, old) :: setField name value rest

/-- The finite number that the value is; a truth value is none. -/
def finite? : Json → Option Number
  | number x => if x.isFinite then some x else none
  | _ => none

/-- The number that the value is, a truth value counting as 1 or 0. -/
def quantity? : Json → Option Number
  | bool b => some (.int (if b then 1 else 0))
  | number x => some x
  | _ => none

/-- How many items, fields or code points the value has. -/
def length : Json → Except Fault Nat
  | text t => .ok t.length
  | array items => .ok items.length
  | object fields => .ok fields.length
  | value => .error (.lengthless value.kind)

def ofInt (n : Int) : Json := number (.int n)

def ofBinary64 (x : Binary64) : Json := number (.real x)

end Json
end TrioScore
