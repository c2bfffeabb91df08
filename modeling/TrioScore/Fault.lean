import TrioScore.Kind
import TrioScore.Text.Encoding
import TrioScore.Text.Quoted

/-!
# Faults

What can go wrong, as causes. Every cause has a label and a message; both appear in warnings, and
the wording is here and nowhere else.
-/

namespace TrioScore

inductive FileFault where
  | missing
  | notDirectory
  | isDirectory
  | nameTooLong
  | tooManyLinks
deriving DecidableEq

namespace FileFault

def label : FileFault → String
  | missing => "FileNotFoundError"
  | notDirectory => "NotADirectoryError"
  | isDirectory => "IsADirectoryError"
  | nameTooLong => "OSError"
  | tooManyLinks => "OSError"

def reason : FileFault → String
  | missing => "[Errno 2] No such file or directory"
  | notDirectory => "[Errno 20] Not a directory"
  | isDirectory => "[Errno 21] Is a directory"
  | nameTooLong => "[Errno 36] File name too long"
  | tooManyLinks => "[Errno 40] Too many levels of symbolic links"

end FileFault

def Gap.place (gap : Gap) : Text :=
  if gap.first = gap.last then
    "character '" ++ Text.numbered gap.code ++ "' in position " ++ gap.first.repr
  else "characters in position " ++ gap.first.repr ++ "-" ++ gap.last.repr

inductive Fault where
  /-- A piece was described by something other than an object. -/
  | notAnObject (kind : Kind)
  /-- A hint is not a text. -/
  | hintNotText (index : Nat) (kind : Kind)
  /-- Hints were given as a single number or truth value. -/
  | hintsNotIterable
  /-- A value that is no list, text or object was counted. -/
  | lengthless (kind : Kind)
  /-- An outside composer's answer lacks a required field. -/
  | incompletePiece
  /-- An integer is beyond the binary64 range. -/
  | integerTooLarge
  | infinityToInteger
  | nanToInteger
  | numeralTooLong (digits : Nat)
  | emptyScale
  /-- A tempo of zero has no beat length. -/
  | divisionByZero
  | outsideLatin1 (gap : Gap)
  | outsideUtf8 (gap : Gap)
  /-- A path holds a zero. -/
  | zeroInPath
  /-- A log level was named by the layout of log lines. -/
  | unknownLevel (name : String)
  /-- A number does not fit a field of so many bytes. -/
  | fieldOutOfRange (width : Nat) (n : Int)
  | file (fault : FileFault) (path : Text)
  /-- A fault of an outside party, passed on. -/
  | outside (label message : Text)
deriving DecidableEq

namespace Fault

def label : Fault → Text
  | notAnObject _ => "TypeError"
  | hintNotText .. => "TypeError"
  | hintsNotIterable => "TypeError"
  | lengthless _ => "TypeError"
  | incompletePiece => "ValueError"
  | integerTooLarge => "OverflowError"
  | infinityToInteger => "OverflowError"
  | nanToInteger => "ValueError"
  | numeralTooLong _ => "ValueError"
  | emptyScale => "ZeroDivisionError"
  | divisionByZero => "ZeroDivisionError"
  | outsideLatin1 _ => "UnicodeEncodeError"
  | outsideUtf8 _ => "UnicodeEncodeError"
  | zeroInPath => "ValueError"
  | unknownLevel _ => "ValueError"
  | fieldOutOfRange .. => "error"
  | file fault _ => fault.label
  | outside label _ => label

/-- A field of one byte takes a word with a sign, a wider one a word without. Only a number that
fits the word is told the bounds of the field. -/
def fieldMessage (width : Nat) (n : Int) : Text :=
  let (least, beyond, name) : Int × Int × String :=
    if width = 1 then (-0x8000000000000000, 0x8000000000000000, "ubyte")
    else (0, 0x10000000000000000, if width = 2 then "'H'" else "'L'")
  if least ≤ n ∧ n < beyond then
    name ++ " format requires 0 <= number <= " ++ (Nat.pow 256 width - 1).repr
  else "argument out of range"

def message : Fault → Text
  | notAnObject kind => "Music structure must be a mapping, got " ++ kind.name
  | hintNotText index kind =>
    "sequence item " ++ index.repr ++ ": expected str instance, " ++ kind.name ++ " found"
  | hintsNotIterable => "can only join an iterable"
  | lengthless kind => "object of type '" ++ kind.name ++ "' has no len()"
  | incompletePiece => "Incomplete music structure from external composer"
  | integerTooLarge => "int too large to convert to float"
  | infinityToInteger => "cannot convert float infinity to integer"
  | nanToInteger => "cannot convert float NaN to integer"
  | numeralTooLong digits =>
    "Exceeds the limit (4300 digits) for integer string conversion: value has " ++ digits.repr ++
      " digits; use sys.set_int_max_str_digits() to increase the limit"
  | emptyScale => "integer modulo by zero"
  | divisionByZero => "division by zero"
  | outsideLatin1 gap =>
    "'latin-1' codec can't encode " ++ gap.place ++ ": ordinal not in range(256)"
  | outsideUtf8 gap => "'utf-8' codec can't encode " ++ gap.place ++ ": surrogates not allowed"
  | zeroInPath => "embedded null byte"
  | unknownLevel name => "Unknown level: '" ++ name ++ "'"
  | fieldOutOfRange width n => fieldMessage width n
  | file fault path => fault.reason ++ ": " ++ path.quoted
  | outside _ message => message

end Fault
end TrioScore
