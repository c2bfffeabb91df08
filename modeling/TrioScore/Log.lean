import TrioScore.Fault
import TrioScore.Text.Capital

/-!
# Log records

What the library tells about its work: records of a level, of which those at or above a threshold
are shown.
-/

namespace TrioScore.Log

inductive Level where
  | debug
  | info
  | warning
  | error
deriving DecidableEq

namespace Level

def number : Level → Nat
  | debug => 10
  | info => 20
  | warning => 30
  | error => 40

def name : Level → String
  | debug => "DEBUG"
  | info => "INFO"
  | warning => "WARNING"
  | error => "ERROR"

end Level

structure Record where
  level : Level
  message : Text
deriving DecidableEq

def thresholds : List (String × Nat) :=
  [("NOTSET", 0), ("DEBUG", 10), ("INFO", 20), ("WARN", 30), ("WARNING", 30), ("ERROR", 40),
   ("CRITICAL", 50), ("FATAL", 50)]

/-- The name that stands for the layout of log lines, which is no threshold. -/
def layoutName : Text := "BASIC_FORMAT"

def layout : String := "%(levelname)s:%(name)s:%(message)s"

/-- The threshold of a name in any case; an unknown one is that of warnings. -/
def threshold (name : Text) : Except Fault Nat :=
  let name := name.capitals
  if name = layoutName then .error (.unknownLevel layout)
  else
    match thresholds.find? fun entry => Text.ofString entry.1 = name with
    | some entry => .ok entry.2
    | none => .ok 30

/-- The records that a threshold lets through; a threshold of zero leaves the choice to the
surroundings, which let warnings through. -/
def shown (threshold : Nat) (records : List Record) : List Record :=
  let threshold := if threshold = 0 then 30 else threshold
  records.filter fun record => threshold ≤ record.level.number

end TrioScore.Log
