import TrioScore.Key
import TrioScore.Text.Blank

/-!
# Markings

The marks a section carries: its dynamics, which are velocities, and the cadence it closes with.
-/

namespace TrioScore

namespace Dynamics

def table : List (String × Int) :=
  [("pp", 40), ("p", 60), ("mp", 75), ("mf", 90), ("f", 105), ("ff", 120)]

def standard : Text := "mf"

def velocity? (mark : Text) : Option Int :=
  (table.find? fun entry => Text.ofString entry.1 = mark).map (·.2)

/-- The velocity of a mark; an unknown one is played like the standard mark. -/
def velocity (mark : Text) : Int := (velocity? mark).getD 90

end Dynamics

namespace Cadence

/-- The marks: half cadence, perfect authentic cadence, deceptive cadence, Picardy third. -/
def marks : List Text := ["HC", "PAC", "DC", "PICARDY"]

/-- The mark that a text gives, in any case and with blanks around it. -/
def mark? (t : Text) : Option Text := marks.find? fun mark => mark = t.trim.capitals

/-- The mark that closes a piece in a key: a Picardy third in minor. -/
def closing (key : Text) : Text := if Key.isMinorName key then "PICARDY" else "PAC"

end Cadence
end TrioScore
