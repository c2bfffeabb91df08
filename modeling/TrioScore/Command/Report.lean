import TrioScore.Decimal.Layout
import TrioScore.Score.Basic

/-!
# Reports

What is told about a score: a line for each track and a line for each of its events, in columns.
-/

namespace TrioScore.Report

def padLeft (width : Nat) (t : Text) : Text :=
  List.replicate (width - t.length) (.ofChar ' ') ++ t

def padRight (width : Nat) (t : Text) : Text :=
  t ++ List.replicate (width - t.length) (.ofChar ' ')

def line (t : Text) : Text := t ++ [.ofChar '\n']

def eventLine (e : Event) : Text :=
  line (Text.ofString "  " ++ padLeft 8 (Text.ofChars e.start.twoPlaces) ++ Text.ofString "  " ++
    padRight 9 e.label ++ Text.ofString "  v" ++ padRight 3 (Text.ofInt e.velocity) ++
    Text.ofString "  " ++ Text.join " " (e.pitches.map Text.ofInt))

def trackLines (t : Track) : Text :=
  line [] ++ line (Text.ofString "[" ++ t.name ++ Text.ofString "] " ++ Text.ofNat t.events.size ++
    Text.ofString " event(s), " ++ Text.ofChars t.cursor.briefChars ++ Text.ofString " beats") ++
    t.events.toList.flatMap eventLine

def scoreLines (score : Score) : Text := score.tracks.flatMap trackLines

end TrioScore.Report
