import TrioScore.Command.Run

/-!
# The program

Runs the command line on the files that its arguments can name: they are loaded first, a link as
what it leads to, the run is made on that directory, and what it has changed is stored.
-/

namespace TrioScore.Program

def visited (place : Place) : List Text → List Place
  | [] => []
  | name :: names => Directory.next place name :: visited (Directory.next place name) names

def placesOf (t : Text) : List Place :=
  visited (Directory.start t) (Directory.names t)

/-- The paths that an argument can name: itself, its value, and its counterpart for the output. -/
def pathsOf (argument : Text) : List Text :=
  [argument, (Arguments.splitValue argument).2.getD [], argument.drop 2,
   ((Path.ofText argument).withSuffix ".mid").toText]

def placesFor (arguments : List Text) : List Place :=
  ((Command.defaultOutput :: arguments.flatMap pathsOf).flatMap placesOf).eraseDups

def pathName (place : Place) : String := (Text.join [Path.stroke] place).toString

def load (place : Place) : IO (Option (Place × Entry)) := do
  let path := (← IO.currentDir) / pathName place
  if ← path.isDir then return some (place, .folder)
  if ← path.pathExists then return some (place, .file (← IO.FS.readBinFile path).toList)
  return none

def store (before after : Directory) : IO Unit :=
  (before.changes after).forM fun (place, content) => do
    IO.FS.writeBinFile ((← IO.currentDir) / pathName place) ⟨content.toArray⟩

def run (arguments : List Text) : IO UInt32 := do
  let surrounding ← IO.getEnv Command.levelVariable
  let loaded ← (placesFor arguments).filterMapM load
  let before : Directory := ⟨loaded⟩
  let outcome := Command.run arguments (surrounding.map Text.ofString) before
  store before outcome.directory
  IO.print outcome.output.toString
  for record in outcome.records do
    IO.eprintln (record.level.name ++ " " ++ record.message.toString)
  IO.eprint outcome.errors.toString
  if let .fault fault := outcome.ending then
    IO.eprintln (fault.label.toString ++ ": " ++ fault.message.toString)
  if outcome.ending = .misuse then IO.eprint Command.usage.toString
  return UInt32.ofNat outcome.code

end TrioScore.Program

def main (arguments : List String) : IO UInt32 :=
  TrioScore.Program.run (arguments.map TrioScore.Text.ofString)
