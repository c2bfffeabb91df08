import TrioScore.Base64
import TrioScore.Command.Arguments
import TrioScore.Command.Directory
import TrioScore.Command.Report
import TrioScore.Delivery
import TrioScore.Json.Printer
import TrioScore.Json.Reader
import TrioScore.Text.ControlSequence

/-!
# The command line

Three commands: `compose` makes a piece for a mood and writes it, `render` writes the piece that a
document describes, and `inspect` shows that piece and its score. A run takes arguments, a variable
of the surroundings and a directory, and ends with an exit code, what was printed, and the
directory as it is then.
-/

namespace TrioScore.Command

inductive Ending where
  | misuse
  | exit (code : Nat)
  /-- A fault that no command handles. -/
  | fault (fault : Fault)
deriving DecidableEq

structure Outcome where
  ending : Ending
  output : Text
  errors : Text
  directory : Directory
  records : List Log.Record
deriving DecidableEq

namespace Outcome

def silent (ending : Ending) (directory : Directory) : Outcome := ⟨ending, [], [], directory, []⟩

def after (output errors : Text) (records : List Log.Record) (rest : Outcome) : Outcome :=
  { rest with
    output := output ++ rest.output
    errors := errors ++ rest.errors
    records := records ++ rest.records }

def failed (message : Text) (directory : Directory) : Outcome :=
  ⟨.exit 1, [], Report.line (Text.ofString "  ERROR: " ++ message), directory, []⟩

/-- A run that ends because a file could not be written. Only a file that could not be opened has a
message. -/
def unwritten (subject : String) (fault : Fault) (directory : Directory) : Outcome :=
  match fault with
  | .file .. =>
    failed (Text.ofString "Could not write " ++ subject ++ Text.ofString ": " ++ fault.message)
      directory
  | fault => silent (.fault fault) directory

def told (output : Text) (directory : Directory) : Outcome := ⟨.exit 0, output, [], directory, []⟩

def code (outcome : Outcome) : Nat :=
  match outcome.ending with
  | .misuse => 2
  | .exit code => code
  | .fault _ => 1

end Outcome

def version : String := "0.1.0"

def levelVariable : String := "MOODSCORE_LOG_LEVEL"

def defaultOutput : Text := "moodscore.mid"

def help : Switch := ⟨"help", some (.ofChar 'h'), false⟩

def outputSwitch : Switch := ⟨"output", some (.ofChar 'o'), true⟩

def base64Switch : Switch := ⟨"base64", none, false⟩

def mainSwitches : List Switch := [⟨"log-level", none, true⟩, ⟨"version", none, false⟩, help]

def composeSwitches : List Switch :=
  [⟨"valence", none, true⟩, ⟨"arousal", none, true⟩, ⟨"focus", none, true⟩, outputSwitch,
   ⟨"structure-out", none, true⟩, base64Switch, help]

def renderSwitches : List Switch := [outputSwitch, base64Switch, help]

def inspectSwitches : List Switch := [help]

/-- The contents of a file of ASCII characters. -/
def asciiBytes (chars : List Char) : Bytes := chars.map fun c => UInt8.ofNat c.toNat

def farewell (size : Nat) (path : Text) : Text :=
  Report.line (Text.plain (Text.ofString "Done!  Wrote " ++ Text.ofNat size ++
    Text.ofString " bytes to '" ++ path ++ Text.ofString "'."))

def emit (delivery : Delivery) (path : Text) (base64 : Bool) (directory : Directory) : Outcome :=
  match directory.write (Path.ofText path).toText delivery.bytes with
  | .error fault => .unwritten "MIDI file" fault directory
  | .ok written =>
    let done := farewell delivery.bytes.length path
    match done.printGap? with
    | some gap => .silent (.fault (.outsideUtf8 gap)) written
    | none =>
      let encoded :=
        if base64 then Report.line (Text.ofChars (Base64.encode delivery.bytes)) else []
      .told (done ++ encoded) written

def heading (piece : Piece) : Text :=
  Report.line (Text.ofString "moodscore v" ++ Text.ofString version) ++
  Report.line (Text.ofString "  Key    : " ++ piece.key ++ Text.ofString "  |  Tempo: " ++
    Text.ofInt piece.tempo ++ Text.ofString " BPM  |  Meter: " ++
    piece.timeSignature) ++
  Report.line (Text.ofString "  Form   : " ++ piece.form ++ Text.ofString "  (" ++
    Text.ofNat piece.sections.length ++ Text.ofString " sections)") ++
  Report.line []

def pieceText (piece : Piece) : List Char := Json.print piece.toJson

def savePiece (piece : Piece) (path : Option Text) (directory : Directory) :
    Except Fault Directory :=
  match path with
  | none => .ok directory
  | some path => directory.write (Path.ofText path).toText (asciiBytes (pieceText piece))

def exporter : Exporter := Exporter.standard Exporter.standardDivision

def composePiece (piece : Piece) (arguments : Arguments) (directory : Directory) : Outcome :=
  let path := (arguments.value? "output").getD defaultOutput
  let rest := match savePiece piece (arguments.value? "structure-out") directory with
    | .error fault => .unwritten "structure file" fault directory
    | .ok saved =>
      match deliver exporter "rule-based" piece.toJson with
      | (records, .error fault) => Outcome.after [] [] records (.silent (.fault fault) saved)
      | (records, .ok delivery) =>
        Outcome.after [] [] records (emit delivery path (arguments.has "base64") saved)
  Outcome.after (heading piece) [] [] rest

/-- A number between bounds, or NaN, that an option gives. -/
def parameter? (low high : Int) (t : Text) : Option Json :=
  match Numeral.real? t with
  | none => none
  | some x =>
    if x.less (.ofRat low) || (Binary64.ofRat high).less x then none else some (.ofBinary64 x)

def compose (arguments : Arguments) (directory : Directory) : Outcome :=
  let reading := do
    let valence ← arguments.value? "valence" >>= parameter? (-1) 1
    let arousal ← arguments.value? "arousal" >>= parameter? 0 1
    let focus ← arguments.value? "focus" >>= parameter? 0 1
    if arguments.operands.isEmpty then some (valence, arousal, focus) else none
  match reading with
  | none => .silent .misuse directory
  | some (valence, arousal, focus) =>
    match pieceOfReading valence arousal focus Hints.empty with
    | .error fault => .silent (.fault fault) directory
    | .ok piece => composePiece piece arguments directory

/-- The document in the contents of a file, which are UTF-8. -/
def document? (content : Bytes) : Option Json :=
  (String.fromUTF8? ⟨content.toArray⟩).bind fun s => Json.read? (some digitLimit) s.toList

/-- The document that a command is given: its one operand is a path to a file that is there. The
path is looked up before further operands are. -/
def withDocument (operands : List Text) (directory : Directory) (use : Text → Json → Outcome) :
    Outcome :=
  match operands with
  | [] => .silent .misuse directory
  | path :: further =>
    match directory.look path, further with
    | .error (.file ..), _ | .ok .folder, _ | .ok (.link _), _ | .ok (.file _), _ :: _ =>
      .silent .misuse directory
    | .error fault, _ => .silent (.fault fault) directory
    | .ok (.file content), [] =>
      match document? content with
      | none => .failed (Text.ofString "Could not read structure file: no document") directory
      | some document => use path document

def render (arguments : Arguments) (directory : Directory) : Outcome :=
  withDocument arguments.operands directory fun path document =>
    let target := (arguments.value? "output").getD ((Path.ofText path).withSuffix ".mid").toText
    match deliver exporter "input" document with
    | (records, .error fault) => Outcome.after [] [] records (.silent (.fault fault) directory)
    | (records, .ok delivery) =>
      let warning := if delivery.isEmergency then
        Report.line "  WARNING: Structure could not be rendered; wrote emergency phrase." else []
      Outcome.after [] warning records (emit delivery target (arguments.has "base64") directory)

def inspection (piece : Piece) (score : Score) : Text :=
  Report.line (Text.ofChars (pieceText piece)) ++ Report.scoreLines score

def inspect (arguments : Arguments) (directory : Directory) : Outcome :=
  withDocument arguments.operands directory fun _ document =>
    let records := Piece.repairRecords document
    match Piece.repair document with
    | .error (.notAnObject kind) =>
      Outcome.after [] [] records (.failed (Fault.notAnObject kind).message directory)
    | .error fault => Outcome.after [] [] records (.silent (.fault fault) directory)
    | .ok piece =>
      match Score.ofPiece piece with
      | .error fault => Outcome.after [] [] records (.silent (.fault fault) directory)
      | .ok score =>
        Outcome.after [] [] (records ++ [Score.record piece score])
          (.told (inspection piece score) directory)

def levelNames : List Text := ["DEBUG", "INFO", "WARNING", "ERROR"]

/-- The threshold of the log: the option before the variable, an empty variable counting for
nothing. -/
def threshold? (option surrounding : Option Text) : Option Nat :=
  let surrounding := surrounding.filter fun t => !t.isEmpty
  let name := (option.or surrounding).getD "WARNING"
  match levelNames.find? fun level => level.smalls = name.smalls with
  | none => none
  | some level => (Log.threshold level).toOption

def usage : Text :=
  Report.line "Usage: moodscore [--log-level LEVEL] compose|render|inspect [OPTIONS] [ARGS]"

/-- What the options in front of a command ask for instead of a command: the first of them that is
no log level counts. -/
def asked? (main : Arguments) : Option Text :=
  (main.options.find? fun option => option.1 != Text.ofString "log-level").map fun (name, _) =>
    if name = Text.ofString "version" then
      Report.line (Text.ofString "moodscore, version " ++ Text.ofString version)
    else usage

/-- What is done with operands that begin with no command: they are read as options in front of a
command once more, in case that two dashes kept them from it. -/
def runUnknown (operands : List Text) (directory : Directory) : Outcome :=
  match (Arguments.read? mainSwitches false operands).bind asked? with
  | some answer => .told answer directory
  | none => .silent .misuse directory

def runCommand (operands : List Text) (directory : Directory) : Outcome :=
  let run (switches : List Switch) (command : Arguments → Directory → Outcome)
      (arguments : List Text) : Outcome :=
    match Arguments.read? switches true arguments with
    | none => .silent .misuse directory
    | some arguments =>
      if arguments.has "help" then .told usage directory else command arguments directory
  match operands with
  | [] => .silent .misuse directory
  | name :: arguments =>
    if name = Text.ofString "compose" then run composeSwitches compose arguments
    else if name = Text.ofString "render" then run renderSwitches render arguments
    else if name = Text.ofString "inspect" then run inspectSwitches inspect arguments
    else runUnknown operands directory

/-- A run with the arguments and the variable for the level of the log. The records are those that
the threshold lets through. -/
def run (arguments : List Text) (surrounding : Option Text) (directory : Directory) : Outcome :=
  match Arguments.read? mainSwitches false arguments with
  | none => .silent .misuse directory
  | some main =>
    match asked? main with
    | some answer => .told answer directory
    | none =>
      match threshold? (main.value? "log-level") surrounding with
      | none => .silent .misuse directory
      | some threshold =>
        let outcome := runCommand main.operands directory
        { outcome with records := Log.shown threshold outcome.records }

end TrioScore.Command
