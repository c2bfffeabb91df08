import TrioScore.Text.CodePoint

/-!
# Arguments

The arguments of a command are options and operands. A long option is two dashes and a name, and
its value follows behind an equals sign or as the next argument; short options of one letter may
be run together, the last with its value attached. Two dashes alone end the options. What does not
follow these rules is a misuse.
-/

namespace TrioScore

structure Switch where
  name : Text
  letter : Option CodePoint
  takesValue : Bool
deriving DecidableEq

/-- The options that were given, in order, and the operands. An option without a value has an
empty one. -/
structure Arguments where
  options : List (Text × Text)
  operands : List Text
deriving DecidableEq

namespace Arguments

def dash : CodePoint := .ofChar '-'

/-- Options read from one argument, and the one that still needs a value. -/
abbrev Reading := List (Text × Text) × Option Text

def readLetters (switches : List Switch) : Text → Option Reading
  | [] => some ([], none)
  | c :: rest =>
    match switches.find? fun switch => switch.letter = some c with
    | none => none
    | some switch =>
      if switch.takesValue then
        if rest.isEmpty then some ([], some switch.name) else some ([(switch.name, rest)], none)
      else
        (readLetters switches rest).map fun (given, open?) => ((switch.name, []) :: given, open?)

def splitValue (t : Text) : Text × Option Text :=
  let name := t.takeWhile (· != .ofChar '=')
  match t.drop name.length with
  | [] => (name, none)
  | _ :: value => (name, some value)

def readOption (switches : List Switch) (argument : Text) : Option Reading :=
  let (name, value) := splitValue argument
  match switches.find? fun switch => dash :: dash :: switch.name = name with
  | some switch =>
    if switch.takesValue then
      match value with
      | some value => some ([(switch.name, value)], none)
      | none => some ([], some switch.name)
    else if value.isNone then some ([(switch.name, [])], none)
    else none
  | none =>
    match argument with
    | _ :: second :: _ => if second = dash then none else readLetters switches (argument.drop 1)
    | _ => none

def addOptions (options : List (Text × Text)) (arguments : Arguments) : Arguments :=
  { arguments with options := options ++ arguments.options }

def addOperand (operand : Text) (arguments : Arguments) : Arguments :=
  { arguments with operands := operand :: arguments.operands }

def isOption (argument : Text) : Bool := argument.head? = some dash && argument != [dash]

/-- The arguments of a command. Where options may not stand behind operands, the first operand
ends them. -/
def read? (switches : List Switch) (mixed : Bool) : List Text → Option Arguments
  | [] => some ⟨[], []⟩
  | argument :: rest =>
    if argument = [dash, dash] then some ⟨[], rest⟩
    else if isOption argument then
      match readOption switches argument, rest with
      | none, _ => none
      | some (given, none), rest => addOptions given <$> read? switches mixed rest
      | some (_, some _), [] => none
      | some (given, some name), value :: rest =>
        addOptions (given ++ [(name, value)]) <$> read? switches mixed rest
    else if mixed then addOperand argument <$> read? switches mixed rest
    else some ⟨[], argument :: rest⟩

/-- The value of an option; given more than once, the last counts. -/
def value? (arguments : Arguments) (name : String) : Option Text :=
  (arguments.options.reverse.find? fun option => option.1 = Text.ofString name).map (·.2)

def has (arguments : Arguments) (name : String) : Bool := (arguments.value? name).isSome

end Arguments
end TrioScore
