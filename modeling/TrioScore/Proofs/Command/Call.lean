import Mathlib.Data.Nat.Notation
import Mathlib.Tactic.SplitIfs
import TrioScore.Command.Run

/-!
# Calls

A run comes to a command if the options in front of its name ask for nothing, the level of the log
is known and the command does not have to help. It is then what the command does.
-/

namespace TrioScore.Command

inductive Verb where
  | compose
  | render
  | inspect
deriving DecidableEq

namespace Verb

def name : Verb → String
  | compose => "compose"
  | render => "render"
  | inspect => "inspect"

def switches : Verb → List Switch
  | compose => composeSwitches
  | render => renderSwitches
  | inspect => inspectSwitches

def act : Verb → Arguments → Directory → Outcome
  | compose => Command.compose
  | render => Command.render
  | inspect => Command.inspect

def ofName? (name : Text) : Option Verb :=
  [compose, render, inspect].find? fun verb => name = Text.ofString verb.name

end Verb

/-- A command with its arguments, and the threshold of the log. -/
structure Call where
  verb : Verb
  given : Arguments
  threshold : ℕ
deriving DecidableEq

def Call.outcome (call : Call) (directory : Directory) : Outcome :=
  let outcome := call.verb.act call.given directory
  { outcome with records := Log.shown call.threshold outcome.records }

namespace Call
variable (call : Call) (directory : Directory)

theorem ending_outcome :
    (call.outcome directory).ending = (call.verb.act call.given directory).ending := rfl

theorem output_outcome :
    (call.outcome directory).output = (call.verb.act call.given directory).output := rfl

theorem errors_outcome :
    (call.outcome directory).errors = (call.verb.act call.given directory).errors := rfl

theorem directory_outcome :
    (call.outcome directory).directory = (call.verb.act call.given directory).directory := rfl

theorem code_outcome :
    (call.outcome directory).code = (call.verb.act call.given directory).code := rfl

end Call

namespace Outcome
variable (output errors : Text) (records : List Log.Record) (rest : Outcome)

theorem ending_after : (after output errors records rest).ending = rest.ending := rfl

theorem output_after : (after output errors records rest).output = output ++ rest.output := rfl

theorem errors_after : (after output errors records rest).errors = errors ++ rest.errors := rfl

theorem directory_after : (after output errors records rest).directory = rest.directory := rfl

theorem code_after : (after output errors records rest).code = rest.code := rfl

theorem code_eq_zero_iff {outcome : Outcome} : outcome.code = 0 ↔ outcome.ending = .exit 0 := by
  unfold code
  split <;> simp [*]

end Outcome

def verbCall? (threshold : ℕ) : List Text → Option Call
  | [] => none
  | name :: rest => do
    let verb ← Verb.ofName? name
    let given ← Arguments.read? verb.switches true rest
    if given.has "help" then none else some ⟨verb, given, threshold⟩

/-- The command that a run comes to. -/
def call? (arguments : List Text) (surrounding : Option Text) : Option Call := do
  let main ← Arguments.read? mainSwitches false arguments
  if (asked? main).isSome then none else
    let threshold ← threshold? (main.value? "log-level") surrounding
    verbCall? threshold main.operands

theorem runCommand_cons (name : Text) (rest : List Text) (directory : Directory) :
    runCommand (name :: rest) directory = match Verb.ofName? name with
      | none => runUnknown (name :: rest) directory
      | some verb => match Arguments.read? verb.switches true rest with
        | none => .silent .misuse directory
        | some given =>
          if given.has "help" then .told usage directory else verb.act given directory := by
  rw [runCommand]
  dsimp only
  by_cases hcompose : name = Text.ofString "compose"
  · have hverb : Verb.ofName? name = some .compose := by rw [hcompose]; rfl
    rw [if_pos hcompose, hverb]
    rfl
  · by_cases hrender : name = Text.ofString "render"
    · have hverb : Verb.ofName? name = some .render := by rw [hrender]; rfl
      rw [if_neg hcompose, if_pos hrender, hverb]
      rfl
    · by_cases hinspect : name = Text.ofString "inspect"
      · have hverb : Verb.ofName? name = some .inspect := by rw [hinspect]; rfl
        rw [if_neg hcompose, if_neg hrender, if_pos hinspect, hverb]
        rfl
      · have hverb : Verb.ofName? name = none := by
          simp [Verb.ofName?, Verb.name, hcompose, hrender, hinspect]
        rw [if_neg hcompose, if_neg hrender, if_neg hinspect, hverb]

theorem runCommand_of_verbCall? {threshold : ℕ} {operands : List Text} {call : Call}
    (h : verbCall? threshold operands = some call) (directory : Directory) :
    runCommand operands directory = call.verb.act call.given directory ∧
      call.threshold = threshold := by
  cases operands with
  | nil => cases h
  | cons name rest =>
    obtain ⟨verb, hverb, h⟩ := Option.bind_eq_some_iff.mp h
    obtain ⟨given, hgiven, h⟩ := Option.bind_eq_some_iff.mp h
    split_ifs at h with hhelp
    obtain rfl := Option.some.inj h
    rw [runCommand_cons, hverb]
    dsimp only
    rw [hgiven]
    dsimp only
    rw [if_neg hhelp]
    exact ⟨rfl, rfl⟩

theorem run_of_call? {arguments : List Text} {surrounding : Option Text} {call : Call}
    (h : call? arguments surrounding = some call) (directory : Directory) :
    run arguments surrounding directory = call.outcome directory := by
  obtain ⟨main, hmain, h⟩ := Option.bind_eq_some_iff.mp h
  split_ifs at h with hasked
  obtain ⟨threshold, hthreshold, h⟩ := Option.bind_eq_some_iff.mp h
  obtain ⟨hrun, rfl⟩ := runCommand_of_verbCall? h directory
  rw [Option.not_isSome_iff_eq_none] at hasked
  rw [run, hmain]
  dsimp only
  rw [hasked, hthreshold]
  dsimp only
  rw [hrun, Call.outcome]

end TrioScore.Command
