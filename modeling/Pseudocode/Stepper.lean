import Pseudocode.Host

/-!
# Stepping

A stepper pauses a run before every statement outside function bodies, looks at the machine, and
takes a command: go on to the next statement, run to the end without pausing, or cancel the run.
-/

namespace Pseudocode

/-- The answer to a pause. -/
inductive StepCommand where
  | step | runOn | cancel
  deriving DecidableEq, Repr

/-- The command with the given name; any other name is a step. -/
def StepCommand.ofName : String → StepCommand
  | "continue" => runOn
  | "cancel" => cancel
  | _ => step

/-- A pause: what was to be seen, how many lines had been put out, and the answer. -/
structure Pause where
  view : View
  printed : Nat
  command : StepCommand

/-- A host that answers pauses from a list of commands. -/
structure Stepper where
  supply : Supply := {}
  /-- Whether the run still pauses. -/
  stepping : Bool := true
  commands : List StepCommand := []
  /-- The answer after the last command. -/
  usual : StepCommand := .step
  pauses : Array Pause := #[]

/-- The machine at a pause before the current statement. -/
def Machine.atPause (m : Machine) : Machine :=
  m.note (.paused m.line)

namespace Stepper

/-- Takes a command at a pause. -/
def pause (s : Stepper) (m : Machine) : Stepper × Machine :=
  let m := m.atPause
  let command := s.commands.head?.getD s.usual
  let s := { s with
    commands := s.commands.drop 1
    pauses := s.pauses.push ⟨m.view true true, s.supply.output.size, command⟩ }
  match command with
  | .step => (s, m)
  | .runOn => ({ s with stepping := false }, m)
  | .cancel => (s, { m with cancelRequested := true })

/-- The host that pauses before statements as long as it is stepping. -/
def host : Host Stepper where
  reply s m
    | .began _ => let (s, m) := if s.stepping then s.pause m else (s, m); (.ok (), s, m)
    | q =>
      let (reply, supply) := s.supply.reply q
      (reply, { s with supply := supply }, m)

end Stepper

/-- Steps through a program. -/
def stepProgram (program : Block) (m : Machine) (s : Stepper) :
    Except Halt Unit × Machine × Stepper :=
  (executeProgram plenty program m).drain Stepper.host s

end Pseudocode
