import Pseudocode.Stepper

/-!
# Debugging sessions

A debugger holds a run at the pauses before its statements and lets a front end decide: one more
statement, run to the end, or stop. Once the run has finished, further actions change nothing.
-/

namespace Pseudocode

/-- What a front end can do. -/
inductive DebugAction where
  | start | step | runOn | stop
  deriving DecidableEq, Repr

/-- The action with the given name; any other name stops the run. -/
def DebugAction.ofName : String → DebugAction
  | "start" => start
  | "step" => step
  | "resume" => runOn
  | _ => stop

/-- Where a debugged run stands. -/
inductive DebugPhase where
  | idle
  | paused (resume : Machine → Run)
  | finished (ending : Except Halt Unit)

/-- A program with the run that is being debugged. -/
structure Debugger where
  program : Block
  machine : Machine := {}
  supply : Supply := {}
  stepping : Bool := true
  phase : DebugPhase := .idle

/-- Answers from the supply until the run pauses before a statement, if it does so, or has ended. -/
def Run.toPause (stepping : Bool) : Run → Supply → DebugPhase × Machine × Supply
  | .finished ending m, s => (.finished ending, m, s)
  | .asking (.began _) m resume, s =>
    if stepping then (.paused (resume (.ok ())), m.atPause, s)
    else (resume (.ok ()) m).toPause stepping s
  | .asking q m resume, s =>
    let (reply, s) := s.reply q
    (resume reply m).toPause stepping s

namespace Debugger

/-- Whether the run waits before a statement. -/
def isPaused (d : Debugger) : Bool :=
  match d.phase with
  | .paused _ => true
  | _ => false

/-- Whether the run has ended. -/
def isFinished (d : Debugger) : Bool :=
  match d.phase with
  | .finished _ => true
  | _ => false

/-- How the run stopped early, if it did. -/
def halt? (d : Debugger) : Option Halt :=
  match d.phase with
  | .finished (.error h) => some h
  | _ => none

/-- Whether the run was cancelled. -/
def isCancelled (d : Debugger) : Bool :=
  match d.halt? with
  | some (.cancelled _) => true
  | _ => false

/-- The fault that ended the run, with its line. -/
def fault? (d : Debugger) : Option (Fault × Int) :=
  match d.halt? with
  | some (.fault cause line) => some (cause, line)
  | _ => none

/-- What the front end shows. -/
def view (d : Debugger) : View :=
  d.machine.view d.isPaused d.isPaused

/-- Goes on until the run pauses or ends. -/
def settle (d : Debugger) (r : Run) : Debugger :=
  let (phase, m, supply) := r.toPause d.stepping d.supply
  { d with machine := m, supply := supply, phase := phase }

/-- Lets the run go on from its pause. -/
def release (d : Debugger) : Debugger :=
  match d.phase with
  | .paused resume => d.settle (resume d.machine)
  | _ => d

/-- Whether an action has any meaning now: the first one starts the run, and after its end there is
nothing left to step or stop. -/
def accepts (d : Debugger) : DebugAction → Bool
  | .start => true
  | _ => d.isPaused

/-- Performs an action and waits until the run pauses again or ends. -/
def act (d : Debugger) : DebugAction → Debugger
  | .start =>
    match d.phase with
    | .idle => d.settle (executeProgram plenty d.program d.machine)
    | _ => d
  | .step => d.release
  | .runOn => { d with stepping := false }.release
  | .stop => { d with machine := { d.machine with cancelRequested := true } }.release

/-- Stops a run that is still paused. -/
def finish (d : Debugger) : Debugger :=
  if d.isPaused then d.act .stop else d

end Debugger

end Pseudocode
