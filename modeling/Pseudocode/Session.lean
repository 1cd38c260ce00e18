import Pseudocode.Host

/-!
# Sessions

A session keeps one machine over several runs. A run can be executed to its end, or started and then
pulled line by line; such a run may be closed at any of its lines. Closing leaves every call in
progress and keeps variables and files as they are. A cancellation lasts until the run under way has
ended.
-/

namespace Pseudocode

/-- A run that is pulled line by line. -/
inductive Phase where
  /-- No line has been asked for yet, so nothing has been executed. -/
  | created (program : Block)
  /-- A line has been handed out. -/
  | suspended (resume : Machine → Run)
  | finished

/-- A machine with the run that is pulled, if any. -/
structure Session where
  machine : Machine := {}
  supply : Supply := {}
  phase : Option Phase := none
  running : Bool := false
  stepping : Bool := false

/-- What a pull gives. -/
inductive Pulled where
  | line (text : String)
  | done
  | failed (h : Halt)
  /-- There is nothing to pull from. -/
  | noRun

/-- The machine of a run that is abandoned: all calls are left and no cancellation is pending. -/
def Machine.unwound (m : Machine) : Machine :=
  { m.stack.calls.foldl Machine.leaveCall m with cancelRequested := false }

/-- How far a pull gets: to a line, with the rest of the run, or to the end. -/
inductive Pull where
  | line (text : String) (m : Machine) (resume : Machine → Run)
  | ended (ending : Except Halt Unit) (m : Machine)

/-- Answers from the supply until a line is handed out or the run has ended. -/
def Run.pull : Run → Supply → Pull × Supply
  | .finished ending m, s => (.ended ending m, s)
  | .asking (.output text) m resume, s => (.line text m (resume (.ok ())), s)
  | .asking q m resume, s =>
    let (reply, s) := s.reply q
    (resume reply m).pull s

namespace Session

/-- Abandons the run that is pulled. -/
def close (s : Session) : Session :=
  match s.phase with
  | none => s
  | some (.suspended _) =>
    { s with machine := s.machine.unwound, phase := some .finished, running := false }
  | some _ => { s with phase := some .finished }

/-- Forgets the run that is pulled. -/
def drop (s : Session) : Session :=
  { s.close with phase := none }

/-- Makes a program the one to be pulled. -/
def start (s : Session) (program : Block) : Session :=
  { s with phase := some (.created program) }

/-- Goes on until the next line is handed out. -/
def settle (s : Session) (r : Run) : Pulled × Session :=
  match r.pull s.supply with
  | (.line text m resume, supply) =>
    (.line text, { s with
      machine := m, supply := supply, phase := some (.suspended resume), running := true })
  | (.ended ending m, supply) =>
    let pulled := match ending with
      | .ok _ => .done
      | .error h => .failed h
    (pulled, { s with machine := m, supply := supply, phase := some .finished, running := false })

/-- Pulls the next line. -/
def next (s : Session) : Pulled × Session :=
  match s.phase with
  | none => (.noRun, s)
  | some .finished => (.done, s)
  | some (.created program) => s.settle (executeProgram plenty program s.machine)
  | some (.suspended resume) => s.settle (resume s.machine)

/-- Executes a program to its end; the result is its output and how it stopped early, if it did. -/
def execute (s : Session) (program : Block) : List String × Option Halt × Session :=
  let report := runProgram program s.machine { s.supply with output := #[] }
  let halt := match report.ending with
    | .ok _ => none
    | .error h => some h
  (report.supply.output.toList, halt,
    { s with machine := report.machine, supply := report.supply, running := false })

/-- Asks the run under way, or else the next one, to stop at its next statement. -/
def cancel (s : Session) : Session :=
  { s with machine := { s.machine with cancelRequested := true } }

/-- Stops pausing before statements. -/
def disableStepping (s : Session) : Session :=
  { s with stepping := false }

/-- What a front end shows of a session. -/
def view (s : Session) : View :=
  s.machine.view false s.running

end Session

end Pseudocode
