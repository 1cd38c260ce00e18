import Pseudocode.Console.Arguments
import Pseudocode.Console.Path
import Pseudocode.Console.Terminal
import Pseudocode.Diagnostics
import Pseudocode.Stepper

/-!
# The command line

Runs, traces, steps through or checks the program in a file; without a file, runs one program per
line that is typed. Notes of the journal are shown among the warnings if the options ask for them.
-/

namespace Pseudocode.Console

open Terminal

/-- How a command ends. -/
inductive Exit where
  | status (code : Nat)
  /-- The arguments were not followed. -/
  | refused (r : Refusal)
  /-- A program stopped in a way the language has no word for. -/
  | broken (b : Breakdown)
  | exhausted
  deriving DecidableEq, Repr

variable {t : Type → Type} [Monad t] [Terminal t] (o : Options)

/-! ## Notes -/

/-- Shows a note if it is wanted. -/
def showNote (n : Note) : t Unit :=
  if o.shows n.level then warn n.entry else pure ()

/-- Shows the notes of a machine, oldest first, and takes them off it. -/
def showJournal (m : Machine) : t Machine := do
  m.journal.reverse.forM (showNote o)
  return { m with journal := [] }

/-- The notes that are made when a source is read. -/
def readingNotes (filename source : String) : List Note :=
  match tokenize source with
  | .error e => [.scanFailed e.position.line e.position.column e.cause.message]
  | .ok tokens =>
    .scanned filename tokens.length ::
      match parseTokens tokens with
      | .ok program => [.parsed program.length]
      | .error _ => []

/-! ## Answering a run -/

/-- The text of a file that a program opens, from the folder the options name. -/
def uploadFile (name : String) : t (Attempt Upload) := do
  match o.folder? with
  | none => return .ok .unavailable
  | some folder =>
    let path := ((Path.ofString folder).join name).text
    match ← textAt path with
    | .text text => return .ok (.provided (String.ofList (Text.unifyBreaks text.toList)))
    | .nothing =>
      showNote o (.noFile path)
      return .ok .missing
    | .nameTooLong => return breakDown .nameTooLong

/-- The state of a console that a program runs on: the inputs that are left, and whether it
pauses. -/
structure Desk where
  queued : List String := []
  stepping : Bool := false

/-- A line about a variable. -/
def variableLine (name : String) (v : Variable) : Attempt String := do
  let value ← match v.held? with
    | some value => value.stored
    | none => pure "<unassigned>"
  return s!"  {name} : {v.type.name} = {value}"

/-- Shows variables, up to the first one that cannot be shown. -/
def showVariables : List (String × Variable) → t (Attempt Unit)
  | [] => return .ok ()
  | (name, v) :: rest => do
    match variableLine name v with
    | .ok line =>
      putLine line
      showVariables rest
    | .error h => return .error h

/-- Asks what to do at a pause until there is an answer. -/
def askCommand (view : View) : Nat → t (Attempt StepCommand)
  | 0 => return .ok .step
  | n + 1 => do
    match ← ask s!"[line {view.line}] step> " with
    | none => return .ok .runOn
    | some line =>
      match Text.lower (Text.trim line) with
      | "" => return .ok .step
      | "continue" | "c" => return .ok .runOn
      | "stop" => return .ok .cancel
      | "vars" =>
        match ← showVariables view.globals with
        | .ok _ => askCommand view n
        | .error h => return .error h
      | _ =>
        putLine "  Enter = step, c/continue = run to end, stop, vars"
        askCommand view n

/-- Pauses before a statement. -/
def pauseAt (d : Desk) (m : Machine) : t (Attempt Unit × Desk × Machine) := do
  let m ← showJournal o m.atPause
  match ← askCommand (m.view true true) plenty with
  | .ok .step => return (.ok (), d, m)
  | .ok .runOn => return (.ok (), { d with stepping := false }, m)
  | .ok .cancel => return (.ok (), d, { m with cancelRequested := true })
  | .error h => return (.error h, d, m)

/-- Answers a query at the console. -/
def answerQuery (d : Desk) (m : Machine) : (q : Query) → t (q.Reply × Desk × Machine)
  | .began _ => if d.stepping then pauseAt o d m else return (.ok (), d, m)
  | .ended _ => return (.ok (), d, m)
  | .output line => do
    putLine line
    return (.ok (), d, m)
  | .input label type => do
    match d.queued with
    | text :: rest => return (.ok text, { d with queued := rest }, m)
    | [] =>
      match ← ask s!"{label} ({type.name}): " with
      | some text => return (.ok text, d, m)
      | none => return (fail (.inputEnded label), d, m)
  | .upload name => do return (← uploadFile o name, d, m)

/-- Answers a query while a trace is recorded. -/
def answerTraced (r : Recorder) (m : Machine) : (q : Query) → t (q.Reply × Recorder × Machine)
  | .upload name => do return (← uploadFile o name, r, m)
  | .output line => do
    putLine line
    let (reply, r) := r.reply m (.output line)
    return (reply, r, m)
  | q =>
    let (reply, r) := r.reply m q
    return (reply, r, m)

/-- Lets a run talk to the console; notes are shown as they are made. -/
@[specialize] def converseWith {σ : Type}
    (answer : σ → Machine → (q : Query) → t (q.Reply × σ × Machine)) (r : Run) (s : σ) :
    t (Except Halt Unit × Machine × σ) :=
  r.converse (fun s m q => do answer s (← showJournal o m) q) s

/-! ## Commands -/

/-- Says how a run ended. -/
def reportEnding (ending : Except Halt Unit) (m : Machine) : t Exit := do
  let _ ← showJournal o m
  match ending with
  | .ok _ => return .status 0
  | .error (.fault cause line) =>
    warn s!"Runtime Error at line {line}: {cause.message}"
    return .status 1
  | .error (.cancelled _) =>
    warn "Execution cancelled"
    return .status 1
  | .error (.breakdown b) => return .broken b
  | .error .exhausted => return .exhausted

/-- Says why a source is no program. -/
def reportSource (filename source : String) (e : SourceError) : t Exit := do
  match e with
  | .unreadableNumber | .numberWithoutText => return .broken .tooManyDigits
  | .exhausted => return .exhausted
  | e =>
    warn s!"Syntax Error at line {e.line}: {e.message filename source}"
    return .status 1

/-- Runs a program and then shows its trace. -/
def traceCommand (program : Block) (m : Machine) (inputs : List String) : t Exit := do
  let r : Recorder := { inputs := inputs }
  let (ending, m, r) ← converseWith o (answerTraced o) (executeProgram plenty program m) r
  match ← reportEnding o ending m with
  | .status code =>
    match o.traceFormat with
    | some format =>
      putLine (formatTrace format r.rows.toList)
      return .status code
    | none => return .broken .formatVoid
  | exit => return exit

/-- Runs a program. -/
def plainCommand (program : Block) (m : Machine) (inputs : List String) : t Exit := do
  let d : Desk := { queued := inputs, stepping := o.mode = .step }
  let (ending, m, _) ← converseWith o (answerQuery o) (executeProgram plenty program m) d
  reportEnding o ending m

/-- Runs the program that a source spells. -/
def runCommand (filename source : String) : t Exit := do
  (readingNotes filename source).forM (showNote o)
  match parseSource source, o.queuedInputs with
  | .error e, _ => reportSource filename source e
  | .ok _, .error h => reportEnding o (.error h) {}
  | .ok program, .ok inputs =>
    let m : Machine := { settings := o.settings, takesInput := true, random := .splitMix 0 }
    if o.mode = .dryRun then traceCommand o program m inputs else plainCommand o program m inputs

/-- Checks a source without running it. -/
def checkCommand (filename source : String) : t Exit := do
  let blank := (Text.trimChars source.toList).isEmpty
  if !blank then (readingNotes filename source).forM (showNote o)
  match diagnose filename source with
  | .error e => reportSource filename source e
  | .ok [] =>
    putLine "No syntax errors"
    return .status 0
  | .ok found =>
    found.forM fun d => showNote o (.invalid d.message)
    found.forM fun d => putLine s!"Line {d.line}: {d.message}"
    return .status 1

/-- Runs one program per line that is typed. -/
def converseCommand : Nat → t Exit
  | 0 => return .exhausted
  | n + 1 => do
    match ← ask ">>> " with
    | none => return .status 0
    | some line =>
      if Text.lower (Text.trim line) = "exit" then return .status 0
      else if (Text.trimChars line.toList).isEmpty then converseCommand n
      else
        match ← runCommand o "<stdin>" line with
        | .status _ => converseCommand n
        | exit => return exit

/-- Does what the options ask for. -/
def carryOut : t Exit := do
  match o.program with
  | none | some "" =>
    putLine "IGCSE Pseudocode Interpreter (Type 'exit' to quit)"
    converseCommand o plenty
  | some name =>
    let path := (Path.ofString name).text
    match ← textAt path with
    | .nameTooLong => return .broken .nameTooLong
    | .nothing =>
      warn s!"Error: file {path} not found"
      return .status 1
    | .text text =>
      let source := String.ofList (Text.unifyBreaks text.toList)
      if o.mode = .check then checkCommand o path source else runCommand o path source

/-- The command with the given arguments. -/
def command (arguments : List String) : t Exit := do
  match readArguments arguments with
  | .ok o => carryOut o
  | .error r => return .refused r

end Pseudocode.Console
