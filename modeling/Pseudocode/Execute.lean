import Pseudocode.Run

/-!
# Execution of programs

The statements of a program and of its procedures are executed as a run that talks to the host. Each
is dispatched, announced, executed and announced again. What fails in it is charged to its line,
unless it is charged to a statement inside it already. A program first makes its procedures and
functions known, wherever they stand, and then executes its other statements in order.
-/

namespace Pseudocode

open Eval

variable (expr : Scope → Expr → Eval Value)

/-! ## Input, output and files -/

/-- A line of output: the texts of the values with a blank between them. -/
def outputLine (scope : Scope) (values : List Expr) : Eval String := do
  let texts ← values.mapM fun e => do attempt (← expr scope e).shown
  return String.intercalate " " texts

/-- The name of a file. -/
def fileName (scope : Scope) (e : Expr) : Eval String := do
  attempt (← expr scope e).shown

/-- An operation on the files that gives a result. -/
def onFiles {α : Type} (f : FileTable → Except FileFault (α × FileTable)) : Eval α := do
  match f (← get).files with
  | .ok (a, files) =>
    modify fun m => { m with files := files }
    return a
  | .error cause => fault (.file cause)

/-- Writes a note in the journal. -/
def note (n : Note) : Eval Unit :=
  modify (·.note n)

/-- INPUT. The line is shown after it has been stored. -/
def performInput (scope : Scope) (t : Target) : Action Unit := do
  if (← (get : Eval Machine)).takesInput then
    let d ← (resolveTarget expr scope t : Eval Destination)
    let type ← (d.inputType : Eval DataType)
    let text ← Action.ask (.input d.label type)
    (do d.store (← attempt (Value.ofText type text)) : Eval Unit)
    Action.ask (.output text)
  else (fault .noInput : Eval Unit)

/-- The text of a file that is opened and not known yet; the host is asked for it. -/
def obtainUpload (name mode : String) : Action Upload := do
  if (← (get : Eval Machine)).files.wantsUpload name mode then Action.ask (.upload name)
  else return .missing

/-- OPENFILE. -/
def performOpen (scope : Scope) (name : Expr) (mode : String) : Action Unit := do
  let name ← (fileName expr scope name : Eval String)
  let upload ← obtainUpload name mode
  let h ← (onFiles (·.openAs name mode upload) : Eval FileHandle)
  (note (.opened name h.mode.name h.lines.size) : Eval Unit)
  Action.ask (.output (openedLine name h))

/-- CLOSEFILE. -/
def performClose (scope : Scope) (name : Expr) : Action Unit := do
  let name ← (fileName expr scope name : Eval String)
  let h ← (onFiles (·.close name) : Eval FileHandle)
  let n := match h.mode with
    | .read => Note.closedRead name
    | _ => Note.closedWritten name h.lines.size
  (note n : Eval Unit)
  Action.ask (.output (closedLine name h))

/-- READFILE. The line is read before its target is looked up. -/
def performRead (scope : Scope) (name : Expr) (t : Target) : Action Unit := do
  let line ← (do
    let name ← fileName expr scope name
    let line ← onFiles (·.next name)
    let d ← resolveTarget expr scope t
    d.store (← attempt (Value.ofText (← d.inputType) line))
    return line : Eval String)
  Action.ask (.output line)

/-- WRITEFILE. -/
def performWrite (scope : Scope) (name data : Expr) : Action Unit := do
  let (name, data) ← (do
    let name ← fileName expr scope name
    let data ← attempt (← expr scope data).shown
    onFiles fun t => (t.write name data).map fun t => ((), t)
    return (name, data) : Eval (String × String))
  if (← (get : Eval Machine)).settings.echoWrites then Action.ask (.output (writtenLine name data))
  else return ()

/-! ## Blocks, loops and calls -/

/-- Executes the statements of a block in order. -/
def executeBlock (stmt : Scope → Stmt → Action Scope) : Scope → Block → Action Scope
  | scope, [] => return scope
  | scope, s :: rest => do executeBlock stmt (← stmt scope s) rest

/-- WHILE, for at most the given number of rounds. -/
def executeWhile (test : Scope → Eval Bool) (body : Scope → Action Scope) :
    Nat → Scope → Action Scope
  | 0, _ => (throw .exhausted : Eval Scope)
  | n + 1, scope => do
    if ← test scope then executeWhile test body n (← body scope) else return scope

/-- REPEAT, for at most the given number of rounds. -/
def executeRepeat (test : Scope → Eval Bool) (body : Scope → Action Scope) :
    Nat → Scope → Action Scope
  | 0, _ => (throw .exhausted : Eval Scope)
  | n + 1, scope => do
    let scope ← body scope
    if ← test scope then return scope else executeRepeat test body n scope

/-- FOR, for at most the given number of rounds. -/
def executeFor (c : Counter) (body : Scope → Action Scope) : Nat → Scope → Action Scope
  | 0, _ => (throw .exhausted : Eval Scope)
  | n + 1, scope => do
    if ← (c.continues : Eval Bool) then
      let scope ← body scope
      (c.advance : Eval Unit)
      executeFor c body n scope
    else return scope

/-- CALL. -/
def performCall (block : Scope → Block → Action Scope) (scope : Scope) (name : String)
    (arguments : List Expr) (line : Int) : Action Unit := do
  let m ← (get : Eval Machine)
  match m.procedures.find? name with
  | some p =>
    if arguments.length ≠ p.params.length then (fault (.procedureArguments p.name) : Eval Unit)
    else
      Action.inCall ⟨p.name, line, .procedure⟩ do
        let callee ← (bindArguments expr scope freshScope p.params arguments : Eval Scope)
        let _ ← block callee p.body
        return ()
  | none =>
    if m.functions.contains name then (fault (.functionNeedsAssignment name) : Eval Unit)
    else (fault (.procedureNotFound name) : Eval Unit)

/-- Executes the form of a statement. -/
def perform (block : Scope → Block → Action Scope) (bound : Nat) (scope : Scope) (line : Int) :
    Form → Action Scope
  | .declare name typeName shape => (performDeclare scope name typeName shape : Eval Scope)
  | .assign t value => do
    (performAssign expr scope t value : Eval Unit)
    return scope
  | .output values => do
    let text ← (outputLine expr scope values : Eval String)
    Action.ask (.output text)
    return scope
  | .input t => do
    performInput expr scope t
    return scope
  | .ifThen test body elseIfs otherwise => do
    block scope (← (chooseIf expr scope test body elseIfs otherwise : Eval Block))
  | .caseOf selector branches otherwise => do
    block scope (← (chooseCase expr scope selector branches otherwise : Eval Block))
  | .whileDo test body =>
    executeWhile (fun scope => condition expr scope "WHILE" test) (fun scope => block scope body)
      bound scope
  | .repeatUntil body test =>
    executeRepeat (fun scope => condition expr scope "UNTIL" test) (fun scope => block scope body)
      bound scope
  | .forTo name start stop step body => do
    let (c, scope) ← (startFor expr scope name start stop step : Eval (Counter × Scope))
    executeFor c (fun scope => block scope body) bound scope
  | .call name arguments => do
    performCall expr block scope name arguments line
    return scope
  | .fileOpen name mode => do
    performOpen expr scope name mode
    return scope
  | .fileClose name => do
    performClose expr scope name
    return scope
  | .fileRead name t => do
    performRead expr scope name t
    return scope
  | .fileWrite name data => do
    performWrite expr scope name data
    return scope
  | .returnValue _ => (fault .returnOutsideFunction : Eval Scope)
  | .inert kind => (fault (.inertStatement kind) : Eval Scope)
  | form => do
    (modify (·.register form) : Eval Unit)
    return scope

/-- Executes the form of a statement and charges what fails inside to its line. -/
def performLocated (block : Scope → Block → Action Scope) (bound : Nat)
    (scope : Scope) (line : Int) :
    Form → Action Scope
  | .inert kind => (throw (.fault (.inertStatement kind) line) : Eval Scope)
  | form => Action.located line (perform expr block bound scope line form)

/-- Dispatches and executes a statement. -/
def executeDispatched (block : Scope → Block → Action Scope) (bound : Nat) (scope : Scope)
    (s : Stmt) : Action Scope := do
  (dispatch s.line : Eval Unit)
  Action.ask (.began s)
  (checkCancelled : Eval Unit)
  let scope ← performLocated expr block bound scope s.line s.form
  Action.ask (.ended s)
  return scope

/-- Executes a statement. -/
def execute : Nat → Scope → Stmt → Action Scope
  | 0, _, _ => (throw .exhausted : Eval Scope)
  | n + 1, scope, s => executeDispatched (evaluate n) (executeBlock (execute n)) n scope s

/-- A machine on which a program is about to be executed. -/
def Machine.rewound (m : Machine) : Machine :=
  { m with dispatches := 0, depth := 0, stack := {} }

/-- Makes the procedures and functions of a block known. -/
def Machine.registerAll (m : Machine) (program : Block) : Machine :=
  program.foldl (fun m s => m.register s.form) m

/-- A machine on which a run has ended in any way: no cancellation is pending. -/
def Machine.settled (m : Machine) : Machine :=
  { m with cancelRequested := false }

/-- Executes a program. -/
def executeProgram (bound : Nat) (program : Block) (m : Machine) : Run :=
  executeBlock (execute bound) .global (program.filter fun s => !s.form.isDefinition)
    (m.rewound.registerAll program) (fun _ m => .finished (.ok ()) m.settled)
    fun h m => .finished (.error h) m.settled

end Pseudocode
