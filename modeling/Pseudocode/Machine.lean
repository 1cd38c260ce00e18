import Pseudocode.Builtin
import Pseudocode.Journal
import Pseudocode.Memory
import Pseudocode.Number.Random
import Pseudocode.Tree

/-!
# The machine

The state of a program between two steps: its variables and files, the procedures and functions
known so far, the calls in progress, and the counters that guard against runs without end. `Eval` is
the type of steps that need nothing from the host: they change the machine and give a value or stop.
-/

namespace Pseudocode

/-- How far a count may go. -/
inductive Limit where
  | atMost (n : Int)
  | endless
  /-- Something that no count can be compared with. -/
  | unusable
  deriving DecidableEq, Repr

/-- The limit that a real number sets. Counts are whole, so only its floor matters; a limit that is
no number allows every count. -/
def Limit.ofReal (x : Float) : Limit :=
  match (Numeric.real x).floor with
  | .ok n => atMost n
  | .error _ => if x < 0 then atMost (-1) else endless

/-- Whether a count is within a limit. -/
def Limit.allows (l : Limit) (count : Nat) : Attempt Bool :=
  match l with
  | atMost n => .ok (count ≤ n)
  | endless => .ok true
  | unusable => breakDown .unusableLimit

/-- Limits and switches of a run. -/
structure Settings where
  /-- The most statements a run may dispatch. -/
  maxDispatches : Limit := .atMost 10000
  /-- The most calls that may be in progress at once. -/
  maxDepth : Limit := .atMost 1000
  /-- The most calls that the host can hold at once, whatever `maxDepth` allows. -/
  nestingLimit : Nat := 2500
  /-- Whether written lines are also shown. -/
  echoWrites : Bool := true
  /-- Whether a run starts out pausing before each statement. -/
  stepping : Bool := false
  deriving DecidableEq, Repr

/-- What a call frame belongs to. -/
inductive FrameKind where
  | main | procedure | function
  deriving DecidableEq, Repr

def FrameKind.name : FrameKind → String
  | main => "main" | procedure => "procedure" | function => "function"

/-- A call in progress and the line it has reached. -/
structure CallFrame where
  name : String
  line : Int
  kind : FrameKind
  deriving DecidableEq, Repr

/-- The calls in progress, innermost first, above the main program. -/
structure CallStack where
  mainLine : Int := 1
  calls : List CallFrame := []
  deriving DecidableEq, Repr

namespace CallStack

/-- All frames, outermost first. -/
def frames (s : CallStack) : List CallFrame :=
  ⟨"main", s.mainLine, .main⟩ :: s.calls.reverse

/-- The line that the innermost frame has reached. -/
def line (s : CallStack) : Int :=
  match s.calls with
  | [] => s.mainLine
  | f :: _ => f.line

/-- The innermost frame has reached another line. -/
def atLine (s : CallStack) (line : Int) : CallStack :=
  match s.calls with
  | [] => { s with mainLine := line }
  | f :: rest => { s with calls := { f with line := line } :: rest }

def push (s : CallStack) (f : CallFrame) : CallStack :=
  { s with calls := f :: s.calls }

def pop (s : CallStack) : CallStack :=
  { s with calls := s.calls.drop 1 }

end CallStack

/-- A procedure or function: its parameters and its body. -/
structure Routine where
  name : String
  params : List Param
  body : Block

/-- The state of a program. -/
structure Machine where
  settings : Settings := {}
  /-- Whether the host answers INPUT. -/
  takesInput : Bool := false
  memory : Memory := {}
  files : FileTable := {}
  procedures : Table Routine := {}
  functions : Table Routine := {}
  stack : CallStack := {}
  /-- The number of calls in progress. -/
  depth : Nat := 0
  /-- The number of statements dispatched in this run. -/
  dispatches : Nat := 0
  /-- The line of the statement dispatched last. -/
  line : Int := 0
  cancelRequested : Bool := false
  random : Number.Generator := {}
  /-- Notes since the host last took them, newest first. -/
  journal : List Note := []

/-- Steps that need nothing from the host. -/
abbrev Eval (α : Type) := EStateM Halt Machine α

namespace Machine

def note (m : Machine) (n : Note) : Machine :=
  { m with journal := n :: m.journal }

/-- Makes a procedure or function known; a later one of the same name replaces an earlier one. -/
def register (m : Machine) : Form → Machine
  | .procedure name params body =>
    { m with procedures := m.procedures.insert name ⟨name, params, body⟩ }.note
      (.registered "PROCEDURE" name)
  | .function name params _ body =>
    { m with functions := m.functions.insert name ⟨name, params, body⟩ }.note
      (.registered "FUNCTION" name)
  | _ => m

/-- Charges a fault to the statement at `line`, unless it is charged to one already. -/
def charge (m : Machine) (line : Int) (h : Halt) : Halt × Machine :=
  match h with
  | .fault cause 0 => (.fault cause line, m.note (.failed line cause.message))
  | h => (h, m)

/-- Fails if `depth` calls in progress are too many. -/
def checkDepth (m : Machine) (depth : Nat) : Attempt Unit := do
  if (← m.settings.maxDepth.allows depth) && depth ≤ m.settings.nestingLimit then return ()
  else fail .depthLimit

/-- The machine inside a new call. -/
def enterCall (m : Machine) (f : CallFrame) : Machine :=
  { m with depth := m.depth + 1, stack := m.stack.push f }.note
    (.entered f.kind.name f.name (m.depth + 1))

/-- The machine after a call has ended in any way. -/
def leaveCall (m : Machine) (f : CallFrame) : Machine :=
  { m with depth := m.depth - 1, stack := m.stack.pop }.note (.left f.kind.name f.name)

end Machine

namespace Eval

variable {α : Type}

/-- A computation that does not touch the machine. -/
def attempt (a : Attempt α) : Eval α :=
  match a with
  | .ok x => pure x
  | .error h => throw h

/-- Stops with a fault that is charged to no statement yet. -/
def fault (cause : Fault) : Eval α :=
  throw (.fault cause 0)

/-- Stops if the host has cancelled the run. -/
def checkCancelled : Eval Unit := do
  let m ← get
  if m.cancelRequested then throw (.cancelled m.line)
  else return ()

/-- Counts a statement and makes its line current. The count is checked before a cancellation. -/
def dispatch (line : Int) : Eval Unit := do
  modify fun m => { m with dispatches := m.dispatches + 1 }
  let m ← get
  if ← attempt (m.settings.maxDispatches.allows m.dispatches) then
    checkCancelled
    set { m with line := line, stack := m.stack.atLine line }
  else throw (.fault .dispatchLimit line)

/-- Charges what fails inside to the statement at `line`. -/
def located (line : Int) (e : Eval α) : Eval α := fun m =>
  match e m with
  | .ok a m => .ok a m
  | .error h m =>
    let (h, m) := m.charge line h
    .error h m

/-- Runs `e` inside a call, which is left on every way out. -/
def inCall (f : CallFrame) (e : Eval α) : Eval α := fun m =>
  match m.checkDepth (m.depth + 1) with
  | .ok _ =>
    match e (m.enterCall f) with
    | .ok a m => .ok a (m.leaveCall f)
    | .error h m => .error h (m.leaveCall f)
  | .error h => .error h m

end Eval

end Pseudocode
