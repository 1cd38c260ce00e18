import Pseudocode.Evaluate

/-!
# Resumable runs

A run of a program is a tree of queries to the host. At each query the run is suspended together
with the machine as it is then; the host may change the machine before it resumes the run with a
reply. A statement announces that it begins and that it has ended; between the two it may hand out
output lines, ask for input and ask for the text of a file. Instead of an answer the host may give a
reason to stop.

`Action` is the type of parts of a run. A part is told what follows it, both where it succeeds and
where it stops early, and so becomes a run from any machine. Steps that need nothing from the host
are lifted into it.
-/

namespace Pseudocode

/-- What a run tells the host or asks it for. -/
inductive Query where
  /-- A statement has been dispatched and is about to be executed. -/
  | began (s : Stmt)
  /-- A statement has been executed without stopping. -/
  | ended (s : Stmt)
  | output (line : String)
  /-- Input for a variable or an element, and the type it is turned into. -/
  | input (label : String) (type : DataType)
  /-- The text of a file that is opened for reading. -/
  | upload (name : String)

/-- The answers to a query: a line of input, the text of a file, else nothing. -/
@[reducible] def Query.Answer : Query → Type
  | .input _ _ => String
  | .upload _ => Upload
  | _ => Unit

/-- The replies to a query: an answer, or why the run is to stop here. -/
abbrev Query.Reply (q : Query) : Type :=
  Except Halt q.Answer

/-- A run: at its end, or suspended at a query. -/
inductive Run where
  | finished (ending : Except Halt Unit) (m : Machine)
  | asking (q : Query) (m : Machine) (resume : q.Reply → Machine → Run)

/-- The machine as the host sees it. -/
def Run.machine : Run → Machine
  | finished _ m => m
  | asking _ m _ => m

/-- A part of a run: from a machine, what follows a success and what follows a stop, to the run. -/
def Action (α : Type) : Type :=
  Machine → (α → Machine → Run) → (Halt → Machine → Run) → Run

namespace Action

variable {α β : Type}

@[always_inline, inline] protected def pure (a : α) : Action α :=
  fun m next _ => next a m

@[always_inline, inline] protected def bind (x : Action α) (f : α → Action β) : Action β :=
  fun m next stop => x m (fun a m => f a m next stop) stop

@[always_inline] instance : Monad Action where
  pure := Action.pure
  bind := Action.bind

/-- A step that needs nothing from the host. -/
@[always_inline, inline] def ofEval (e : Eval α) : Action α := fun m next stop =>
  match e m with
  | .ok a m => next a m
  | .error h m => stop h m

instance : MonadLift Eval Action where
  monadLift := ofEval

/-- Puts a query to the host. -/
def ask (q : Query) : Action q.Answer := fun m next stop =>
  .asking q m fun reply m =>
    match reply with
    | .ok a => next a m
    | .error h => stop h m

/-- Charges what fails inside to the statement at `line`. -/
def located (line : Int) (a : Action α) : Action α := fun m next stop =>
  a m next fun h m =>
    let (h, m) := m.charge line h
    stop h m

/-- Runs `a` inside a call, which is left on every way out. -/
def inCall (f : CallFrame) (a : Action α) : Action α := fun m next stop =>
  match m.checkDepth (m.depth + 1) with
  | .ok _ => a (m.enterCall f) (fun x m => next x (m.leaveCall f)) fun h m => stop h (m.leaveCall f)
  | .error h => stop h m

end Action

end Pseudocode
