import Pseudocode.Execute

/-!
# Hosts

A host answers the queries of a run; `Run.drain` lets it answer until the run has ended. The
plainest host has a supply of inputs and files, collects the output and never changes the machine.
-/

namespace Pseudocode

/-- Answers queries, with a state of its own and the chance to change the machine. -/
structure Host (σ : Type) where
  reply : σ → Machine → (q : Query) → q.Reply × σ × Machine

namespace Run

variable {σ : Type}

/-- How a run ends, the machine it leaves and the host's last state. -/
def drain (host : Host σ) : Run → σ → Except Halt Unit × Machine × σ
  | finished ending m, s => (ending, m, s)
  | asking q m resume, s =>
    let (reply, s, m) := host.reply s m q
    drain host (resume reply m) s

/-- As `drain`, for a host that answers with effects of its own. -/
@[specialize] def converse {t : Type → Type} [Monad t]
    (reply : σ → Machine → (q : Query) → t (q.Reply × σ × Machine)) :
    Run → σ → t (Except Halt Unit × Machine × σ)
  | finished ending m, s => pure (ending, m, s)
  | asking q m resume, s => do
    let (answer, s, m) ← reply s m q
    converse reply (resume answer m) s

end Run

/-- Inputs and files for a run, and what has come of it so far. -/
structure Supply where
  /-- The lines that are left for INPUT; after the last one, input is empty. -/
  inputs : List String := []
  uploads : String → Upload := fun _ => .unavailable
  /-- What input was asked for. -/
  requested : Array (String × DataType) := #[]
  output : Array String := #[]

namespace Supply

/-- The reply to a query, and the supply after it. -/
def reply (s : Supply) : (q : Query) → q.Reply × Supply
  | .input label type =>
    let s := { s with requested := s.requested.push (label, type) }
    match s.inputs with
    | [] => (.ok "", s)
    | text :: rest => (.ok text, { s with inputs := rest })
  | .upload name => (.ok (s.uploads name), s)
  | .output line => (.ok (), { s with output := s.output.push line })
  | .began _ => (.ok (), s)
  | .ended _ => (.ok (), s)

/-- The host that answers from a supply. -/
def host : Host Supply where
  reply s m q :=
    let (reply, s) := s.reply q
    (reply, s, m)

end Supply

/-- More steps than any run can take. -/
def plenty : Nat := 1000000000000000000

/-! ## Views -/

/-- What a front end shows of a machine: the line reached, the calls in progress, the global
variables, and whether a run is under way or paused. -/
structure View where
  line : Int
  paused : Bool
  running : Bool
  frames : List CallFrame
  globals : List (String × Variable)

/-- The view of a machine. -/
def Machine.view (m : Machine) (paused running : Bool) : View :=
  ⟨m.stack.line, paused, running, m.stack.frames, m.memory.globalVariables⟩

/-- What is shown of a variable: the value it holds, if there is one, or the assigned elements of an
array in index order. -/
inductive Contents where
  | value (held : Option Value)
  | elements (assigned : List (List Int × Value))
  deriving DecidableEq

/-- The contents of a variable. -/
def Variable.contents (v : Variable) : Attempt Contents := do
  if v.isArray then return .elements (← v.assignedElements) else return .value v.held?

/-- A variable as it is shown. -/
structure Shown where
  name : String
  type : DataType
  contents : Contents
  /-- Whether a value has been assigned to it as a whole. -/
  assigned : Bool
  deriving DecidableEq

/-- The variable of a name as it is shown. -/
def Variable.display (name : String) (v : Variable) : Attempt Shown := do
  return ⟨name, v.type, ← v.contents, v.held?.isSome⟩

/-- Variables as they are shown, with their names. -/
def displayAll (named : List (String × Variable)) : Attempt (List Shown) :=
  named.mapM fun (name, v) => v.display name

/-- The global variables of a view as they are shown. -/
def View.shown (v : View) : Attempt (List Shown) :=
  displayAll v.globals

/-! ## Whole runs -/

/-- What has come of a run. -/
structure Report where
  ending : Except Halt Unit
  machine : Machine
  supply : Supply

/-- Runs a program to its end, or until it would follow something more than `bound` deep. -/
def runWithin (bound : Nat) (program : Block) (m : Machine) (s : Supply) : Report :=
  let (ending, m, s) := (executeProgram bound program m).drain Supply.host s
  ⟨ending, m, s⟩

/-- Runs a program to its end. -/
def runProgram (program : Block) (m : Machine) (s : Supply) : Report :=
  runWithin plenty program m s

end Pseudocode
