import Pseudocode.Host

/-!
# Traces

A trace has a row for each statement that has been executed outside function bodies, in order: its
line, what it is, the global variables after it and the lines it put out. Statements that contain
other statements have no row of their own. Input comes from a list that was given beforehand; asking
for more is a fault.
-/

namespace Pseudocode

/-- The text of a variable that has no value. -/
def unsetText : String := "-"

/-- A row of a trace. -/
structure TraceRow where
  step : Nat
  line : Int
  statement : String
  globals : Table String
  output : List String
  deriving Repr

/-- The lines that a row's statement put out, in one text. -/
def TraceRow.outputText (r : TraceRow) : String :=
  String.intercalate " / " r.output

/-- The name of an array element in a trace. -/
def elementKey (name : String) (indices : List Int) : String :=
  name ++ "[" ++ String.intercalate "," (indices.map toString) ++ "]"

/-- What a trace shows of a variable: a scalar in any case, of an array the assigned elements. -/
def shownCells (name : String) (v : Variable) : Attempt (List (String × String)) := do
  if v.isArray then
    (← v.assignedElements).mapM fun (indices, value) => do
      return (elementKey name indices, ← value.shown)
  else
    match v.held? with
    | some value => return [(name, ← value.shown)]
    | none => return [(name, unsetText)]

/-- The global variables as a trace shows them. Names without a bracket keep the entries apart;
among others a later entry replaces an earlier one. -/
def Memory.snapshot (m : Memory) : Attempt (Table String) := do
  let globals := m.globalVariables
  let cells := (← globals.mapM fun (name, v) => shownCells name v).flatten
  return if globals.all fun (name, _) => !name.toList.contains '[' then ⟨cells⟩
    else Table.ofList cells

/-- A host that records a trace. -/
structure Recorder where
  /-- The inputs that are left. -/
  inputs : List String := []
  /-- How many inputs have been used. -/
  used : Nat := 0
  uploads : String → Upload := fun _ => .unavailable
  /-- The lines that the current statement has put out. -/
  produced : Array String := #[]
  rows : Array TraceRow := #[]
  output : Array String := #[]

namespace Recorder

/-- Adds a row for a statement that has ended. -/
def record (r : Recorder) (m : Machine) (s : Stmt) : Attempt Recorder := do
  if s.form.isCompound then return r
  else
    let globals ← m.memory.snapshot
    let row : TraceRow := ⟨r.rows.size + 1, s.line, s.describe, globals, r.produced.toList⟩
    return { r with rows := r.rows.push row }

/-- The reply to a query, and the recorder after it. -/
def reply (r : Recorder) (m : Machine) : (q : Query) → q.Reply × Recorder
  | .began _ => (.ok (), { r with produced := #[] })
  | .ended s =>
    match r.record m s with
    | .ok r => (.ok (), r)
    | .error h => (.error h, r)
  | .output line =>
    (.ok (), { r with produced := r.produced.push line, output := r.output.push line })
  | .input label _ =>
    match r.inputs with
    | text :: rest => (.ok text, { r with inputs := rest, used := r.used + 1 })
    | [] => (fail (.inputsUsedUp (r.used + 1) label r.used), r)
  | .upload name => (.ok (r.uploads name), r)

/-- The host that records a trace. -/
def host : Host Recorder where
  reply r m q :=
    let (reply, r) := r.reply m q
    (reply, r, m)

end Recorder

/-- Runs a program to its end and records its trace. -/
def traceProgram (program : Block) (m : Machine) (r : Recorder) :
    Except Halt Unit × Machine × Recorder :=
  (executeProgram plenty program { m with takesInput := true }).drain Recorder.host r

end Pseudocode
