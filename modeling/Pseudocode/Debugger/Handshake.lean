import Pseudocode.Debugger

/-!
# The handshake of a debugging session

A debugged program is executed by a worker, while a front end decides at its pauses. The two share
three flags. The worker raises `paused` when it has come to a pause, and waits for `released`, which
it takes down again before it goes on; at the end of the run it raises `finished`, and `paused` once
more for whoever waits for a pause. The front end waits for `paused`, possibly for a limited time,
and then looks at `paused` and `finished` to tell a pause from the end. To let the run go on it
takes `paused` down and raises `released`.

Either party does one thing at a time, and anything can happen between two things that it does.
`Handshake.step` is one thing that a party does, if it can; a session is any sequence of steps. A
front end gives a command only when it has been told of a pause, and then one: to be told twice of
the same pause does not entitle it to two.
-/

namespace Pseudocode

/-- Where the worker stands. -/
inductive Worker where
  | unstarted (program : Block) (m : Machine)
  | running (r : Run)
  /-- Before a statement, and about to say so. -/
  | pausing (m : Machine) (resume : Machine → Run)
  /-- It has said so, and waits until it is released. -/
  | waiting (m : Machine) (resume : Machine → Run)
  /-- It has been released; the flag for it is still up. -/
  | woken (m : Machine) (resume : Machine → Run)
  /-- The run is over, and about to be reported so. -/
  | ended (ending : Except Halt Unit) (m : Machine)
  /-- The run has been reported over; who waits for a pause has still to be told. -/
  | closing (ending : Except Halt Unit) (m : Machine)
  | gone (ending : Except Halt Unit) (m : Machine)

/-- Where the front end stands. -/
inductive FrontEnd where
  | free
  /-- It waits for the run to pause. -/
  | awaiting
  /-- The wait is over; is there a pause or an end? -/
  | looking
  /-- There is; is it the end? -/
  | checking
  /-- It has been told of a pause and has not answered yet. -/
  | granted
  /-- It has decided what to do. -/
  | preparing (c : StepCommand)
  | clearing (c : StepCommand)
  | raising (c : StepCommand)
  deriving DecidableEq, Repr

/-- What a front end may do next: the rest of what it is doing, or something new. -/
inductive FrontMove where
  | start
  | await
  /-- The time for waiting is over. -/
  | timeOut
  | goOn
  | issue (c : StepCommand)
  deriving DecidableEq, Repr

/-- Who moves next. -/
inductive Move where
  | worker
  | front (a : FrontMove)
  deriving DecidableEq, Repr

/-- What has happened in a session. -/
inductive SessionEvent where
  | started
  /-- The worker says that it has come to a pause. -/
  | announced
  /-- The worker goes on with the statement that it paused before. -/
  | ran
  /-- The worker goes on with a statement without a pause. -/
  | passed
  /-- The worker is released. -/
  | raised (c : StepCommand)
  /-- The wait for a pause has given an answer. -/
  | told (found : Bool)
  deriving DecidableEq, Repr

/-- A debugging session: the two parties and what they share, and what has happened so far, latest
first. -/
structure Handshake where
  worker : Worker
  front : FrontEnd := .free
  paused : Bool := false
  released : Bool := false
  finished : Bool := false
  stepping : Bool := true
  supply : Supply := {}
  log : List SessionEvent := []

/-- Asks the run to stop at its next statement. -/
def Worker.cancel : Worker → Worker
  | unstarted program m => unstarted program { m with cancelRequested := true }
  | running (.asking q m resume) => running (.asking q { m with cancelRequested := true } resume)
  | pausing m resume => pausing { m with cancelRequested := true } resume
  | waiting m resume => waiting { m with cancelRequested := true } resume
  | woken m resume => woken { m with cancelRequested := true } resume
  | w => w

namespace Handshake

/-- A session that has not been started. -/
def opened (program : Block) (m : Machine) (supply : Supply) : Handshake where
  worker := .unstarted program m
  supply := supply

def record (h : Handshake) (e : SessionEvent) : Handshake :=
  { h with log := e :: h.log }

/-- The worker goes on with its run, up to the next query. -/
def advance (h : Handshake) : Run → Handshake
  | .finished ending m => { h with worker := .ended ending m }
  | .asking (.began _) m resume =>
    if h.stepping then { h with worker := .pausing m.atPause (resume (.ok ())) }
    else { h with worker := .running (resume (.ok ()) m) }.record .passed
  | .asking q m resume =>
    let (reply, supply) := h.supply.reply q
    { h with worker := .running (resume reply m), supply := supply }

/-- What the worker does next, unless it has to wait or is gone. -/
def work (h : Handshake) : Option Handshake :=
  match h.worker with
  | .unstarted _ _ => none
  | .running r => some (h.advance r)
  | .pausing m resume =>
    some ({ h with worker := .waiting m resume, paused := true }.record .announced)
  | .waiting m resume =>
    if h.released then some { h with worker := .woken m resume } else none
  | .woken m resume =>
    some ({ h with worker := .running (resume m), released := false }.record .ran)
  | .ended ending m => some { h with worker := .closing ending m, finished := true }
  | .closing ending m => some { h with worker := .gone ending m, paused := true }
  | .gone _ _ => none

/-- What comes of a decision before the worker is released. -/
def prepare (h : Handshake) : StepCommand → Handshake
  | .step => h
  | .runOn => { h with stepping := false }
  | .cancel => { h with worker := h.worker.cancel }

/-- The rest of what the front end is doing, unless it has to wait. -/
def goOn (h : Handshake) : Option Handshake :=
  match h.front with
  | .awaiting => if h.paused then some { h with front := .looking } else none
  | .looking =>
    if h.paused then some { h with front := .checking }
    else some ({ h with front := .free }.record (.told false))
  | .checking =>
    if h.finished then some ({ h with front := .free }.record (.told false))
    else some ({ h with front := .granted }.record (.told true))
  | .preparing c => some { h.prepare c with front := .clearing c }
  | .clearing c => some { h with front := .raising c, paused := false }
  | .raising c => some ({ h with front := .free, released := true }.record (.raised c))
  | _ => none

/-- Starts the worker, unless it has been started already. -/
def start (h : Handshake) : Handshake :=
  match h.worker with
  | .unstarted program m =>
    { h with worker := .running (executeProgram plenty program m) }.record .started
  | _ => h

/-- What the front end does next, if it may. -/
def attend (h : Handshake) : FrontMove → Option Handshake
  | .goOn => h.goOn
  | .start =>
    match h.front with
    | .free => some h.start
    | _ => none
  | .await =>
    match h.front with
    | .free | .granted => some { h with front := .awaiting }
    | _ => none
  | .timeOut =>
    match h.front with
    | .awaiting => some { h with front := .looking }
    | _ => none
  | .issue c =>
    match h.front with
    | .granted => some { h with front := .preparing c }
    | _ => none

/-- One step of a session. -/
def step (h : Handshake) : Move → Option Handshake
  | .worker => h.work
  | .front a => h.attend a

/-- A session after some steps, if they can be taken. -/
def follow (h : Handshake) (moves : List Move) : Option Handshake :=
  moves.foldlM step h

end Handshake

end Pseudocode
