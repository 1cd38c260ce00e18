import Pseudocode.Proofs.Cancellation
import Pseudocode.Proofs.Seclusion
import Pseudocode.Proofs.Snapshots
import Pseudocode.Proofs.Stepping
import Pseudocode.Proofs.Storage

/-!
# What is seen at a pause

The statements that have begun and not ended are under way. Those of them that are CALLs are the
calls in progress, and the call stack shows just these: one frame each, above the main program. A
frame has a line of its own, which moves only when a statement is dispatched inside it; in between,
the frame of a function may lie on top. So in the midst of a statement the lines of the stack say
little. Where a statement begins, each frame but the innermost is at the CALL that it executes, and
the innermost is at the statement.

The invariant that carries this (`Machine.Stands`) is about a place of the course of a run. A place
lists the calls that have been entered; it is regular (`Place.Regular`) if each lies directly inside
its CALL, so that no other statement can begin between the two.

Results:
* `Course.depicted`, `executeProgram_depicted`: the call stack wherever a statement begins.
* `Arrives.pauses`, `Debugger.Tracks.act`: a stepper and a debugger pause where the run arrives at a
  statement.
* `views_are_faithful_at_every_pause`: with the variables, for whole programs.
-/

namespace Pseudocode

open Eval

/-! ## Calls in progress -/

/-- The frame of the call that a CALL makes. -/
def Stmt.callFrame? (s : Stmt) : Option CallFrame :=
  match s.form with
  | .call name _ => some ⟨name, s.line, .procedure⟩
  | _ => none

/-- The calls in progress, outermost first, if the given statements are under way, innermost
first. -/
def callsInProgress (up : List Stmt) : List CallFrame :=
  (up.filterMap Stmt.callFrame?).reverse

/-- The lines of the frames, innermost first. -/
def CallStack.lines (s : CallStack) : List Int :=
  s.calls.map CallFrame.line ++ [s.mainLine]

section Lines

variable (s : CallStack)

theorem CallStack.lines_eq : s.lines = s.line :: s.lines.tail := by
  obtain ⟨mainLine, calls⟩ := s
  cases calls <;> rfl

theorem CallStack.lines_atLine (line : Int) : (s.atLine line).lines = line :: s.lines.tail := by
  obtain ⟨mainLine, calls⟩ := s
  cases calls <;> rfl

theorem CallStack.lines_pop (h : s.calls ≠ []) : s.pop.lines = s.lines.tail := by
  obtain ⟨mainLine, calls⟩ := s
  cases calls with
  | nil => exact absurd rfl h
  | cons f rest => rfl

/-- The frames as they are shown. -/
theorem CallStack.map_frames :
    s.frames.map CallFrame.owner = ("main", .main) :: (s.calls.map CallFrame.owner).reverse ∧
      s.frames.map CallFrame.line = s.lines.reverse := by
  unfold CallStack.frames CallStack.lines
  constructor
  · rw [List.map_cons, List.map_reverse]
    rfl
  · rw [List.map_cons, List.map_reverse, List.reverse_append]
    rfl

end Lines

/-! ## Places -/

/-- The statements under way at a place. -/
def Place.underWay : Place → List Stmt
  | [] => []
  | .stmt s :: p => s :: Place.underWay p
  | .call _ :: p => Place.underWay p

/-- A place where each call lies directly inside its CALL, and each statement where it may begin. -/
inductive Place.Regular : Place → Prop
  | outermost : Regular []
  | stmt {p : Place} (hp : Regular p) (admits : p.Admits) (s : Stmt) : Regular (.stmt s :: p)
  | call {p : Place} {s : Stmt} {f : CallFrame} (hp : Regular p) (admits : p.Admits)
      (hs : s.callFrame? = some f) :
      Regular (.call f :: .stmt s :: p)

theorem Stmt.callFrame?_eq_none {s : Stmt} (h : s.form.isCall = false) : s.callFrame? = none := by
  unfold Stmt.callFrame?
  cases hs : s.form with
  | call name arguments =>
    rw [hs] at h
    cases h
  | _ => rfl

/-- **Where a statement may begin, each CALL under way has been entered**, and no other call. -/
theorem Place.Regular.calls_eq {p : Place} (h : p.Regular) (ha : p.Admits) :
    p.calls = p.underWay.filterMap Stmt.callFrame? := by
  induction h with
  | outermost => rfl
  | stmt _ admits s ih =>
    show Place.calls _ = (s :: Place.underWay _).filterMap Stmt.callFrame?
    rw [List.filterMap_cons_none (Stmt.callFrame?_eq_none ha)]
    exact ih admits
  | @call p s f _ admits hs ih =>
    show f :: Place.calls p = (s :: Place.underWay p).filterMap Stmt.callFrame?
    rw [List.filterMap_cons_some hs, ih admits]

/-! ## Machines at a place -/

/-- Procedures are known by their own names. -/
def Machine.Named (m : Machine) : Prop :=
  ∀ name routine, m.procedures.find? name = some routine → routine.name = name

theorem Machine.Named.register {m : Machine} (h : m.Named) (form : Form) :
    (m.register form).Named := by
  cases form with
  | procedure n params body =>
    intro name routine hfound
    have hfound : (m.procedures.insert n ⟨n, params, body⟩).find? name = some routine := hfound
    rw [Table.find?_insert] at hfound
    split at hfound
    · next hn =>
      cases hfound
      exact hn
    · exact h name routine hfound
  | _ => exact h

theorem Machine.Named.registerAll {m : Machine} (h : m.Named) (program : Block) :
    (m.registerAll program).Named :=
  List.foldlRecOn program _ h fun _ hn s _ => hn.register s.form

/-- What the steps between two queries keep. -/
structure Steady (m m' : Machine) : Prop where
  stack : m'.stack = m.stack
  named : m.Named → m'.Named

theorem covers_steady : Covers Steady where
  refl _ := ⟨rfl, id⟩
  trans h₁ h₂ := ⟨h₂.stack.trans h₁.stack, fun h => h₂.named (h₁.named h)⟩
  memory _ _ := ⟨rfl, id⟩
  files _ _ := ⟨rfl, id⟩
  note _ _ := ⟨rfl, id⟩
  register m form := by
    refine ⟨?_, fun h => h.register form⟩
    cases form <;> rfl

theorem evaluate_steady (n : Nat) (scope : Scope) (e : Expr) :
    Leads Steady (evaluate n scope e) := by
  intro m
  have hs := evaluate_secluded n scope e m
  refine ⟨hs.stack, fun h name routine hfound => h name routine ?_⟩
  rw [hs.procedures] at hfound
  exact hfound

theorem HostChange.steady {m m' : Machine} (h : HostChange m m') : Steady m m' := by
  obtain ⟨cancel, journal, rfl⟩ := h
  exact ⟨rfl, id⟩

/-- **A machine whose call stack is that of a place.** All frames but the innermost are at the CALLs
they execute. A CALL that has not been entered yet, or has been left, is the last statement that its
frame has reached. -/
structure Machine.Stands (p : Place) (m : Machine) : Prop where
  regular : p.Regular
  named : m.Named
  owners : m.stack.calls.map CallFrame.owner = p.calls.map CallFrame.owner
  lines : m.stack.lines.tail = p.calls.map CallFrame.line
  reached : ∀ s q, p = .stmt s :: q → s.form.isCall = true → m.stack.line = s.line

section Stands

variable {p : Place} {m m' : Machine}

theorem Machine.Stands.steady (h : m.Stands p) (hs : Steady m m') : m'.Stands p where
  regular := h.regular
  named := hs.named h.named
  owners := by rw [hs.stack, h.owners]
  lines := by rw [hs.stack, h.lines]
  reached := by rw [hs.stack]; exact h.reached

/-- A statement begins. -/
theorem Machine.Stands.begins (h : m.Stands p) (hp : p.Admits) (s : Stmt) :
    (m.counted.reached s.line).Stands (.stmt s :: p) where
  regular := .stmt h.regular hp s
  named := h.named
  owners := (m.stack.owners_atLine s.line).trans h.owners
  lines := by
    show (m.stack.atLine s.line).lines.tail = _
    rw [CallStack.lines_atLine]
    exact h.lines
  reached := by
    rintro t q ⟨⟩ _
    have hline := (m.stack.atLine s.line).lines_eq
    rw [CallStack.lines_atLine] at hline
    exact (List.cons.inj hline).1.symm

/-- A statement ends. -/
theorem Machine.Stands.ends {s : Stmt} (h : m.Stands (.stmt s :: p)) : m.Stands p := by
  cases hr : h.regular with
  | stmt hp admits =>
    refine ⟨hp, h.named, h.owners, h.lines, ?_⟩
    rintro t q rfl hcall
    have hnone : t.form.isCall = false := admits
    rw [hcall] at hnone
    cases hnone

/-- A CALL is entered: the frame that was innermost stays at its line. -/
theorem Machine.Stands.enterCall {s : Stmt} {name : String} {arguments : List Expr}
    {routine : Routine} (h : m.Stands (.stmt s :: p)) (hs : s.form = .call name arguments)
    (hknown : m.procedures.find? name = some routine) :
    (m.enterCall ⟨routine.name, s.line, .procedure⟩).Stands
      (.call ⟨routine.name, s.line, .procedure⟩ :: .stmt s :: p) := by
  have hname : routine.name = name := h.named name routine hknown
  have hframe : s.callFrame? = some ⟨routine.name, s.line, .procedure⟩ := by
    rw [Stmt.callFrame?, hs, hname]
  have hreached : m.stack.line = s.line := h.reached s p rfl (by rw [hs]; rfl)
  cases hr : h.regular with
  | stmt hp admits =>
    refine ⟨.call hp admits hframe, h.named, congrArg (CallFrame.owner _ :: ·) h.owners, ?_, ?_⟩
    · show m.stack.lines = s.line :: (Place.calls p).map CallFrame.line
      rw [m.stack.lines_eq, hreached]
      exact congrArg (s.line :: ·) h.lines
    · rintro t q ⟨⟩

/-- A call is left: its CALL is again the last statement that its frame has reached. -/
theorem Machine.Stands.leaveCall {f : CallFrame} (h : m.Stands (.call f :: p)) :
    (m.leaveCall f).Stands p := by
  have hlines : m.stack.lines.tail = f.line :: (Place.calls p).map CallFrame.line := h.lines
  have howners :
    m.stack.calls.map CallFrame.owner = f.owner :: (Place.calls p).map CallFrame.owner := h.owners
  have hne : m.stack.calls ≠ [] := by
    intro hnil
    rw [hnil] at howners
    cases howners
  have hpop : m.stack.pop.lines = f.line :: (Place.calls p).map CallFrame.line :=
    (m.stack.lines_pop hne).trans hlines
  have hline : m.stack.pop.line = f.line := by
    rw [m.stack.pop.lines_eq] at hpop
    exact (List.cons.inj hpop).1
  cases hr : h.regular with
  | @call p s _ hp admits hs =>
    refine ⟨.stmt hp admits s, h.named, ?_, ?_, ?_⟩
    · show (m.stack.calls.drop 1).map CallFrame.owner = _
      rw [List.map_drop, howners]
      rfl
    · show m.stack.pop.lines.tail = _
      rw [hpop]
      rfl
    · rintro t q ⟨⟩ hcall
      refine hline.trans ?_
      cases hform : s.form with
      | call name arguments =>
        rw [Stmt.callFrame?, hform] at hs
        cases hs
        rfl
      | _ =>
        rw [hform] at hcall
        cases hcall

end Stands

/-! ## Runs -/

/-- A machine that shows which statements are under way where `t` begins. -/
structure Machine.Depicts (up : List Stmt) (t : Stmt) (m : Machine) : Prop where
  owners : m.stack.calls.map CallFrame.owner = (up.filterMap Stmt.callFrame?).map CallFrame.owner
  lines : m.stack.lines = t.line :: (up.filterMap Stmt.callFrame?).map CallFrame.line

/-- A run in which the machine shows the statements under way wherever another one begins, whatever
the host replies. -/
inductive Run.Depicted : List Stmt → Run → Prop
  | finished (up : List Stmt) (ending : Except Halt Unit) (m : Machine) :
      Depicted up (.finished ending m)
  | asking {up : List Stmt} {q : Query} {m : Machine} {resume : q.Reply → Machine → Run}
      (here : ∀ t, q = .began t → m.Depicts up t)
      (rest : ∀ reply m', HostChange m m' → Depicted (q.underWay up) (resume reply m')) :
      Depicted up (.asking q m resume)

section Runs

variable {p : Place} {m : Machine} {r : Run}

theorem unwind_depicted (up : List Stmt) (p : Place) (h : Halt) (m : Machine) :
    (unwind p h m).Depicted up := by
  induction p generalizing h m with
  | nil => exact .finished up _ _
  | cons level p ih =>
    cases level with
    | stmt s => exact ih _ _
    | call f => exact ih _ _

/-- Where a statement may begin, a machine that stands there shows the statements under way. -/
theorem Machine.Stands.depicts (h : m.Stands p) (hp : p.Admits) (t : Stmt) :
    (m.counted.reached t.line).Depicts p.underWay t := by
  have hcalls := h.regular.calls_eq hp
  refine ⟨?_, ?_⟩
  · rw [← hcalls]
    exact (m.stack.owners_atLine t.line).trans h.owners
  · show (m.stack.atLine t.line).lines = _
    rw [CallStack.lines_atLine, h.lines, hcalls]

/-- **The call stack along a course**, from a machine that stands at its place. -/
theorem Course.depicted (h : Course Steady p m r) (hm : m.Stands p) : r.Depicted p.underWay := by
  induction h with
  | done m => exact .finished _ _ _
  | moves hstep _ ih => exact ih (hm.steady hstep)
  | halts h => exact unwind_depicted _ _ h _
  | @asks p m q resume hq answered stopped ih =>
    refine .asking ?_ fun reply m' hc => ?_
    · rintro t rfl
      exact hq.elim
    · have hup : q.underWay p.underWay = p.underWay := by
        cases q with
        | began t => exact hq.elim
        | ended t => exact hq.elim
        | _ => rfl
      rw [hup]
      cases reply with
      | ok a => exact ih a m' hc (hm.steady hc.steady)
      | error h =>
        rw [stopped]
        exact unwind_depicted _ p h m'
  | refused line h hd => exact unwind_depicted _ _ h _
  | @begins p m m₁ s resume hp hd cancelled performed stopped ih =>
    obtain ⟨-, -, rfl⟩ := dispatch_eq_ok.mp hd
    refine .asking ?_ fun reply m' hc => ?_
    · rintro t ⟨⟩
      exact hm.depicts hp s
    · cases reply with
      | error h =>
        rw [stopped]
        exact unwind_depicted _ p h m'
      | ok a =>
        cases hcancel : m'.cancelRequested with
        | true =>
          rw [cancelled m' hc hcancel]
          exact unwind_depicted _ p _ m'
        | false => exact ih m' hc hcancel ((hm.begins hp s).steady hc.steady)
  | charged s cause => exact unwind_depicted _ _ _ _
  | @ends p m s resume answered stopped ih =>
    refine .asking ?_ fun reply m' hc => ?_
    · rintro t ⟨⟩
    · cases reply with
      | ok a => exact ih m' hc (hm.ends.steady hc.steady)
      | error h =>
        rw [stopped]
        exact unwind_depicted _ p h m'
  | enters hs hknown hd _ ih => exact ih (hm.enterCall hs hknown)
  | leaves f _ ih => exact ih hm.leaveCall

/-- **The call stack wherever a statement of a program begins.** -/
theorem executeProgram_depicted (n : Nat) (program : Block) (hm : m.Named) :
    (executeProgram n program m).Depicted [] := by
  refine (executeProgram_course covers_steady evaluate_steady n program m).depicted ?_
  have hcalls : ∀ (program : Block) (m : Machine), (m.registerAll program).stack = m.stack := by
    intro program
    induction program with
    | nil => exact fun _ => rfl
    | cons s rest ih => exact fun m => (ih _).trans (covers_steady.register m s.form).stack
  refine ⟨.outermost, Machine.Named.registerAll (m := m.rewound) hm program, ?_, ?_, ?_⟩
  · rw [hcalls]
    rfl
  · rw [hcalls]
    rfl
  · rintro s q ⟨⟩

end Runs

/-! ## Arrivals -/

/-- How far the run of a program gets that is answered from a supply: which statements are under way
there, innermost first, what is left of the supply, and the rest of the run. A host may ask for a
cancellation on the way. -/
inductive Arrives (program : Block) (m₀ : Machine) (supply : Supply) :
    List Stmt → Supply → Run → Prop
  | start {m : Machine} (hc : HostChange m₀ m) :
      Arrives program m₀ supply [] supply (executeProgram plenty program m)
  | answered {up : List Stmt} {s : Supply} {q : Query} {m m' : Machine}
      {resume : q.Reply → Machine → Run} (h : Arrives program m₀ supply up s (.asking q m resume))
      (hc : HostChange m m') :
      Arrives program m₀ supply (q.underWay up) (s.reply q).2 (resume (s.reply q).1 m')

section Arrivals

variable {program : Block} {m₀ : Machine} {supply s : Supply} {up : List Stmt} {r : Run}

theorem Arrives.depicted (ha : Arrives program m₀ supply up s r) (hm : m₀.Named) :
    r.Depicted up := by
  induction ha with
  | start hc => exact executeProgram_depicted plenty program (hc.steady.named hm)
  | answered _ hc ih =>
    cases ih with
    | asking _ rest => exact rest _ _ hc

theorem Arrives.sound (ha : Arrives program m₀ supply up s r)
    (hp : Block.Writable program) (hm : m₀.Sound) : r.Always Machine.Sound := by
  induction ha with
  | start hc =>
    exact (executeProgram_evolves plenty hp (Evolves.host hm hc).sound).imp fun _ h => h.sound
  | answered _ hc ih =>
    cases ih with
    | asking _ _ rest => exact rest _ _ hc

theorem Stepper.pause_eq (stepper : Stepper) (m : Machine) :
    ∃ stepper' m', stepper.pause m = (stepper', m') ∧
      stepper'.supply = stepper.supply ∧ HostChange m m' ∧
      stepper'.pauses.toList = stepper.pauses.toList ++
      [⟨m.view true true, stepper.supply.output.size, stepper.answer 0⟩] := by
  have hpauses := stepper.pauses_after m
  cases hc : stepper.answer 0 with
  | step =>
    rw [hc] at hpauses
    exact ⟨_, _, stepper.pause_step m hc, rfl, .atPause m, hpauses⟩
  | runOn =>
    rw [hc] at hpauses
    exact ⟨_, _, stepper.pause_runOn m hc, rfl, .atPause m, hpauses⟩
  | cancel =>
    rw [hc] at hpauses
    exact ⟨_, _, stepper.pause_cancel m hc, rfl, ⟨true, _, rfl⟩, hpauses⟩

/-- **A stepper pauses where the run arrives at a statement**, and shows the machine as it is
there. -/
theorem Arrives.pauses (stepper : Stepper) (ha : Arrives program m₀ supply up stepper.supply r)
    {pause : Pause} (hpause : pause ∈ (r.drain Stepper.host stepper).2.2.pauses.toList) :
    pause ∈ stepper.pauses.toList ∨
      ∃ up s t m resume, Arrives program m₀ supply up s (.asking (.began t) m resume) ∧
      pause.view = m.view true true ∧ pause.printed = s.output.size := by
  induction r generalizing up stepper with
  | finished ending m => exact Or.inl hpause
  | asking q m resume ih =>
    by_cases hq : q.IsBegan
    · cases q with
      | began t =>
        rw [Run.drain, Stepper.reply_began] at hpause
        cases hs : stepper.stepping with
        | false =>
          rw [if_neg (by rw [hs]; exact Bool.false_ne_true)] at hpause
          exact ih (.ok ()) m stepper (ha.answered (.refl m)) hpause
        | true =>
          obtain ⟨stepper', m', heq, hsupply, hchange, hpauses⟩ := stepper.pause_eq m
          rw [if_pos hs, heq] at hpause
          have hnext : Arrives program m₀ supply (t :: up) stepper'.supply (resume (.ok ()) m') :=
            hsupply ▸ ha.answered hchange
          rcases ih (.ok ()) m' stepper' hnext hpause with hmem | hfound
          · rw [hpauses, List.mem_append, List.mem_singleton] at hmem
            rcases hmem with hold | rfl
            · exact Or.inl hold
            · exact Or.inr ⟨up, stepper.supply, t, m, resume, ha, rfl, rfl⟩
          · exact Or.inr hfound
      | _ => exact hq.elim
    · rw [Run.drain, Query.reply_stepper hq] at hpause
      exact ih (stepper.supply.reply q).1 m { stepper with supply := (stepper.supply.reply q).2 }
        (ha.answered (.refl m)) hpause

/-- A run that is not kept from pausing goes on to the next statement that begins, or to its end. -/
theorem Arrives.toPause (ha : Arrives program m₀ supply up s r) (stepping : Bool) :
    (r.toPause stepping s).1 ≠ .idle ∧
      ∀ resume, (r.toPause stepping s).1 = .paused resume → ∃ up t m resume',
        Arrives program m₀ supply up (r.toPause stepping s).2.2 (.asking (.began t) m resume') ∧
          HostChange m (r.toPause stepping s).2.1 ∧ resume = resume' (.ok ()) := by
  induction r generalizing up s with
  | finished ending m =>
    constructor
    · intro h
      cases h
    · intro resume h
      cases h
  | asking q m resume ih =>
    cases q with
    | began t =>
      cases stepping with
      | true =>
        constructor
        · intro h
          cases h
        · intro resume' h
          cases h
          exact ⟨up, t, m, resume, ha, .atPause m, rfl⟩
      | false => exact ih (.ok ()) m (ha.answered (.refl m))
    | _ => exact ih _ m (ha.answered (.refl m))

end Arrivals

/-! ## Debuggers -/

namespace Debugger

/-- A debugger of a run: it has not been started, or it is paused where the run arrives at a
statement, or the run has ended. -/
structure Tracks (program : Block) (m₀ : Machine) (supply : Supply) (d : Debugger) : Prop where
  of_program : d.program = program
  idle : d.phase = .idle → d.supply = supply ∧ HostChange m₀ d.machine
  paused : ∀ resume, d.phase = .paused resume → ∃ up t m resume',
    Arrives program m₀ supply up d.supply (.asking (.began t) m resume') ∧ HostChange m d.machine ∧
      resume = resume' (.ok ())

variable {program : Block} {m₀ : Machine} {supply : Supply} {d : Debugger}

theorem Tracks.settle {up : List Stmt} {r : Run} (hprogram : d.program = program)
    (ha : Arrives program m₀ supply up d.supply r) : (d.settle r).Tracks program m₀ supply := by
  obtain ⟨hidle, hpaused⟩ := ha.toPause d.stepping
  exact ⟨hprogram, fun h => absurd h hidle, hpaused⟩

/-- Before the run is released from its pause, the host may ask for a cancellation. -/
theorem Tracks.hostChange (h : d.Tracks program m₀ supply) (d' : Debugger)
    (hprogram : d'.program = d.program) (hphase : d'.phase = d.phase)
    (hsupply : d'.supply = d.supply) (hc : HostChange d.machine d'.machine) :
    d'.Tracks program m₀ supply := by
  refine ⟨hprogram.trans h.of_program, fun hidle => ?_, fun resume hp => ?_⟩
  · obtain ⟨hinitial, hm⟩ := h.idle (hphase ▸ hidle)
    exact ⟨hsupply.trans hinitial, hm.trans hc⟩
  · obtain ⟨up, t, m, resume', ha, hm, hresume⟩ := h.paused resume (hphase ▸ hp)
    exact ⟨up, t, m, resume', hsupply ▸ ha, hm.trans hc, hresume⟩

theorem Tracks.release (h : d.Tracks program m₀ supply) : d.release.Tracks program m₀ supply := by
  unfold Debugger.release
  cases hp : d.phase with
  | paused resume =>
    obtain ⟨up, t, m, resume', ha, hc, rfl⟩ := h.paused resume hp
    exact .settle h.of_program (ha.answered hc)
  | idle => exact h
  | finished ending => exact h

/-- **A debugger tracks its run**, whatever it is asked to do. -/
theorem Tracks.act (h : d.Tracks program m₀ supply) (a : DebugAction) :
    (d.act a).Tracks program m₀ supply := by
  cases a with
  | start =>
    unfold Debugger.act
    cases hp : d.phase with
    | idle =>
      obtain ⟨hsupply, hc⟩ := h.idle hp
      have ha :
          Arrives program m₀ supply [] d.supply (executeProgram plenty d.program d.machine) := by
        rw [h.of_program, hsupply]
        exact .start hc
      exact .settle h.of_program ha
    | paused resume => exact h
    | finished ending => exact h
  | step => exact h.release
  | runOn => exact (h.hostChange { d with stepping := false } rfl rfl rfl (.refl _)).release
  | stop =>
    exact (h.hostChange { d with machine := { d.machine with cancelRequested := true } } rfl rfl rfl
      ⟨true, _, rfl⟩).release

theorem Tracks.actAll (h : d.Tracks program m₀ supply) (actions : List DebugAction) :
    (actions.foldl Debugger.act d).Tracks program m₀ supply := by
  induction actions generalizing d with
  | nil => exact h
  | cons a rest ih => exact ih (h.act a)

end Debugger

/-! ## Views -/

/-- **What a faithful view shows** before the statement `t` of a run, with the statements `up` under
way and the machine as it is then. The frames are the main program and the calls in progress; the
innermost one is at the statement, and each other one at the CALL that it executes. The variables
are the global ones, and of an array the elements that have been assigned. -/
structure View.Faithful (up : List Stmt) (t : Stmt) (m : Machine) (v : View) : Prop where
  paused : v.paused = true
  running : v.running = true
  owners :
    v.frames.map CallFrame.owner = ("main", .main) :: (callsInProgress up).map CallFrame.owner
  lines : v.frames.map CallFrame.line = (callsInProgress up).map CallFrame.line ++ [t.line]
  line : v.line = t.line
  globals : ∃ shown, v.shown = .ok shown ∧ m.memory.ShownAs shown

theorem Machine.Depicts.faithful {up : List Stmt} {t : Stmt} {m : Machine}
    (h : m.Depicts up t) (hm : m.Sound) : (m.view true true).Faithful up t m := by
  obtain ⟨howners, hlines⟩ := m.stack.map_frames
  refine ⟨rfl, rfl, ?_, ?_, ?_, hm.shownAs true true⟩
  · show m.stack.frames.map CallFrame.owner = _
    rw [howners, h.owners, callsInProgress, List.map_reverse]
  · show m.stack.frames.map CallFrame.line = _
    rw [hlines, h.lines, callsInProgress, List.map_reverse, List.reverse_cons]
  · have hline := m.stack.lines_eq.symm.trans h.lines
    exact (List.cons.inj hline).1

theorem Arrives.faithful {program : Block} {m₀ : Machine} {supply s : Supply} {up : List Stmt}
    {t : Stmt} {m : Machine} {resume : Query.Reply (.began t) → Machine → Run}
    (ha : Arrives program m₀ supply up s (.asking (.began t) m resume))
    (hp : Block.Writable program) (hn : m₀.Named) (hm : m₀.Sound) :
    (m.view true true).Faithful up t m := by
  cases ha.depicted hn with
  | asking here _ =>
    cases ha.sound hp hm with
    | asking _ hsound _ => exact (here t rfl).faithful hsound

/-- **Views are faithful at every pause.** For every program that can be written, as every parsed
one can, on a new machine with any settings and supply: whatever the answers are, each pause of a
stepper is before a statement that the run has arrived at, and so is each pause of a debugger, after
any actions; and what is shown there is faithful. -/
theorem views_are_faithful_at_every_pause {program : Block} (hp : Block.Writable program)
    (settings : Settings) (takesInput : Bool) (random : Number.Generator) (supply : Supply) :
    let m₀ : Machine := { settings := settings, takesInput := takesInput, random := random }
    (∀ commands usual,
      ∀ pause ∈ (stepProgram program m₀ (.fresh supply commands usual)).2.2.pauses.toList,
      ∃ up s t m resume, Arrives program m₀ supply up s (.asking (.began t) m resume) ∧
        pause.printed = s.output.size ∧ pause.view.Faithful up t m) ∧
    ∀ actions : List DebugAction,
      let d := actions.foldl Debugger.act (.opened settings takesInput random supply program)
      d.isPaused = true →
        ∃ up t m resume, Arrives program m₀ supply up d.supply (.asking (.began t) m resume) ∧
        HostChange m d.machine ∧ d.view.Faithful up t m := by
  intro m₀
  have hn : m₀.Named := by
    intro name routine hfound
    cases hfound
  have hm : m₀.Sound := Machine.sound_of_empty rfl rfl rfl
  constructor
  · intro commands usual pause hpause
    have ha : Arrives program m₀ supply [] supply (executeProgram plenty program m₀) :=
      .start (.refl m₀)
    rcases ha.pauses
      (.fresh supply commands usual) hpause with hnone | ⟨up, s, t, m, resume, ha, hview, hprinted⟩
    · cases hnone
    · rw [hview]
      exact ⟨up, s, t, m, resume, ha, hprinted, ha.faithful hp hn hm⟩
  · intro actions d hpaused
    have hopened :
        (Debugger.opened settings takesInput random supply program).Tracks program m₀ supply := by
      refine ⟨rfl, fun _ => ⟨rfl, .refl m₀⟩, fun resume h => ?_⟩
      cases h
    have htracks : d.Tracks program m₀ supply := hopened.actAll actions
    cases hphase : d.phase with
    | paused resume =>
      obtain ⟨up, t, m, resume', ha, hc, -⟩ := htracks.paused resume hphase
      refine ⟨up, t, m, resume', ha, hc, ?_⟩
      have hview : d.view = m.view true true := by
        unfold Debugger.view
        rw [hpaused]
        obtain ⟨cancel, journal, hd⟩ := hc
        rw [hd]
        rfl
      rw [hview]
      exact ha.faithful hp hn hm
    | idle =>
      rw [Debugger.isPaused, hphase] at hpaused
      cases hpaused
    | finished ending =>
      rw [Debugger.isPaused, hphase] at hpaused
      cases hpaused

/-- An element is assigned in the inner of two nested calls, with the value of a function. -/
def nestedCalls : Block :=
  [.mk 1 (.declare "a" "INTEGER" (.array [(1, 3)])),
    .mk 2 (.procedure "p" [] [.mk 3 (.call "q" [])]),
    .mk 5 (.procedure "q" []
      [.mk 6 (.assign (.element 6 "a" [.literal 6 (.int 2)]) (.call 6 "f" [])),
       .mk 7 (.output [.element 7 "a" [.literal 7 (.int 2)]])]),
    .mk 9 (.function "f" [] "INTEGER" [.mk 10 (.returnValue (.literal 10 (.int 7)))]),
    .mk 12 (.call "p" [])]

theorem nestedCalls_writable : Block.Writable nestedCalls := by
  have ha : IsName "a" := by decide +kernel
  have hp : IsName "p" := by decide +kernel
  have hq : IsName "q" := by decide +kernel
  have hf : IsName "f" := by decide +kernel
  have htype : IsTypeName "INTEGER" := ⟨.integerKw, by decide, by decide⟩
  have hindex : ∀ (line : Int), ∀ e ∈ [Expr.literal line (.int 2)], e.Writable := by
    intro line e he
    rw [List.mem_singleton.mp he]
    exact .digit line (by decide)
  intro t ht
  simp only [nestedCalls, List.mem_cons, List.not_mem_nil, or_false] at ht
  rcases ht with rfl | rfl | rfl | rfl | rfl
  · refine .declare ha htype (.array (by simp) ?_)
    decide +kernel
  · refine .procedure hp (by simp) ?_
    simp only [List.mem_singleton, forall_eq]
    exact .call hq (by simp)
  · refine .procedure hq (by simp) ?_
    simp only [List.mem_cons, List.not_mem_nil, or_false, forall_eq_or_imp, forall_eq]
    exact ⟨.assign (.element 6 ha (by simp) (hindex 6)) (.call 6 (Or.inl hf) (by simp)),
      .output (by simp) (by simpa using .element 7 ha (by simp) (hindex 7))⟩
  · refine .function hf (by simp) htype ?_
    simp only [List.mem_singleton, forall_eq]
    exact .returnValue (.digit 10 (by decide))
  · exact .call hp (by simp)

/-- Before the last line of the inner call, the outer frames are at their CALLs, and one element is
shown. -/
theorem nested_calls_are_seen_at_a_pause :
    let d := [DebugAction.start, .step, .step, .step,
      .step].foldl Debugger.act (.opened {} false {} {} nestedCalls)
    Block.Writable nestedCalls ∧ d.isPaused = true ∧
      d.view.frames = [⟨"main", 12, .main⟩, ⟨"p", 3, .procedure⟩, ⟨"q", 7, .procedure⟩] ∧
      d.view.shown.toOption = some [⟨"a", .array, .elements [([2], .int 7)], false⟩] ∧
      ∃ up t m resume, Arrives nestedCalls {} {} up d.supply (.asking (.began t) m resume) ∧
        HostChange m d.machine ∧ d.view.Faithful up t m := by
  intro d
  have hpaused : d.isPaused = true := by decide +kernel
  refine ⟨nestedCalls_writable, hpaused, by decide +kernel, by decide +kernel, ?_⟩
  exact (views_are_faithful_at_every_pause nestedCalls_writable {} false {} {}).2
    [.start, .step, .step, .step, .step] hpaused

end Pseudocode
