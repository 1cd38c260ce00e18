import Pseudocode.Proofs.Limits
import Pseudocode.Proofs.Unwinding
import Pseudocode.Stepper

/-!
# Stepping through a program

A stepper pauses a run whenever a statement begins. To the machine this adds no more than a note,
and no rule reads the notes (`truncation_journal`); so the stepped run puts the queries of the plain
one, and parts from it only where a pause is answered with a cancellation.

The statements that begin in the plain run, with the machine and the number of lines printed at that
moment (`Run.moments`), tell all about the stepped run: it pauses at them one after the other as
long as the answer is to step (`pausesAt`), and it is cut off at the one whose pause is answered
with a cancellation (`cancelledAt`). Each statement that is dispatched outside function bodies is
announced once, under its own number.

Results:
* `Run.Trims.stepped`: the pauses and the outcome of a stepped run.
* `executeProgram_counting`: the statements that begin have increasing numbers.
* `stepping_does_not_change_the_program`: both for whole programs.
-/

namespace Pseudocode

open Eval

/-! ## Notes are not read -/

/-- The same machine, but for its notes. -/
def SameButNotes (m m' : Machine) : Prop :=
  ∃ journal, m' = { m with journal := journal }

theorem SameButNotes.refl (m : Machine) : SameButNotes m m :=
  ⟨m.journal, rfl⟩

theorem SameButNotes.trans {m m₁ m₂ : Machine} (h₁ : SameButNotes m m₁) (h₂ : SameButNotes m₁ m₂) :
    SameButNotes m m₂ := by
  obtain ⟨_, rfl⟩ := h₁
  obtain ⟨journal, rfl⟩ := h₂
  exact ⟨journal, rfl⟩

/-- **No rule reads the notes.** -/
theorem truncation_journal : Truncation (fun _ => False) SameButNotes where
  inStep := by
    rintro m _ ⟨_, rfl⟩
    exact ⟨⟨rfl, rfl, rfl, rfl, rfl, rfl, fun _ => rfl, fun _ => rfl⟩, rfl, rfl, rfl, rfl⟩
  dispatchLimit := by rintro m _ ⟨_, rfl⟩ count; exact Or.inl rfl
  depthLimit := by rintro m _ ⟨_, rfl⟩ depth; exact Or.inl rfl
  charge := fun hc => hc.elim
  update := by
    rintro m _ f ⟨journal, rfl⟩ hf
    cases hf <;> exact ⟨_, rfl⟩
  register := by
    rintro m _ ⟨journal, rfl⟩ form
    cases form <;> exact ⟨_, rfl⟩

/-- A run and the same run from a machine with other notes. -/
abbrev Run.Alike : Run → Run → Prop :=
  Run.Trims (fun _ => False) SameButNotes

/-! ## The statements that begin -/

/-- A statement that begins: the machine as it is then, and how many lines have been printed. -/
structure Moment where
  stmt : Stmt
  machine : Machine
  printed : Nat

/-- The pause before a statement, with its answer. -/
def Moment.pause (moment : Moment) (command : StepCommand) : Pause :=
  ⟨moment.machine.view true true, moment.printed, command⟩

/-- The statements that begin in a run that is answered from a supply. -/
def Run.moments : Run → Supply → List Moment
  | .finished _ _, _ => []
  | .asking (.began t) m resume, s => ⟨t, m, s.output.size⟩ :: (resume (.ok ()) m).moments s
  | .asking q m resume, s =>
    let (reply, s) := s.reply q
    (resume reply m).moments s

/-- The pauses before statements that begin, as long as the answer is to step. -/
def pausesAt : List Moment → (Nat → StepCommand) → List Pause
  | [], _ => []
  | moment :: rest, answer =>
    moment.pause (answer 0) ::
      match answer 0 with
      | .step => pausesAt rest fun i => answer (i + 1)
      | _ => []

/-- The statement whose pause is answered with a cancellation, if there is one. -/
def cancelledAt : List Moment → (Nat → StepCommand) → Option Moment
  | [], _ => none
  | moment :: rest, answer =>
    match answer 0 with
    | .step => cancelledAt rest fun i => answer (i + 1)
    | .runOn => none
    | .cancel => some moment

section Answers

variable {moments : List Moment} {answer : Nat → StepCommand} {i : Nat} {pause : Pause}

/-- The pauses are the first statements that begin, with the answers in order. -/
theorem getElem?_pausesAt (h : (pausesAt moments answer)[i]? = some pause) :
    ∃ moment, moments[i]? = some moment ∧ pause = moment.pause (answer i) := by
  induction moments generalizing answer i with
  | nil => cases h
  | cons moment rest ih =>
    cases i with
    | zero =>
      cases h
      exact ⟨moment, rfl, rfl⟩
    | succ i =>
      unfold pausesAt at h
      cases hc : answer 0 with
      | step =>
        rw [hc] at h
        exact ih h
      | _ =>
        rw [hc] at h
        cases h

/-- If all answers are to step, there is a pause before every statement that begins. -/
theorem length_pausesAt (h : ∀ pause ∈ pausesAt moments answer, pause.command = .step) :
    (pausesAt moments answer).length = moments.length := by
  induction moments generalizing answer with
  | nil => rfl
  | cons moment rest ih =>
    unfold pausesAt at h ⊢
    have hc : answer 0 = .step := h _ List.mem_cons_self
    rw [hc] at h ⊢
    rw [List.length_cons, List.length_cons, ih fun pause hp => h pause (List.mem_cons_of_mem _ hp)]

/-- After an answer that is not to step there is no further pause. -/
theorem length_pausesAt_of_ne (h : (pausesAt moments answer)[i]? = some pause)
    (hc : pause.command ≠ .step) : (pausesAt moments answer).length = i + 1 := by
  induction moments generalizing answer i with
  | nil => cases h
  | cons moment rest ih =>
    unfold pausesAt at h ⊢
    cases i with
    | zero =>
      cases h
      cases ha : answer 0 with
      | step => exact absurd ha hc
      | _ => rfl
    | succ i =>
      cases ha : answer 0 with
      | step =>
        rw [ha] at h
        rw [List.length_cons, ih h]
      | _ =>
        rw [ha] at h
        cases h

theorem cancelledAt_eq_none (h : ∀ pause ∈ pausesAt moments answer, pause.command ≠ .cancel) :
    cancelledAt moments answer = none := by
  induction moments generalizing answer with
  | nil => rfl
  | cons moment rest ih =>
    unfold pausesAt at h
    unfold cancelledAt
    cases hc : answer 0 with
    | step =>
      rw [hc] at h
      exact ih fun pause hp => h pause (List.mem_cons_of_mem _ hp)
    | runOn => rfl
    | cancel => exact absurd hc (h _ List.mem_cons_self)

/-- A cancellation is asked for at the pause before the statement that it cuts off. -/
theorem cancelledAt_eq_some (h : (pausesAt moments answer)[i]? = some pause)
    (hc : pause.command = .cancel) : cancelledAt moments answer = moments[i]? := by
  induction moments generalizing answer i with
  | nil => cases h
  | cons moment rest ih =>
    unfold pausesAt at h
    unfold cancelledAt
    cases i with
    | zero =>
      cases h
      have ha : answer 0 = .cancel := hc
      rw [ha]
      rfl
    | succ i =>
      cases ha : answer 0 with
      | step =>
        rw [ha] at h
        exact ih h
      | _ =>
        rw [ha] at h
        cases h

end Answers

/-! ## Stepped runs -/

namespace Stepper

/-- A stepper that has not paused yet. -/
def fresh (supply : Supply) (commands : List StepCommand) (usual : StepCommand) : Stepper :=
  { supply := supply, commands := commands, usual := usual }

/-- The answers to the pauses, counted from here. -/
def answer (s : Stepper) (i : Nat) : StepCommand :=
  s.commands[i]?.getD s.usual

/-- The stepper after a pause at a machine. -/
def after (s : Stepper) (m : Machine) : Stepper :=
  { s with
    commands := s.commands.drop 1
    pauses := s.pauses.push ⟨m.view true true, s.supply.output.size, s.answer 0⟩ }

variable (s : Stepper) (m : Machine)

theorem answer_after : (s.after m).answer = fun i => s.answer (i + 1) := by
  funext i
  unfold answer after
  rw [List.getElem?_drop, Nat.add_comm]

theorem pauses_after : (s.after m).pauses.toList =
    s.pauses.toList ++ [⟨m.view true true, s.supply.output.size, s.answer 0⟩] :=
  Array.toList_push

theorem head?_commands : s.commands.head?.getD s.usual = s.answer 0 := by
  rw [List.head?_eq_getElem?]
  rfl

theorem reply_began (t : Stmt) : Stepper.host.reply s m (.began t) =
    (.ok (), if s.stepping = true then s.pause m else (s, m)) := rfl

theorem pause_step (h : s.answer 0 = .step) : s.pause m = (s.after m, m.atPause) := by
  unfold pause after
  rw [head?_commands, h]
  rfl

theorem pause_runOn (h : s.answer 0 = .runOn) :
    s.pause m = ({ s.after m with stepping := false }, m.atPause) := by
  unfold pause after
  rw [head?_commands, h]
  rfl

theorem pause_cancel (h : s.answer 0 = .cancel) :
    s.pause m = (s.after m, { m.atPause with cancelRequested := true }) := by
  unfold pause after
  rw [head?_commands, h]
  rfl

end Stepper

section Stepped

variable {settings : Settings} {r r' : Run}

theorem Query.reply_stepper {q : Query} (hq : ¬ q.IsBegan) (s : Stepper) (m : Machine) :
    Stepper.host.reply s m q =
      ((s.supply.reply q).1, { s with supply := (s.supply.reply q).2 }, m) := by
  cases q with
  | began t => exact absurd trivial hq
  | _ => rfl

theorem Run.moments_asking {q : Query} (hq : ¬ q.IsBegan) (m : Machine)
    (resume : q.Reply → Machine → Run) (s : Supply) :
    (Run.asking q m resume).moments s = (resume (s.reply q).1 m).moments (s.reply q).2 := by
  cases q with
  | began t => exact absurd trivial hq
  | _ => rfl

/-- A stepper that no longer pauses answers like its supply. -/
theorem Run.Alike.unstepped (h : r.Alike r') (s : Stepper) (hs : s.stepping = false) :
    (r'.drain Stepper.host s).1 = (r.drain Supply.host s.supply).1 ∧
      SameButNotes (r.drain Supply.host s.supply).2.1 (r'.drain Stepper.host s).2.1 ∧
      (r'.drain Stepper.host s).2.2 = { s with supply := (r.drain Supply.host s.supply).2.2 } := by
  induction h generalizing s with
  | cut halt m r' hc => exact hc.elim
  | finished ending m m' hR => exact ⟨rfl, hR, rfl⟩
  | asking q m m' resume resume' hR _ ih =>
    by_cases hq : q.IsBegan
    · cases q with
      | began t =>
        rw [Run.drain, Stepper.reply_began, if_neg (by rw [hs]; exact Bool.false_ne_true)]
        exact ih (.ok ()) m m' hR s hs
      | _ => exact hq.elim
    · rw [Run.drain, Query.reply_stepper hq]
      exact ih (s.supply.reply q).1 m m' hR { s with supply := (s.supply.reply q).2 } hs

/-- How a stepped run turns out beside the plain one: it ends alike, or it is cut off at a
statement, which has not been executed. -/
def TurnsOut (plain : Except Halt Unit × Machine × Supply)
    (stepped : Except Halt Unit × Machine × Stepper) : Option Moment → Prop
  | none => stepped.1 = plain.1 ∧ SameButNotes plain.2.1 stepped.2.1 ∧
    stepped.2.2.supply = plain.2.2
  | some moment =>
    stepped.1 = .error (.cancelled moment.stmt.line) ∧
      SameButNotes moment.machine.unwound stepped.2.1 ∧
      stepped.2.2.supply.output.toList = plain.2.2.output.toList.take moment.printed

/-- Runs from machines that differ in their notes are abandoned in such machines. -/
theorem SameButNotes.unwound {m m' : Machine} (h : SameButNotes m m') :
    SameButNotes m.unwound { m' with cancelRequested := true }.unwound := by
  obtain ⟨journal, rfl⟩ := h
  obtain ⟨journal₁, h₁⟩ := m.unwound_eq
  obtain ⟨journal₂, h₂⟩ :=
    { { m with journal := journal } with cancelRequested := true }.unwound_eq
  rw [h₁, h₂]
  exact ⟨journal₂, rfl⟩

/-- **The pauses and the outcome of a stepped run.** -/
theorem Run.Alike.stepped (h : r.Alike r') (ho : r'.Orderly settings) (s : Stepper)
    (hs : s.stepping = true) :
    (r'.drain Stepper.host s).2.2.pauses.toList =
        s.pauses.toList ++ pausesAt (r.moments s.supply) s.answer ∧
      TurnsOut (r.drain Supply.host s.supply) (r'.drain Stepper.host s)
        (cancelledAt (r.moments s.supply) s.answer) := by
  induction h generalizing s with
  | cut halt m r' hc => exact hc.elim
  | finished ending m m' hR => exact ⟨(List.append_nil _).symm, rfl, hR, rfl⟩
  | asking q m m' resume resume' hR hk ih =>
    cases ho with
    | asking here later =>
      by_cases hq : q.IsBegan
      · cases q with
        | began t =>
          have hpaused : SameButNotes m m'.atPause := hR.trans ⟨_, rfl⟩
          have hview : m'.view true true = m.view true true := by
            obtain ⟨journal, rfl⟩ := hR
            rfl
          have hpauses := s.pauses_after m'
          rw [hview] at hpauses
          rw [Run.drain, Stepper.reply_began, if_pos hs]
          show _ = _ ++ pausesAt (⟨t, m, s.supply.output.size⟩ ::
              (resume (.ok ()) m).moments s.supply) s.answer ∧
            TurnsOut _ _ (cancelledAt (⟨t, m, s.supply.output.size⟩ ::
              (resume (.ok ()) m).moments s.supply) s.answer)
          unfold pausesAt cancelledAt
          cases hc : s.answer 0 with
          | step =>
            rw [s.pause_step m' hc]
            have hnext := ih (.ok ()) m m'.atPause hpaused (later _ _ ⟨_, _, rfl⟩) (s.after m') hs
            rw [s.answer_after, hpauses, hc, List.append_assoc] at hnext
            exact hnext
          | runOn =>
            rw [s.pause_runOn m' hc]
            rw [hc] at hpauses
            obtain ⟨hending, hm, hstepper⟩ := Run.Alike.unstepped
              (hk (.ok ()) m m'.atPause hpaused) { s.after m' with stepping := false } rfl
            exact ⟨(congrArg (fun t => t.pauses.toList) hstepper).trans hpauses, hending, hm,
              congrArg Stepper.supply hstepper⟩
          | cancel =>
            rw [s.pause_cancel m' hc]
            rw [hc] at hpauses
            have hstop := here.cancelled trivial () { m'.atPause with cancelRequested := true }
              ⟨true, _, rfl⟩ rfl
            have hline : m'.line = t.line := here.line t rfl
            have hprinted := output_prefix_drain (resume (.ok ()) m) s.supply
            dsimp only
            rw [hstop]
            refine ⟨hpauses, ?_, hpaused.unwound, List.prefix_iff_eq_take.mp hprinted⟩
            show Except.error (Halt.cancelled m'.line) = _
            rw [hline]
        | _ => exact hq.elim
      · rw [Run.drain, Query.reply_stepper hq, Run.moments_asking hq]
        exact ih (s.supply.reply q).1 m m' hR (later _ m' (.refl m'))
          { s with supply := (s.supply.reply q).2 } hs

end Stepped

/-! ## Dispatches outside function bodies -/

/-- The count of statements does not go back. -/
def Counted (m m' : Machine) : Prop :=
  m.dispatches ≤ m'.dispatches

theorem covers_counted : Covers Counted where
  refl m := Nat.le_refl m.dispatches
  trans := Nat.le_trans
  memory m _ := Nat.le_refl m.dispatches
  files m _ := Nat.le_refl m.dispatches
  note m _ := Nat.le_refl m.dispatches
  register m form := by cases form <;> exact Nat.le_refl m.dispatches

theorem evaluate_counted (n : Nat) (scope : Scope) (e : Expr) :
    Leads Counted (evaluate n scope e) := by
  intro m
  obtain ⟨scope', acts⟩ := (evaluate_computes n scope e m).acts
  exact acts.dispatches_le aside_nothing

/-- In a run, every statement that begins has just been counted: its number is above those before,
and its line is current. -/
inductive Run.Counting : Nat → Run → Prop
  | finished {count : Nat} {ending : Except Halt Unit} {m : Machine} :
      Run.Counting count (.finished ending m)
  | began {count : Nat} {t : Stmt} {m : Machine} {resume : Query.Reply (.began t) → Machine → Run}
      (number : count < m.dispatches) (line : m.line = t.line)
      (later : ∀ reply m', HostChange m m' → Run.Counting m.dispatches (resume reply m')) :
      Run.Counting count (.asking (.began t) m resume)
  | other {count : Nat} {q : Query} {m : Machine} {resume : q.Reply → Machine → Run}
      (hq : ¬ q.IsBegan)
      (later : ∀ reply m', HostChange m m' → Run.Counting count (resume reply m')) :
      Run.Counting count (.asking q m resume)

section Counting

variable {p : Place} {m : Machine} {r : Run} {count : Nat}

theorem unwind_counting (p : Place) (h : Halt) (m : Machine) : (unwind p h m).Counting count := by
  induction p generalizing h m with
  | nil => exact .finished
  | cons level p ih =>
    cases level with
    | stmt s => exact ih _ _
    | call f => exact ih _ _

theorem HostChange.dispatches {m m' : Machine} (h : HostChange m m') :
    m'.dispatches = m.dispatches := by
  obtain ⟨cancel, journal, rfl⟩ := h
  rfl

theorem Course.counting (h : Course Counted p m r) (hm : count ≤ m.dispatches) :
    r.Counting count := by
  induction h generalizing count with
  | done m => exact .finished
  | moves hstep _ ih => exact ih (Nat.le_trans hm hstep)
  | halts h => exact unwind_counting _ h _
  | @asks p m q resume hq answered stopped ih =>
    have hother : ¬ q.IsBegan := by
      intro hb
      cases q with
      | began t => exact hq.elim
      | _ => exact hb.elim
    refine .other hother fun reply m' hc => ?_
    cases reply with
    | ok a => exact ih a m' hc (hc.dispatches ▸ hm)
    | error h =>
      rw [stopped]
      exact unwind_counting p h m'
  | refused line h hd => exact unwind_counting _ h _
  | @begins p m m₁ s resume hp hd cancelled performed stopped ih =>
    obtain ⟨-, -, rfl⟩ := dispatch_eq_ok.mp hd
    refine .began (Nat.lt_succ_of_le hm) rfl fun reply m' hc => ?_
    cases reply with
    | error h =>
      rw [stopped]
      exact unwind_counting p h m'
    | ok a =>
      cases hcancel : m'.cancelRequested with
      | true =>
        rw [cancelled m' hc hcancel]
        exact unwind_counting p _ m'
      | false => exact ih m' hc hcancel (Nat.le_of_eq hc.dispatches.symm)
  | charged s cause => exact unwind_counting _ _ _
  | @ends p m s resume answered stopped ih =>
    refine .other id fun reply m' hc => ?_
    cases reply with
    | ok a => exact ih m' hc (hc.dispatches ▸ hm)
    | error h =>
      rw [stopped]
      exact unwind_counting p h m'
  | enters hs hknown hd _ ih => exact ih hm
  | leaves f _ ih => exact ih hm

/-- **The statements that begin in a program have increasing numbers.** -/
theorem executeProgram_counting (n : Nat) (program : Block) (m : Machine) :
    (executeProgram n program m).Counting 0 :=
  (executeProgram_course covers_counted evaluate_counted n program m).counting (Nat.zero_le _)

theorem Run.Counting.moments (h : r.Counting count) (s : Supply) :
    (r.moments s).Pairwise (fun a b => a.machine.dispatches < b.machine.dispatches) ∧
      ∀ moment ∈ r.moments s,
        count < moment.machine.dispatches ∧ moment.machine.line = moment.stmt.line := by
  induction h generalizing s with
  | finished => exact ⟨.nil, fun _ h => absurd h List.not_mem_nil⟩
  | @began count t m resume number line later ih =>
    obtain ⟨hpairs, hall⟩ := ih (.ok ()) m (.refl m) s
    refine ⟨List.pairwise_cons.mpr ⟨fun moment hmem => (hall moment hmem).1, hpairs⟩, ?_⟩
    intro moment hmem
    rcases List.mem_cons.mp hmem with rfl | hmem
    · exact ⟨number, line⟩
    · exact ⟨Nat.lt_trans number (hall moment hmem).1, (hall moment hmem).2⟩
  | @other count q m resume hq later ih =>
    rw [Run.moments_asking hq]
    exact ih _ m (.refl m) _

end Counting

/-- A statement outside function bodies is announced at once when it has been dispatched, and not at
all when it is refused. -/
theorem execute_announced (n : Nat) (scope : Scope) (t : Stmt) (m : Machine)
    (next : Scope → Machine → Run) (stop : Halt → Machine → Run) :
    (∀ m₁, dispatch t.line m = .ok () m₁ →
      ∃ resume, execute (n + 1) scope t m next stop = .asking (.began t) m₁ resume) ∧
    ∀ h m₁, dispatch t.line m = .error h m₁ → execute (n + 1) scope t m next stop = stop h m₁ := by
  constructor
  · intro m₁ hd
    exact ⟨_, Action.lift_ok _ _ hd⟩
  · intro h m₁ hd
    exact Action.lift_error _ _ hd

/-- An expression is evaluated without a query, with all the function bodies that it runs. -/
theorem evaluate_unannounced (n : Nat) (scope : Scope) (e : Expr) (m : Machine) :
    (∃ v m', ∀ next stop, (liftM (evaluate n scope e) : Action Value) m next stop = next v m') ∨
      ∃ h m', ∀ next stop, (liftM (evaluate n scope e) : Action Value) m next stop = stop h m' := by
  cases he : evaluate n scope e m with
  | ok v m' => exact Or.inl ⟨v, m', fun next stop => Action.lift_ok next stop he⟩
  | error h m' => exact Or.inr ⟨h, m', fun next stop => Action.lift_error next stop he⟩

/-! ## Whole programs -/

/-- **Stepping does not change the program.** Whatever the answers at the pauses are: the pauses are
at the first statements that begin in the plain run, in order; if no answer is to cancel, the
stepped run ends like the plain one, with the same machine but for notes, and the same output and
inputs; if all are to step, it pauses at every statement that begins; after any other answer it does
not pause again; and if an answer is to cancel, it ends there with that statement's line, the
machine of the pause abandoned, and the output printed by then. The statements that begin are those
dispatched outside function bodies, each once. -/
theorem stepping_does_not_change_the_program (program : Block) (m : Machine) (supply : Supply)
    (commands : List StepCommand) (usual : StepCommand) :
    let plain := runProgram program m supply
    let begun := (executeProgram plenty program m).moments supply
    let stepped := stepProgram program m (.fresh supply commands usual)
    let pauses := stepped.2.2.pauses.toList
    (∀ (i : Nat) (pause : Pause), pauses[i]? = some pause →
      ∃ moment : Moment, begun[i]? = some moment ∧ pause = moment.pause (commands[i]?.getD usual)) ∧
    ((∀ pause ∈ pauses, pause.command ≠ .cancel) →
      stepped.1 = plain.ending ∧ SameButNotes plain.machine stepped.2.1 ∧
        stepped.2.2.supply = plain.supply) ∧
    ((∀ pause ∈ pauses, pause.command = .step) → pauses.length = begun.length) ∧
    (∀ (i : Nat) (pause : Pause), pauses[i]? = some pause → pause.command ≠ .step →
      pauses.length = i + 1) ∧
    (∀ (i : Nat) (pause : Pause) (moment : Moment), pauses[i]? = some pause →
      pause.command = .cancel →
      begun[i]? = some moment →
        stepped.1 = .error (.cancelled moment.stmt.line) ∧
        SameButNotes moment.machine.unwound stepped.2.1 ∧
        stepped.2.2.supply.output.toList = plain.supply.output.toList.take moment.printed) ∧
    (begun.Pairwise (fun a b => a.machine.dispatches < b.machine.dispatches) ∧
      ∀ moment ∈ begun, moment.machine.line = moment.stmt.line) ∧
    (∀ n scope t m next stop,
      (∀ m₁, dispatch t.line m = .ok () m₁ →
        ∃ resume, execute (n + 1) scope t m next stop = .asking (.began t) m₁ resume) ∧
      ∀ h m₁, dispatch t.line m = .error h m₁ → execute (n + 1) scope t m next stop = stop h m₁) ∧
    (∀ n scope e m,
      (∃ v m', ∀ next stop, (liftM (evaluate n scope e) : Action Value) m next stop = next v m') ∨
      ∃ h m', ∀ next stop, (liftM (evaluate n scope e) : Action Value) m next stop = stop h m') ∧
    ∀ answers : Nat → StepCommand, ∃ commands, ∀ i pause,
      (stepProgram program m (.fresh supply commands usual)).2.2.pauses.toList[i]? = some pause →
        pause.command = answers i := by
  intro plain begun stepped pauses
  have halike : (executeProgram plenty program m).Alike (executeProgram plenty program m) :=
    executeProgram_trims truncation_journal (Or.inl rfl) program (.refl m)
  have horderly := executeProgram_orderly plenty program m
  have hpauses : ∀ commands,
      (stepProgram program m (.fresh supply commands usual)).2.2.pauses.toList =
        pausesAt begun (Stepper.fresh supply commands usual).answer :=
    fun commands => (halike.stepped horderly (.fresh supply commands usual) rfl).1
  have hturns := (halike.stepped horderly (.fresh supply commands usual) rfl).2
  obtain ⟨hnumbers, hlines⟩ := (executeProgram_counting plenty program m).moments supply
  have heq : pauses = pausesAt begun (Stepper.fresh supply commands usual).answer :=
    hpauses commands
  rw [heq]
  refine ⟨fun i pause hi => getElem?_pausesAt hi, fun hnone => ?_, length_pausesAt,
    fun i pause hi hc => length_pausesAt_of_ne hi hc, fun i pause moment hi hc hmoment => ?_,
    ⟨hnumbers, fun moment hmem => (hlines moment hmem).2⟩, execute_announced, evaluate_unannounced,
    fun answers => ⟨(List.range begun.length).map answers, fun i pause hi => ?_⟩⟩
  · have hturn : TurnsOut _ stepped (cancelledAt begun _) := hturns
    rw [cancelledAt_eq_none hnone] at hturn
    exact hturn
  · have hturn : TurnsOut _ stepped (cancelledAt begun _) := hturns
    rw [cancelledAt_eq_some hi hc, hmoment] at hturn
    exact hturn
  · rw [hpauses] at hi
    obtain ⟨moment, hmoment, rfl⟩ := getElem?_pausesAt hi
    obtain ⟨hlt, -⟩ := List.getElem?_eq_some_iff.mp hmoment
    show ((List.range begun.length).map answers)[i]?.getD usual = answers i
    rw [List.getElem?_map, List.getElem?_range hlt]
    rfl

/-- A line with the value of a function, and another line. -/
def twoOutputs : Block :=
  [.mk 1 (.function "One" [] "INTEGER" [.mk 2 (.returnValue (.literal 2 (.int 1)))]),
   .mk 4 (.output [.call 4 "One" []]),
   .mk 5 (.output [.literal 5 (.text "not reached")])]

/-- Cancelled at its second pause, the run has printed the first line only and pauses no more; the
function body, between the two, has been passed without a pause. -/
theorem cancelled_before_the_second_output :
    (∃ pause : Pause, (stepProgram twoOutputs {}
      (.fresh {} [.step, .cancel] .step)).2.2.pauses.toList[1]? = some pause ∧
        pause.command = .cancel) ∧
    (stepProgram twoOutputs {} (.fresh {} [.step, .cancel] .step)).2.2.pauses.toList.length = 2 ∧
    (stepProgram twoOutputs {} (.fresh {} [.step, .cancel] .step)).1 = .error (.cancelled 5) ∧
    (stepProgram twoOutputs {} (.fresh {} [.step, .cancel] .step)).2.2.supply.output.toList =
      (runProgram twoOutputs {} {}).supply.output.toList.take 1 := by
  obtain ⟨hmoments, -, -, hlast, hcancel, -⟩ :=
    stepping_does_not_change_the_program twoOutputs {} {} [.step, .cancel] .step
  have hbegun : ((executeProgram plenty twoOutputs {}).moments {}).map
      (fun moment => (moment.stmt.line, moment.printed)) = [(4, 0), (5, 1)] := by decide +kernel
  obtain ⟨pause, hsecond⟩ := Option.isSome_iff_exists.mp (show (stepProgram twoOutputs {}
    (.fresh {} [.step, .cancel] .step)).2.2.pauses.toList[1]?.isSome = true by decide +kernel)
  obtain ⟨moment, hmoment, rfl⟩ := hmoments 1 pause hsecond
  have hfound := congrArg (·[1]?) hbegun
  rw [List.getElem?_map, hmoment] at hfound
  obtain ⟨hline, hprinted⟩ := Prod.mk.inj (Option.some.inj hfound)
  obtain ⟨hending, -, houtput⟩ := hcancel 1 _ moment hsecond rfl hmoment
  rw [hline] at hending
  rw [hprinted] at houtput
  have hstop : StepCommand.cancel ≠ .step := by decide
  exact ⟨⟨_, hsecond, rfl⟩, hlast 1 _ hsecond hstop, hending, houtput⟩

end Pseudocode
