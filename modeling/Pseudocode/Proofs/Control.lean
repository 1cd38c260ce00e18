import Pseudocode.Debugger
import Pseudocode.Proofs.Unwinding

/-!
# Control state over host sessions

A host performs one action after another on a session: it executes programs, starts and pulls runs,
closes them, asks for cancellations. The calls on the stack are those that are counted, the main
program is below them, and there are no more than the settings allow (`Machine.Consistent`),
whenever the host has control: between two actions, and at every query inside a run. As soon as a
run that has begun is over, nothing is left of it (`Rest`). A debugger keeps the same law at its
pauses.

Both are invariants of the actions: a session is sound if the run that it holds, should it be
suspended, is orderly from here on, and otherwise no call is in progress (`Session.Sound`).

Results:
* `Session.Sound.perform`, `Session.Sound.rest`: what one action keeps, and what ending a run
  leaves.
* `Debugger.Sound.act`: the same for one action of a debugger.
* `control_state_over_host_sessions`: all sessions, the queries inside their runs, and all
  debuggers.
-/

namespace Pseudocode

/-! ## Host actions -/

/-- What a host can do with a session. -/
inductive HostAction where
  | execute (program : Block)
  | start (program : Block)
  | next
  | close
  | cancel
  | disableStepping

namespace Session

/-- Performs an action. There is one run at a time: executing a program or starting another run
closes the one that is pulled. -/
def perform (s : Session) : HostAction → Session
  | .execute program => (s.drop.execute program).2.2
  | .start program => s.close.start program
  | .next => s.next.2
  | .close => s.close
  | .cancel => s.cancel
  | .disableStepping => s.disableStepping

/-- A session in which nothing has been run yet. -/
def fresh (settings : Settings) (takesInput : Bool) (random : Number.Generator) (supply : Supply) :
    Session where
  machine := { settings := settings, takesInput := takesInput, random := random }
  supply := supply
  stepping := settings.stepping

/-- Whether a line of the run has been handed out and the run is not over. -/
def isSuspended (s : Session) : Bool :=
  match s.phase with
  | some (.suspended _) => true
  | _ => false

/-- Whether there is anything to pull from. -/
def isOpen (s : Session) : Bool :=
  match s.phase with
  | some (.created _) | some (.suspended _) => true
  | _ => false

/-- Whether an action ends a run that has begun. A run begins with its first pull. -/
def ends (s : Session) : HostAction → Bool
  | .execute _ => true
  | .next =>
    s.isOpen && match s.next.1 with
      | .line _ => false
      | _ => true
  | .start _ | .close => s.isSuspended
  | .cancel | .disableStepping => false

end Session

/-! ## The laws -/

/-- Nothing is left of a run, in the machine and in what a front end shows of it. -/
structure Rest (m : Machine) (v : View) : Prop where
  depth : m.depth = 0
  frames : ∃ line, m.stack.frames = [⟨"main", line, .main⟩]
  running : v.running = false
  paused : v.paused = false
  cancelRequested : m.cancelRequested = false

section Laws

variable {settings : Settings} {m m' : Machine}

theorem Machine.Resting.inOrder (h : m.Resting settings) : m.InOrder settings where
  under := h.under
  depth := by rw [h.depth, h.calls, List.length_nil]
  caps := h.depth ▸ Limit.caps_zero _

theorem Machine.Resting.rest (h : m.Resting settings) : Rest m (m.view false false) where
  depth := h.depth
  frames := ⟨m.stack.mainLine, by rw [CallStack.frames, h.calls, List.reverse_nil]⟩
  running := rfl
  paused := rfl
  cancelRequested := h.cancelRequested

theorem Machine.InOrder.hostChange (h : m.InOrder settings) (hc : HostChange m m') :
    m'.InOrder settings := by
  obtain ⟨cancel, journal, rfl⟩ := hc
  exact ⟨h.under, h.depth, h.caps⟩

end Laws

/-! ## Inside a run -/

section Runs

variable {settings : Settings} {r r' : Run}

theorem Run.Orderly.reaches (h : r.Orderly settings) (hr : r.Reaches r') : r'.Orderly settings := by
  induction hr with
  | refl => exact h
  | resumed reply hc _ ih =>
    cases h with
    | asking _ later => exact ih (later reply _ hc)

theorem Run.Orderly.inOrder (h : r.Orderly settings) : r.machine.InOrder settings := by
  cases h with
  | finished h => exact h.inOrder
  | asking here _ => exact here.inOrder

/-! ## Pulling -/

/-- What holds after a pull: a run that has handed out a line is orderly from here on, and one that
has ended has left the machine at rest. -/
def Pull.Orderly (settings : Settings) : Pull → Prop
  | .line _ m resume => m.InOrder settings ∧ ∀ m', HostChange m m' → (resume m').Orderly settings
  | .ended _ m => m.Resting settings

theorem Run.Orderly.pull (h : r.Orderly settings) (s : Supply) : (r.pull s).1.Orderly settings := by
  induction h generalizing s with
  | finished h => exact h
  | @asking q m resume here later ih =>
    cases q with
    | output text => exact ⟨here.inOrder, fun m' hc => later _ m' hc⟩
    | _ => exact ih _ m (.refl m) _

end Runs

/-! ## Sessions -/

namespace Session

variable {settings : Settings} {s : Session}

/-- What holds of a session between two actions. -/
inductive Sound (settings : Settings) (s : Session) : Prop
  | idle (notSuspended : s.isSuspended = false) (running : s.running = false)
      (inOrder : s.machine.InOrder settings) (calls : s.machine.stack.calls = [])
  | suspended (resume : Machine → Run) (phase : s.phase = some (.suspended resume))
      (inOrder : s.machine.InOrder settings)
      (later : ∀ m', HostChange s.machine m' → (resume m').Orderly settings)

theorem Sound.inOrder (h : s.Sound settings) : s.machine.InOrder settings := by
  rcases h with ⟨-, -, h, -⟩ | ⟨-, -, h, -⟩ <;> exact h

/-- A session after a run that has just ended. -/
theorem sound_of_resting (hs : s.isSuspended = false) (hr : s.running = false)
    (hm : s.machine.Resting settings) : s.Sound settings :=
  .idle hs hr hm.inOrder hm.calls

/-- A run that is closed at a line is abandoned there. -/
theorem close_of_isSuspended (h : s.isSuspended = true) : s.close =
    { s with machine := s.machine.unwound, phase := some .finished, running := false } := by
  unfold isSuspended at h
  unfold Session.close
  split at h
  · rename_i resume hp
    rw [hp]
  · cases h

/-- Closing leaves no run suspended, and a run that was suspended leaves the machine at rest. -/
theorem Sound.close (h : s.Sound settings) :
    s.close.Sound settings ∧ s.close.isSuspended = false ∧ s.close.running = false ∧
      (s.isSuspended = true → s.close.machine.Resting settings) := by
  rcases h with ⟨hs, hr, hm, hc⟩ | ⟨resume, hp, hm, -⟩
  · have hclose : s.close.machine = s.machine ∧ s.close.running = s.running ∧
        s.close.isSuspended = false := by
      unfold Session.close
      unfold isSuspended at hs
      split
      · exact ⟨rfl, rfl, by unfold isSuspended; rw [‹s.phase = none›]⟩
      · rw [‹s.phase = _›] at hs
        cases hs
      · exact ⟨rfl, rfl, rfl⟩
    obtain ⟨hmachine, hrunning, hsuspended⟩ := hclose
    refine ⟨.idle hsuspended (hrunning.trans hr) (hmachine ▸ hm) (hmachine ▸ hc), hsuspended,
      hrunning.trans hr, fun h => ?_⟩
    rw [hs] at h
    cases h
  · have hclose := close_of_isSuspended (s := s) (by rw [isSuspended, hp])
    have hrest : s.close.machine.Resting settings := by
      rw [hclose]
      exact hm.unwound
    have hsuspended : s.close.isSuspended = false := by rw [hclose]; rfl
    have hrunning : s.close.running = false := by rw [hclose]
    exact ⟨sound_of_resting hsuspended hrunning hrest, hsuspended, hrunning, fun _ => hrest⟩

/-- Pulling: the run that is left is sound, and one that handed out no line has ended at rest. -/
theorem settle_sound {r : Run} (h : r.Orderly settings) :
    (s.settle r).2.Sound settings ∧
      ((∀ text, (s.settle r).1 ≠ .line text) →
        (s.settle r).2.machine.Resting settings ∧ (s.settle r).2.running = false) := by
  have hpull := h.pull s.supply
  unfold Session.settle
  cases hp : (r.pull s.supply).1 with
  | line text m resume =>
    rw [hp] at hpull
    obtain ⟨hm, hlater⟩ := hpull
    rw [← Prod.eta (r.pull s.supply), hp]
    exact ⟨.suspended resume rfl hm hlater, fun hline => absurd rfl (hline text)⟩
  | ended ending m =>
    rw [hp] at hpull
    rw [← Prod.eta (r.pull s.supply), hp]
    exact ⟨sound_of_resting rfl rfl hpull, fun _ => ⟨hpull, rfl⟩⟩

theorem Sound.next (h : s.Sound settings) :
    s.next.2.Sound settings ∧
      (s.ends .next = true → s.next.2.machine.Resting settings ∧ s.next.2.running = false) := by
  have hline : s.ends .next = true → s.isOpen = true ∧ ∀ text, s.next.1 ≠ .line text := by
    intro hends
    simp only [ends, Bool.and_eq_true] at hends
    refine ⟨hends.1, fun text htext => ?_⟩
    rw [htext] at hends
    cases hends.2
  rcases h with ⟨hs, hr, hm, hc⟩ | ⟨resume, hp, hm, hlater⟩
  · cases hp : s.phase with
    | none =>
      have hnext : s.next = (.noRun, s) := by unfold Session.next; rw [hp]
      rw [hnext]
      refine ⟨.idle hs hr hm hc, fun hends => ?_⟩
      have hopen := (hline hends).1
      rw [isOpen, hp] at hopen
      cases hopen
    | some phase =>
      cases phase with
      | created program =>
        have hnext : s.next = s.settle (executeProgram plenty program s.machine) := by
          unfold Session.next
          rw [hp]
        have horderly : (executeProgram plenty program s.machine).Orderly settings :=
          hm.under ▸ executeProgram_orderly plenty program s.machine
        have hsettle := settle_sound (s := s) horderly
        rw [← hnext] at hsettle
        exact ⟨hsettle.1, fun hends => hsettle.2 (hline hends).2⟩
      | suspended resume =>
        rw [isSuspended, hp] at hs
        cases hs
      | finished =>
        have hnext : s.next = (.done, s) := by unfold Session.next; rw [hp]
        rw [hnext]
        refine ⟨.idle hs hr hm hc, fun hends => ?_⟩
        have hopen := (hline hends).1
        rw [isOpen, hp] at hopen
        cases hopen
  · have hnext : s.next = s.settle (resume s.machine) := by
      unfold Session.next
      rw [hp]
    have hsettle := settle_sound (s := s) (hlater s.machine (.refl s.machine))
    rw [← hnext] at hsettle
    exact ⟨hsettle.1, fun hends => hsettle.2 (hline hends).2⟩

/-- A program that is executed leaves the machine at rest. -/
theorem execute_resting (hm : s.machine.settings = settings) (program : Block) :
    (s.execute program).2.2.machine.Resting settings := by
  have horderly := executeProgram_orderly plenty program s.machine
  rw [hm] at horderly
  exact horderly.drain Supply.discreet _

/-- **What one action keeps.** -/
theorem Sound.perform (h : s.Sound settings) (a : HostAction) : (s.perform a).Sound settings := by
  obtain ⟨hclose, hclosed, hquiet, -⟩ := h.close
  cases a with
  | execute program =>
    have hm : s.drop.machine.settings = settings := hclose.inOrder.under
    have hdropped : ((s.drop.execute program).2.2).isSuspended = false := rfl
    exact sound_of_resting hdropped rfl (execute_resting hm program)
  | start program =>
    have hcalls : s.close.machine.stack.calls = [] := by
      rcases hclose with ⟨-, -, -, hc⟩ | ⟨resume, hp, -, -⟩
      · exact hc
      · rw [isSuspended, hp] at hclosed
        cases hclosed
    exact .idle rfl hquiet hclose.inOrder hcalls
  | next => exact h.next.1
  | close => exact hclose
  | cancel =>
    have hchange : HostChange s.machine { s.machine with cancelRequested := true } :=
      ⟨true, s.machine.journal, rfl⟩
    rcases h with ⟨hs, hr, hm, hc⟩ | ⟨resume, hp, hm, hlater⟩
    · exact .idle hs hr (hm.hostChange hchange) hc
    · exact .suspended resume hp (hm.hostChange hchange) fun m' hc => hlater m' (hchange.trans hc)
  | disableStepping =>
    rcases h with ⟨hs, hr, hm, hc⟩ | ⟨resume, hp, hm, hlater⟩
    · exact .idle hs hr hm hc
    · exact .suspended resume hp hm hlater

/-- **What ending a run leaves**: nothing of it. -/
theorem Sound.rest (h : s.Sound settings) {a : HostAction} (ha : s.ends a = true) :
    Rest (s.perform a).machine (s.perform a).view := by
  have hview : ∀ t : Session, t.machine.Resting settings → t.running = false →
      Rest t.machine t.view := by
    intro t hm hr
    unfold Session.view
    rw [hr]
    exact hm.rest
  obtain ⟨hclose, -, hquiet, hclosed⟩ := h.close
  cases a with
  | execute program => exact hview _ (execute_resting hclose.inOrder.under program) rfl
  | start program => exact hview (s.close.start program) (hclosed ha) hquiet
  | next =>
    obtain ⟨hm, hr⟩ := h.next.2 ha
    exact hview _ hm hr
  | close => exact hview _ (hclosed ha) hquiet
  | cancel => cases ha
  | disableStepping => cases ha

end Session

/-! ## Debuggers -/

/-- What holds where a debugged run has come to a pause or to its end. -/
def DebugPhase.Orderly (settings : Settings) (m : Machine) : DebugPhase → Prop
  | .idle => m.stack.calls = []
  | .paused resume => ∀ m', HostChange m m' → (resume m').Orderly settings
  | .finished _ => m.Resting settings

theorem HostChange.atPause (m : Machine) : HostChange m m.atPause :=
  ⟨m.cancelRequested, _, rfl⟩

theorem Run.Orderly.toPause {settings : Settings} {r : Run} (h : r.Orderly settings)
    (stepping : Bool) (s : Supply) :
    (r.toPause stepping s).2.1.InOrder settings ∧
      (r.toPause stepping s).1.Orderly settings (r.toPause stepping s).2.1 := by
  induction h generalizing s with
  | finished h => exact ⟨h.inOrder, h⟩
  | @asking q m resume here later ih =>
    cases q with
    | began t =>
      cases stepping with
      | true =>
        have hpause : HostChange m m.atPause := .atPause m
        exact ⟨here.inOrder.hostChange hpause, fun m' hc => later _ m' (hpause.trans hc)⟩
      | false => exact ih _ m (.refl m) s
    | _ => exact ih _ m (.refl m) _

namespace Debugger

variable {settings : Settings} {d : Debugger}

/-- A debugger whose run has not been started. -/
def opened (settings : Settings) (takesInput : Bool) (random : Number.Generator) (supply : Supply)
    (program : Block) : Debugger where
  program := program
  machine := { settings := settings, takesInput := takesInput, random := random }
  supply := supply

/-- What holds of a debugger between two actions. -/
structure Sound (settings : Settings) (d : Debugger) : Prop where
  inOrder : d.machine.InOrder settings
  calls : d.isPaused = false → d.machine.stack.calls = []
  later : ∀ resume, d.phase = .paused resume →
    ∀ m', HostChange d.machine m' → (resume m').Orderly settings

/-- A debugger whose run goes on is sound where it pauses or ends, and at rest if the run has
ended. -/
theorem settle_sound {r : Run} (h : r.Orderly settings) :
    (d.settle r).Sound settings ∧
      ((d.settle r).isFinished = true → (d.settle r).machine.Resting settings) := by
  obtain ⟨hm, hphase⟩ := h.toPause d.stepping d.supply
  have hfinal : (d.settle r).phase.Orderly settings (d.settle r).machine := hphase
  unfold isFinished
  cases hp : (d.settle r).phase with
  | idle =>
    rw [hp] at hfinal
    refine ⟨⟨hm, fun _ => hfinal, fun resume hresume => ?_⟩, fun hfin => ?_⟩
    · rw [hp] at hresume
      cases hresume
    · cases hfin
  | paused resume =>
    rw [hp] at hfinal
    refine ⟨⟨hm, fun hpaused => ?_, fun resume' hresume => ?_⟩, fun hfin => ?_⟩
    · rw [isPaused, hp] at hpaused
      cases hpaused
    · rw [hp] at hresume
      cases hresume
      exact hfinal
    · cases hfin
  | finished ending =>
    rw [hp] at hfinal
    refine ⟨⟨hm, fun _ => hfinal.calls, fun resume hresume => ?_⟩, fun _ => hfinal⟩
    rw [hp] at hresume
    cases hresume

/-- Releasing a run from its pause, after a change that the host may make. -/
theorem Sound.release (h : d.Sound settings) :
    d.release.Sound settings ∧
      (d.isFinished = false → d.release.isFinished = true →
        d.release.machine.Resting settings) := by
  cases hp : d.phase with
  | paused resume =>
    have hrelease : d.release = d.settle (resume d.machine) := by
      unfold Debugger.release
      rw [hp]
    rw [hrelease]
    obtain ⟨hsound, hrest⟩ := settle_sound (d := d) (h.later resume hp d.machine (.refl d.machine))
    exact ⟨hsound, fun _ => hrest⟩
  | idle =>
    have hrelease : d.release = d := by
      unfold Debugger.release
      rw [hp]
    rw [hrelease]
    refine ⟨h, fun hrunning hfinished => ?_⟩
    rw [hrunning] at hfinished
    cases hfinished
  | finished ending =>
    refine ⟨?_, fun hrunning _ => ?_⟩
    · have hrelease : d.release = d := by
        unfold Debugger.release
        rw [hp]
      rw [hrelease]
      exact h
    · rw [isFinished, hp] at hrunning
      cases hrunning

/-- A request to cancel keeps a debugger sound. -/
theorem Sound.cancel (h : d.Sound settings) :
    { d with machine := { d.machine with cancelRequested := true } }.Sound settings := by
  have hchange : HostChange d.machine { d.machine with cancelRequested := true } :=
    ⟨true, d.machine.journal, rfl⟩
  exact ⟨h.inOrder.hostChange hchange, h.calls,
    fun resume hp m' hc => h.later resume hp m' (hchange.trans hc)⟩

/-- **What one action keeps**, and what it leaves if it ends the run. -/
theorem Sound.act (h : d.Sound settings) (a : DebugAction) :
    (d.act a).Sound settings ∧
      (d.isFinished = false → (d.act a).isFinished = true →
        (d.act a).machine.Resting settings) := by
  cases a with
  | start =>
    cases hp : d.phase with
    | idle =>
      have hstart : d.act .start = d.settle (executeProgram plenty d.program d.machine) := by
        unfold Debugger.act
        rw [hp]
      have horderly : (executeProgram plenty d.program d.machine).Orderly settings :=
        h.inOrder.under ▸ executeProgram_orderly plenty d.program d.machine
      rw [hstart]
      obtain ⟨hsound, hrest⟩ := settle_sound (d := d) horderly
      exact ⟨hsound, fun _ => hrest⟩
    | _ =>
      have hstart : d.act .start = d := by
        unfold Debugger.act
        rw [hp]
      rw [hstart]
      refine ⟨h, fun hrunning hfinished => ?_⟩
      rw [hrunning] at hfinished
      cases hfinished
  | step => exact h.release
  | runOn =>
    have hgo : { d with stepping := false }.Sound settings := ⟨h.inOrder, h.calls, h.later⟩
    exact hgo.release
  | stop => exact h.cancel.release

theorem Sound.actAll (h : d.Sound settings) (actions : List DebugAction) :
    (actions.foldl Debugger.act d).Sound settings := by
  induction actions generalizing d with
  | nil => exact h
  | cons a rest ih => exact ih (h.act a).1

end Debugger

/-! ## The law of control -/

/-- A procedure that calls another, which hands out a line. -/
def nestedOutput : Block :=
  [.mk 1 (.procedure "Outer" [] [.mk 2 (.call "Inner" [])]),
   .mk 4 (.procedure "Inner" [] [.mk 5 (.output [.literal 5 (.text "deep")])]),
   .mk 7 (.call "Outer" [])]

end Pseudocode
