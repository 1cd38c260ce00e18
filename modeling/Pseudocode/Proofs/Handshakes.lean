import Pseudocode.Debugger.Handshake
import Pseudocode.Proofs.Unwinding

/-!
# No step is lost and none is taken twice

A debugging session is any sequence of steps of its two parties. Whatever the order is, the flags
and the places where the parties stand fit together (`Handshake.InStep`): as long as the worker is
busy no flag is up, and a front end that has been told of a pause finds the worker waiting there
until it releases it. So each release ends one pause, and it lets one statement run
(`Handshake.Balanced`). Seen from the front end, the session does not differ from a debugger that
performs one action at a time (`Handshake.Matches`).

Everything a step can do is listed once (`Handshake.Change`), and each of the three laws is kept by
each of these changes.

Results:
* `Handshake.change_of_step`: what a step can do.
* `InStep.change`, `Balanced.change`, `Matches.change`: what each change keeps.
* `handshake_loses_and_duplicates_no_step`: whole sessions.
-/

namespace Pseudocode

/-! ## What a step can do -/

/-- Moves of a front end that nobody sees: it begins to wait, goes on with its wait, or decides on a
command. -/
inductive FrontEnd.Turns (paused : Bool) : FrontEnd → FrontEnd → Prop
  | await : Turns paused .free .awaiting
  | awaitAgain : Turns paused .granted .awaiting
  /-- The wait is over because there is a pause, or because it has lasted too long. -/
  | return : Turns paused .awaiting .looking
  | found (hp : paused = true) : Turns paused .looking .checking
  | issue (c : StepCommand) : Turns paused .granted (.preparing c)

/-- The worker is busy, or has not been started: it neither is at a pause nor has reported the
end. -/
def Worker.IsBusy : Worker → Prop
  | .unstarted _ _ | .running _ | .pausing _ _ | .ended _ _ => True
  | _ => False

/-- A front end that has not been told of a pause, nor is about to be told. -/
def FrontEnd.IsApart : FrontEnd → Prop
  | .free | .awaiting | .looking => True
  | _ => False

/-- A front end that is not between taking one flag down and raising the other. -/
def FrontEnd.IsWhole : FrontEnd → Prop
  | .raising _ => False
  | _ => True

section Turns

variable {f f' : FrontEnd} {paused : Bool}

theorem FrontEnd.Turns.isWhole (ht : f.Turns paused f') : f.IsWhole ∧ f'.IsWhole := by
  cases ht <;> exact ⟨trivial, trivial⟩

/-- As long as there is no pause, a front end that has not been told of one is not told of one. -/
theorem FrontEnd.Turns.isApart (ht : f.Turns false f') (ha : f.IsApart) : f'.IsApart := by
  cases ht with
  | awaitAgain => exact ha.elim
  | found hp => cases hp
  | issue c => exact ha.elim
  | _ => trivial

end Turns

/-- The releases of a session. -/
def SessionEvent.isRelease : SessionEvent → Bool
  | .raised _ => true
  | _ => false

namespace Handshake

/-- **What one step of a session can do.** -/
inductive Change (h : Handshake) : Handshake → Prop
  | idles : Change h h
  | starts {program : Block} {m : Machine} (hw : h.worker = .unstarted program m)
      (hf : h.front = .free) :
      Change h ({ h with worker := .running (executeProgram plenty program m) }.record .started)
  | asks {q : Query} {m : Machine} {resume : q.Reply → Machine → Run} (hq : ¬ q.IsBegan)
      (hw : h.worker = .running (.asking q m resume)) :
      Change h { h with
        worker := .running (resume (h.supply.reply q).1 m), supply := (h.supply.reply q).2 }
  | passes {t : Stmt} {m : Machine} {resume : Query.Reply (.began t) → Machine → Run}
      (hs : h.stepping = false) (hw : h.worker = .running (.asking (.began t) m resume)) :
      Change h ({ h with worker := .running (resume (.ok ()) m) }.record .passed)
  | pauses {t : Stmt} {m : Machine} {resume : Query.Reply (.began t) → Machine → Run}
      (hs : h.stepping = true) (hw : h.worker = .running (.asking (.began t) m resume)) :
      Change h { h with worker := .pausing m.atPause (resume (.ok ())) }
  | ends {ending : Except Halt Unit} {m : Machine} (hw : h.worker = .running (.finished ending m)) :
      Change h { h with worker := .ended ending m }
  | announces {m : Machine} {resume : Machine → Run} (hw : h.worker = .pausing m resume) :
      Change h ({ h with worker := .waiting m resume, paused := true }.record .announced)
  | wakes {m : Machine} {resume : Machine → Run} (hw : h.worker = .waiting m resume)
      (hr : h.released = true) :
      Change h { h with worker := .woken m resume }
  | runs {m : Machine} {resume : Machine → Run} (hw : h.worker = .woken m resume) :
      Change h ({ h with worker := .running (resume m), released := false }.record .ran)
  | reports {ending : Except Halt Unit} {m : Machine} (hw : h.worker = .ended ending m) :
      Change h { h with worker := .closing ending m, finished := true }
  | closes {ending : Except Halt Unit} {m : Machine} (hw : h.worker = .closing ending m) :
      Change h { h with worker := .gone ending m, paused := true }
  | turns {f : FrontEnd} (hf : h.front.Turns h.paused f) : Change h { h with front := f }
  /-- The front end is told that there is no pause: it has waited too long, or the run is over. -/
  | denies (hf : h.front = .looking ∧ h.paused = false ∨ h.front = .checking ∧ h.finished = true) :
      Change h ({ h with front := .free }.record (.told false))
  | grants (hf : h.front = .checking) (hn : h.finished = false) :
      Change h ({ h with front := .granted }.record (.told true))
  | prepares {c : StepCommand} (hf : h.front = .preparing c) :
      Change h { h.prepare c with front := .clearing c }
  | clears {c : StepCommand} (hf : h.front = .clearing c) :
      Change h { h with front := .raising c, paused := false }
  | raises {c : StepCommand} (hf : h.front = .raising c) :
      Change h ({ h with front := .free, released := true }.record (.raised c))

section Steps

variable {h h' : Handshake}

theorem change_advance {r : Run} (hw : h.worker = .running r) : h.Change (h.advance r) := by
  cases r with
  | finished ending m => exact .ends hw
  | asking q m resume =>
    by_cases hq : q.IsBegan
    · cases q with
      | began t =>
        show h.Change (if h.stepping = true then _ else _)
        by_cases hs : h.stepping = true
        · rw [if_pos hs]
          exact .pauses hs hw
        · rw [if_neg hs]
          exact .passes (Bool.eq_false_iff.mpr hs) hw
      | _ => exact hq.elim
    · have hadvance : h.advance (.asking q m resume) =
          { h with
            worker := .running (resume (h.supply.reply q).1 m)
            supply := (h.supply.reply q).2 } := by
        cases q with
        | began t => exact absurd trivial hq
        | _ => rfl
      rw [hadvance]
      exact .asks hq hw

theorem change_of_work (hs : h.work = some h') : h.Change h' := by
  unfold work at hs
  cases hw : h.worker with
  | unstarted program m =>
    rw [hw] at hs
    cases hs
  | running r =>
    rw [hw] at hs
    cases hs
    exact change_advance hw
  | pausing m resume =>
    rw [hw] at hs
    cases hs
    exact .announces hw
  | waiting m resume =>
    rw [hw] at hs
    dsimp only at hs
    by_cases hr : h.released = true
    · rw [if_pos hr] at hs
      cases hs
      exact .wakes hw hr
    · rw [if_neg hr] at hs
      cases hs
  | woken m resume =>
    rw [hw] at hs
    cases hs
    exact .runs hw
  | ended ending m =>
    rw [hw] at hs
    cases hs
    exact .reports hw
  | closing ending m =>
    rw [hw] at hs
    cases hs
    exact .closes hw
  | gone ending m =>
    rw [hw] at hs
    cases hs

theorem change_of_goOn (hs : h.goOn = some h') : h.Change h' := by
  unfold goOn at hs
  cases hf : h.front with
  | awaiting =>
    rw [hf] at hs
    dsimp only at hs
    by_cases hp : h.paused = true
    · rw [if_pos hp] at hs
      cases hs
      exact .turns (by rw [hf]; exact .return)
    · rw [if_neg hp] at hs
      cases hs
  | looking =>
    rw [hf] at hs
    dsimp only at hs
    by_cases hp : h.paused = true
    · rw [if_pos hp] at hs
      cases hs
      exact .turns (by rw [hf]; exact .found hp)
    · rw [if_neg hp] at hs
      cases hs
      exact .denies (Or.inl ⟨hf, Bool.eq_false_iff.mpr hp⟩)
  | checking =>
    rw [hf] at hs
    dsimp only at hs
    by_cases hn : h.finished = true
    · rw [if_pos hn] at hs
      cases hs
      exact .denies (Or.inr ⟨hf, hn⟩)
    · rw [if_neg hn] at hs
      cases hs
      exact .grants hf (Bool.eq_false_iff.mpr hn)
  | preparing c =>
    rw [hf] at hs
    cases hs
    exact .prepares hf
  | clearing c =>
    rw [hf] at hs
    cases hs
    exact .clears hf
  | raising c =>
    rw [hf] at hs
    cases hs
    exact .raises hf
  | free =>
    rw [hf] at hs
    cases hs
  | granted =>
    rw [hf] at hs
    cases hs

theorem change_start (hf : h.front = .free) : h.Change h.start := by
  unfold start
  cases hw : h.worker with
  | unstarted program m => exact .starts hw hf
  | _ => exact .idles

theorem change_of_attend {a : FrontMove} (hs : h.attend a = some h') : h.Change h' := by
  unfold attend at hs
  cases a with
  | goOn => exact change_of_goOn hs
  | start =>
    cases hf : h.front with
    | free =>
      rw [hf] at hs
      cases hs
      exact change_start hf
    | _ =>
      rw [hf] at hs
      cases hs
  | await =>
    cases hf : h.front with
    | free =>
      rw [hf] at hs
      cases hs
      exact .turns (by rw [hf]; exact .await)
    | granted =>
      rw [hf] at hs
      cases hs
      exact .turns (by rw [hf]; exact .awaitAgain)
    | _ =>
      rw [hf] at hs
      cases hs
  | timeOut =>
    cases hf : h.front with
    | awaiting =>
      rw [hf] at hs
      cases hs
      exact .turns (by rw [hf]; exact .return)
    | _ =>
      rw [hf] at hs
      cases hs
  | issue c =>
    cases hf : h.front with
    | granted =>
      rw [hf] at hs
      cases hs
      exact .turns (by rw [hf]; exact .issue c)
    | _ =>
      rw [hf] at hs
      cases hs

/-- **A step is one of these changes.** -/
theorem change_of_step {move : Move} (hs : h.step move = some h') : h.Change h' := by
  cases move with
  | worker => exact change_of_work hs
  | front a => exact change_of_attend hs

/-- What every change keeps, a session keeps. -/
theorem follow_induction {P : Handshake → Prop} (hstep : ∀ {h h'}, P h → h.Change h' → P h')
    {moves : List Move} (hstart : P h) (hs : h.follow moves = some h') : P h' := by
  unfold follow at hs
  induction moves generalizing h with
  | nil =>
    cases hs
    exact hstart
  | cons move rest ih =>
    rw [List.foldlM_cons] at hs
    obtain ⟨h₁, hmove, hrest⟩ := Option.bind_eq_some_iff.mp hs
    exact ih (hstep hstart (change_of_step hmove)) hrest

end Steps

/-! ## The parties are in step -/

/-- **How the parties and the flags `paused`, `released` and `finished` fit together.** -/
inductive Fits : Worker → FrontEnd → Bool → Bool → Bool → Prop
  | busy {w : Worker} {f : FrontEnd} (hw : w.IsBusy) (hf : f.IsApart) : Fits w f false false false
  | held {m : Machine} {resume : Machine → Run} {f : FrontEnd} (hf : f.IsWhole) :
      Fits (.waiting m resume) f true false false
  | freeing (m : Machine) (resume : Machine → Run) (c : StepCommand) :
      Fits (.waiting m resume) (.raising c) false false false
  | freed {m : Machine} {resume : Machine → Run} {f : FrontEnd} (hf : f.IsApart) :
      Fits (.waiting m resume) f false true false
  | woken {m : Machine} {resume : Machine → Run} {f : FrontEnd} (hf : f.IsApart) :
      Fits (.woken m resume) f false true false
  | closing {ending : Except Halt Unit} {m : Machine} {f : FrontEnd} (hf : f.IsApart) :
      Fits (.closing ending m) f false false true
  | gone {ending : Except Halt Unit} {m : Machine} {f : FrontEnd} (hf : f.IsApart ∨ f = .checking) :
      Fits (.gone ending m) f true false true

/-- The parties are in step. -/
def InStep (h : Handshake) : Prop :=
  Fits h.worker h.front h.paused h.released h.finished

section Fits

variable {w w' : Worker} {f f' : FrontEnd} {paused released finished : Bool}

/-- A worker that stays busy. -/
theorem Fits.goesOn (hi : Fits w f paused released finished) (hw : w.IsBusy) (hw' : w'.IsBusy) :
    Fits w' f paused released finished := by
  cases hi with
  | busy _ hf => exact .busy hw' hf
  | _ => exact hw.elim

/-- As long as the worker is busy no flag is up. -/
theorem Fits.lowered (hi : Fits w f paused released finished) (hw : w.IsBusy) :
    paused = false ∧ released = false ∧ finished = false := by
  cases hi with
  | busy _ _ => exact ⟨rfl, rfl, rfl⟩
  | _ => exact hw.elim

/-- A worker that is gone has said so. -/
theorem Fits.over {ending : Except Halt Unit} {m : Machine}
    (hi : Fits (.gone ending m) f paused released finished) : paused = true ∧ finished = true := by
  cases hi with
  | busy hw _ => exact hw.elim
  | gone _ => exact ⟨rfl, rfl⟩

/-- A front end that is not in the midst of a release may leave what it is doing. -/
theorem Fits.free (hi : Fits w f paused released finished) (hf : f.IsWhole) :
    Fits w .free paused released finished := by
  cases hi with
  | busy hw _ => exact .busy hw trivial
  | held _ => exact .held trivial
  | freeing m resume c => exact hf.elim
  | freed _ => exact .freed trivial
  | woken _ => exact .woken trivial
  | closing _ => exact .closing trivial
  | gone _ => exact .gone (Or.inl trivial)

/-- **A front end that has been told of a pause finds the worker there**, and so does one that is
about to be told, unless it is told that the run is over. -/
theorem Fits.knows (hi : Fits w f paused released finished) (hf : f.IsWhole) (hknows : ¬ f.IsApart)
    (hopen : f = .checking → finished = false) :
    ∃ m resume, w = .waiting m resume ∧ paused = true ∧ released = false ∧ finished = false := by
  cases hi with
  | busy _ ha => exact absurd ha hknows
  | held _ => exact ⟨_, _, rfl, rfl, rfl, rfl⟩
  | freeing m resume c => exact hf.elim
  | freed ha => exact absurd ha hknows
  | woken ha => exact absurd ha hknows
  | closing ha => exact absurd ha hknows
  | gone ha =>
    rcases ha with ha | rfl
    · exact absurd ha hknows
    · cases hopen rfl

/-- A front end that is about to release the worker finds it waiting, with no flag up. -/
theorem Fits.releasing {c : StepCommand} (hi : Fits w (.raising c) paused released finished) :
    ∃ m resume, w = .waiting m resume ∧ paused = false ∧ released = false ∧ finished = false := by
  cases hi with
  | freeing m resume c => exact ⟨m, resume, rfl, rfl, rfl, rfl⟩
  | busy _ ha => exact ha.elim
  | held hf => exact hf.elim
  | freed ha => exact ha.elim
  | woken ha => exact ha.elim
  | closing ha => exact ha.elim
  | gone ha =>
    rcases ha with ha | ha
    · exact ha.elim
    · cases ha

theorem Fits.turns (hi : Fits w f paused released finished) (ht : f.Turns paused f') :
    Fits w f' paused released finished := by
  cases hi with
  | busy hw ha => exact .busy hw (ht.isApart ha)
  | held _ => exact .held ht.isWhole.2
  | freeing m resume c => exact ht.isWhole.1.elim
  | freed ha => exact .freed (ht.isApart ha)
  | woken ha => exact .woken (ht.isApart ha)
  | closing ha => exact .closing (ht.isApart ha)
  | gone ha =>
    refine .gone ?_
    rcases ha with ha | rfl
    · cases ht with
      | awaitAgain => exact ha.elim
      | found hp => exact Or.inr rfl
      | issue c => exact ha.elim
      | _ => exact Or.inl trivial
    · cases ht

end Fits

/-- **What each change keeps**: the parties stay in step. -/
theorem InStep.change {h h' : Handshake} (hi : h.InStep) (hc : h.Change h') : h'.InStep := by
  obtain ⟨worker, front, paused, released, finished, stepping, supply, log⟩ := h
  unfold InStep at hi
  cases hc with
  | idles => exact hi
  | starts hw hf =>
    cases hw
    exact hi.goesOn trivial trivial
  | asks hq hw =>
    cases hw
    exact hi.goesOn trivial trivial
  | passes hs hw =>
    cases hw
    exact hi.goesOn trivial trivial
  | pauses hs hw =>
    cases hw
    exact hi.goesOn trivial trivial
  | ends hw =>
    cases hw
    exact hi.goesOn trivial trivial
  | announces hw =>
    cases hw
    cases hi with
    | busy _ ha =>
      -- The front end may be waiting already, or have given up; it cannot be about to raise the
      -- other flag.
      refine .held ?_
      cases front with
      | raising c => exact ha.elim
      | _ => trivial
  | wakes hw hr =>
    cases hw
    cases hr
    -- A worker may wait in three ways, and the flag that wakes it is up in one of them only.
    cases hi with
    | freed ha => exact .woken ha
  | runs hw =>
    cases hw
    cases hi with
    | busy hw _ => exact hw.elim
    | woken ha => exact .busy trivial ha
  | reports hw =>
    cases hw
    cases hi with
    | busy _ ha => exact .closing ha
  | closes hw =>
    cases hw
    cases hi with
    | busy hw _ => exact hw.elim
    | closing ha => exact .gone (Or.inl ha)
  | turns ht => exact hi.turns ht
  | denies hf =>
    rcases hf with ⟨hf, -⟩ | ⟨hf, -⟩
    · cases hf
      exact hi.free trivial
    · cases hf
      exact hi.free trivial
  | grants hf hn =>
    cases hf
    -- `paused` was looked at earlier and `finished` only now, but nobody else takes `paused` down.
    obtain ⟨m, resume, rfl, rfl, rfl, rfl⟩ := hi.knows trivial id fun _ => hn
    exact .held trivial
  | @prepares c hf =>
    cases hf
    obtain ⟨m, resume, rfl, rfl, rfl, rfl⟩ := hi.knows trivial id fun hf => by cases hf
    cases c <;> exact .held trivial
  | clears hf =>
    cases hf
    obtain ⟨m, resume, rfl, rfl, rfl, rfl⟩ := hi.knows trivial id fun hf => by cases hf
    exact .freeing m resume _
  | raises hf =>
    cases hf
    obtain ⟨m, resume, rfl, rfl, rfl, rfl⟩ := hi.releasing
    exact .freed trivial

/-! ## Pauses and releases -/

/-- The worker has announced a pause and has not gone on from it. -/
def isHeld (h : Handshake) : Bool :=
  match h.worker with
  | .waiting _ _ | .woken _ _ => true
  | _ => false

/-- It has been released from that pause. -/
def isLetGo (h : Handshake) : Bool :=
  match h.worker with
  | .waiting _ _ => h.released
  | .woken _ _ => true
  | _ => false

/-- **The balance of a session.** Every pause but the present one has been ended by a statement that
ran, and every release, but for one that has not taken effect yet, has let one statement run. No
other statement runs as long as the worker pauses. -/
structure Balanced (h : Handshake) : Prop where
  pauses : h.log.count .announced = h.log.count .ran + h.isHeld.toNat
  releases : h.log.countP SessionEvent.isRelease = h.log.count .ran + h.isLetGo.toNat
  passed : h.stepping = true → h.log.count .passed = 0

section Balance

variable {h h' : Handshake}

/-- A change that nothing in the balance depends on. -/
theorem Balanced.same (hb : h.Balanced) (hlog : h'.log = h.log) (hheld : h'.isHeld = h.isHeld)
    (hletGo : h'.isLetGo = h.isLetGo) (hs : h'.stepping = true → h.stepping = true) :
    h'.Balanced where
  pauses := by rw [hlog, hheld]; exact hb.pauses
  releases := by rw [hlog, hletGo]; exact hb.releases
  passed hstepping := by rw [hlog]; exact hb.passed (hs hstepping)

/-- Events that concern neither pauses nor statements. -/
theorem Balanced.record {e : SessionEvent} (hb : h.Balanced)
    (he : e = .started ∨ ∃ found, e = .told found) : (h.record e).Balanced := by
  rcases he with rfl | ⟨found, rfl⟩ <;> exact ⟨hb.pauses, hb.releases, hb.passed⟩

/-- **What each change keeps**: the balance. -/
theorem Balanced.change (hb : h.Balanced) (hi : h.InStep) (hc : h.Change h') : h'.Balanced := by
  obtain ⟨worker, front, paused, released, finished, stepping, supply, log⟩ := h
  unfold InStep at hi
  cases hc with
  | idles => exact hb
  | starts hw hf =>
    cases hw
    exact .record (.same hb rfl rfl rfl id) (Or.inl rfl)
  | asks hq hw =>
    cases hw
    exact hb.same rfl rfl rfl id
  | passes hs hw =>
    cases hw
    exact ⟨hb.pauses, hb.releases, fun hstepping =>
      absurd (hs.symm.trans hstepping) Bool.false_ne_true⟩
  | pauses hs hw =>
    cases hw
    exact hb.same rfl rfl rfl id
  | ends hw =>
    cases hw
    exact hb.same rfl rfl rfl id
  | announces hw =>
    cases hw
    cases hi with
    | busy _ _ =>
      exact ⟨by simpa [Handshake.record, isHeld] using hb.pauses, hb.releases, hb.passed⟩
  | wakes hw hr =>
    cases hw
    cases hr
    exact hb.same rfl rfl rfl id
  | runs hw =>
    cases hw
    refine ⟨?_, ?_, hb.passed⟩
    · simpa [Handshake.record, isHeld] using hb.pauses
    · simpa [Handshake.record, isLetGo, SessionEvent.isRelease] using hb.releases
  | reports hw =>
    cases hw
    exact hb.same rfl rfl rfl id
  | closes hw =>
    cases hw
    exact hb.same rfl rfl rfl id
  | turns ht => exact hb.same rfl rfl rfl id
  | denies hf => exact .record (.same hb rfl rfl rfl id) (Or.inr ⟨false, rfl⟩)
  | grants hf hn => exact .record (.same hb rfl rfl rfl id) (Or.inr ⟨true, rfl⟩)
  | @prepares c hf =>
    cases hf
    obtain ⟨m, resume, rfl, rfl, rfl, rfl⟩ := hi.knows trivial id fun hf => by cases hf
    cases c with
    | step => exact hb.same rfl rfl rfl id
    | runOn => exact hb.same rfl rfl rfl fun hs => by cases hs
    | cancel => exact hb.same rfl rfl rfl id
  | clears hf => exact hb.same rfl rfl rfl id
  | raises hf =>
    cases hf
    obtain ⟨m, resume, rfl, rfl, rfl, rfl⟩ := hi.releasing
    refine ⟨hb.pauses, ?_, hb.passed⟩
    simpa [Handshake.record, isLetGo, SessionEvent.isRelease, List.countP_cons] using hb.releases

end Balance

end Handshake

/-! ## One action at a time -/

/-- What the front end does to a debugger with a command. -/
def StepCommand.action : StepCommand → DebugAction
  | .step => .step
  | .runOn => .runOn
  | .cancel => .stop

/-- A debugger for which a command has been prepared. -/
def StepCommand.prepared (d : Debugger) : StepCommand → Debugger
  | .step => d
  | .runOn => { d with stepping := false }
  | .cancel => { d with machine := { d.machine with cancelRequested := true } }

theorem Debugger.act_action (d : Debugger) (c : StepCommand) :
    d.act c.action = (c.prepared d).release := by
  cases c <;> rfl

/-- The actions that a session consists of. -/
def SessionEvent.action? : SessionEvent → Option DebugAction
  | .started => some .start
  | .raised c => some c.action
  | _ => none

/-- A debugger once it has performed the actions of a session, one after the other. -/
def Debugger.after (d : Debugger) (log : List SessionEvent) : Debugger :=
  (log.filterMap SessionEvent.action?).reverse.foldl Debugger.act d

theorem Debugger.after_cons (d : Debugger) {e : SessionEvent} {a : DebugAction}
    (he : e.action? = some a) (log : List SessionEvent) :
    d.after (e :: log) = (d.after log).act a := by
  unfold Debugger.after
  rw [List.filterMap_cons_some he, List.reverse_cons, List.foldl_append]
  rfl

theorem Debugger.act_start {d : Debugger} (h : d.phase = .idle) :
    d.act .start = d.settle (executeProgram plenty d.program d.machine) := by
  unfold Debugger.act
  rw [h]

theorem Debugger.release_paused {d : Debugger} {resume : Machine → Run}
    (h : d.phase = .paused resume) : d.release = d.settle (resume d.machine) := by
  unfold Debugger.release
  rw [h]

/-- The command that has been prepared and not been carried out. -/
def FrontEnd.pending? : FrontEnd → Option StepCommand
  | .clearing c | .raising c => some c
  | _ => none

/-- Who has not been told of a pause has prepared no command. -/
theorem FrontEnd.IsApart.pending?_eq {f : FrontEnd} (ha : f.IsApart) : f.pending? = none := by
  cases f with
  | free => rfl
  | awaiting => rfl
  | looking => rfl
  | _ => exact ha.elim

theorem FrontEnd.Turns.pending?_eq {f f' : FrontEnd} {paused : Bool} (ht : f.Turns paused f') :
    f'.pending? = f.pending? := by
  cases ht <;> rfl

namespace Handshake

/-- The debugger is paused where the worker is. -/
structure HeldAs (stepping : Bool) (supply : Supply) (m : Machine)
    (resume : Machine → Run) (d : Debugger) : Prop where
  phase : d.phase = .paused resume
  machine : d.machine = m
  supply : d.supply = supply
  stepping : d.stepping = stepping

/-- The debugger is where the worker's run will pause or end. -/
structure Heads (stepping : Bool) (supply : Supply) (r : Run) (d : Debugger) : Prop where
  rest : r.toPause stepping supply = (d.phase, d.machine, d.supply)
  stepping : d.stepping = stepping

/-- **A session and the debugger that performs its actions one at a time.** -/
def Matches (h : Handshake) (d : Debugger) : Prop :=
  match h.worker with
  | .unstarted program m =>
    d.phase = .idle ∧ d.program = program ∧ d.machine = m ∧ d.supply = h.supply ∧
      d.stepping = h.stepping
  | .running r => Heads h.stepping h.supply r d
  | .pausing m resume => HeldAs h.stepping h.supply m resume d
  | .waiting m resume =>
    if h.released then Heads h.stepping h.supply (resume m) d
    else HeldAs h.stepping h.supply m resume (h.front.pending?.elim d fun c => c.prepared d)
  | .woken m resume => Heads h.stepping h.supply (resume m) d
  | .ended ending m | .closing ending m | .gone ending m =>
    d.phase = .finished ending ∧ d.machine = m ∧ d.supply = h.supply

section Matching

variable {h h' : Handshake} {d d₀ : Debugger}

/-- Which command is pending is all that matters of the front end. -/
theorem Matches.front {f : FrontEnd} (hm : h.Matches d) (hf : f.pending? = h.front.pending?) :
    { h with front := f }.Matches d := by
  unfold Matches at hm ⊢
  cases hw : h.worker with
  | waiting m resume =>
    rw [hw] at hm
    dsimp only at hm ⊢
    rw [hf]
    exact hm
  | _ =>
    rw [hw] at hm
    exact hm

/-- A run that the debugger lets go on. -/
theorem heads_settle (r : Run) : Heads d.stepping d.supply r (d.settle r) :=
  ⟨rfl, rfl⟩

/-- A run that is released from its pause. -/
theorem HeldAs.release {stepping : Bool} {supply : Supply} {m : Machine} {resume : Machine → Run}
    (hd : HeldAs stepping supply m resume d) : Heads stepping supply (resume m) d.release := by
  obtain ⟨hphase, rfl, rfl, rfl⟩ := hd
  rw [Debugger.release_paused hphase]
  exact heads_settle _

/-- A run that begins a statement pauses there. -/
theorem Heads.pauses {supply : Supply} {t : Stmt} {m : Machine}
    {resume : Query.Reply (.began t) → Machine → Run}
    (hd : Heads true supply (.asking (.began t) m resume) d) :
    HeldAs true supply m.atPause (resume (.ok ())) d := by
  obtain ⟨hphase, hrest⟩ := Prod.mk.inj hd.rest
  obtain ⟨hmachine, hsupply⟩ := Prod.mk.inj hrest
  exact ⟨hphase.symm, hmachine.symm, hsupply.symm, hd.stepping⟩

theorem Heads.ends {stepping : Bool} {supply : Supply} {ending : Except Halt Unit} {m : Machine}
    (hd : Heads stepping supply (.finished ending m) d) :
    d.phase = .finished ending ∧ d.machine = m ∧ d.supply = supply := by
  obtain ⟨hphase, hrest⟩ := Prod.mk.inj hd.rest
  obtain ⟨hmachine, hsupply⟩ := Prod.mk.inj hrest
  exact ⟨hphase.symm, hmachine.symm, hsupply.symm⟩

/-- A query that is no announcement of a statement does not hold a run. -/
theorem toPause_asking {q : Query} (hq : ¬ q.IsBegan) (m : Machine)
    (resume : q.Reply → Machine → Run) (stepping : Bool) (s : Supply) :
    (Run.asking q m resume).toPause stepping s =
      (resume (s.reply q).1 m).toPause stepping (s.reply q).2 := by
  cases q with
  | began t => exact absurd trivial hq
  | _ => rfl

/-- **What each change keeps**: the session matches its debugger. -/
theorem Matches.change (hm : h.Matches (d₀.after h.log)) (hi : h.InStep) (hc : h.Change h') :
    h'.Matches (d₀.after h'.log) := by
  obtain ⟨worker, front, paused, released, finished, stepping, supply, log⟩ := h
  unfold InStep at hi
  dsimp only at hm
  cases hc with
  | idles => exact hm
  | starts hw hf =>
    cases hw
    show Heads stepping supply _ (d₀.after (.started :: log))
    rw [d₀.after_cons rfl]
    generalize d₀.after log = d at hm
    obtain ⟨hphase, rfl, rfl, rfl, rfl⟩ := hm
    rw [Debugger.act_start hphase]
    exact heads_settle _
  | asks hq hw =>
    cases hw
    obtain ⟨hrest, hstepping⟩ := hm
    rw [toPause_asking hq] at hrest
    exact ⟨hrest, hstepping⟩
  | passes hs hw =>
    cases hw
    cases hs
    exact ⟨hm.rest, hm.stepping⟩
  | pauses hs hw =>
    cases hw
    cases hs
    exact Heads.pauses hm
  | ends hw =>
    cases hw
    exact Heads.ends hm
  | announces hw =>
    cases hw
    cases hi with
    | busy _ ha =>
      show HeldAs stepping supply _ _ (front.pending?.elim _ _)
      rw [ha.pending?_eq]
      exact hm
  | wakes hw hr =>
    cases hw
    cases hr
    exact hm
  | runs hw =>
    cases hw
    exact hm
  | reports hw =>
    cases hw
    exact hm
  | closes hw =>
    cases hw
    exact hm
  | turns ht => exact Matches.front hm ht.pending?_eq
  | denies hf =>
    rcases hf with ⟨hf, -⟩ | ⟨hf, -⟩
    · cases hf
      exact Matches.front hm rfl
    · cases hf
      exact Matches.front hm rfl
  | grants hf hn =>
    cases hf
    exact Matches.front hm rfl
  | @prepares c hf =>
    cases hf
    obtain ⟨m, resume, rfl, rfl, rfl, rfl⟩ := hi.knows trivial id fun hf => by cases hf
    have hheld : HeldAs stepping supply m resume (d₀.after log) := hm
    obtain ⟨hphase, rfl, hsupply, hstepping⟩ := hheld
    cases c with
    | step => exact ⟨hphase, rfl, hsupply, hstepping⟩
    | runOn => exact ⟨hphase, rfl, hsupply, rfl⟩
    | cancel => exact ⟨hphase, rfl, hsupply, hstepping⟩
  | clears hf =>
    cases hf
    obtain ⟨m, resume, rfl, rfl, rfl, rfl⟩ := hi.knows trivial id fun hf => by cases hf
    exact hm
  | @raises c hf =>
    cases hf
    obtain ⟨m, resume, rfl, rfl, rfl, rfl⟩ := hi.releasing
    -- The debugger acts only now, and all at once: it is already where the worker has still to go.
    show Heads stepping supply _ (d₀.after (.raised c :: log))
    rw [d₀.after_cons rfl, Debugger.act_action]
    exact HeldAs.release hm

end Matching

/-! ## Nobody waits in vain -/

/-- **A party can always go on**: if the front end waits, or is in the midst of something, and it
cannot go on, then the worker can, unless it has not been started. -/
theorem InStep.progress {h : Handshake} (hi : h.InStep) (hf : h.front ≠ .free ∧ h.front ≠ .granted)
    (hw : ∀ program m, h.worker ≠ .unstarted program m) :
    (∃ h', h.step (.front .goOn) = some h') ∨ ∃ h', h.step .worker = some h' := by
  obtain ⟨worker, front, paused, released, finished, stepping, supply, log⟩ := h
  unfold InStep at hi
  cases front with
  | free => exact absurd rfl hf.1
  | granted => exact absurd rfl hf.2
  | awaiting =>
    cases hi with
    | busy hbusy _ =>
      cases worker with
      | unstarted program m => exact absurd rfl (hw program m)
      | running r => exact Or.inr ⟨_, rfl⟩
      | pausing m resume => exact Or.inr ⟨_, rfl⟩
      | ended ending m => exact Or.inr ⟨_, rfl⟩
      | _ => exact hbusy.elim
    | held _ => exact Or.inl ⟨_, rfl⟩
    | freed _ => exact Or.inr ⟨_, rfl⟩
    | woken _ => exact Or.inr ⟨_, rfl⟩
    | closing _ => exact Or.inr ⟨_, rfl⟩
    | gone _ => exact Or.inl ⟨_, rfl⟩
  | looking => cases paused <;> exact Or.inl ⟨_, rfl⟩
  | checking => cases finished <;> exact Or.inl ⟨_, rfl⟩
  | preparing c => exact Or.inl ⟨_, rfl⟩
  | clearing c => exact Or.inl ⟨_, rfl⟩
  | raising c => exact Or.inl ⟨_, rfl⟩

/-- Once a pause or the end has been announced, a wait for a pause is answered, and the answer tells
them apart. -/
theorem answers {h : Handshake} (hf : h.front = .awaiting) (hp : h.paused = true) :
    ∃ h', h.follow [.front .goOn, .front .goOn, .front .goOn] = some h' ∧
      h'.log = .told (!h.finished) :: h.log := by
  obtain ⟨worker, front, paused, released, finished, stepping, supply, log⟩ := h
  cases hf
  cases hp
  cases finished <;> exact ⟨_, rfl, rfl⟩

/-- **What each change keeps**: that the run is over, and how often a pause has been found. -/
theorem Change.told {h h' : Handshake} (hc : h.Change h') (hn : h.finished = true) :
    h'.finished = true ∧ h'.log.count (.told true) = h.log.count (.told true) := by
  cases hc with
  | grants hf hopen =>
    rw [hn] at hopen
    cases hopen
  | reports hw => exact ⟨rfl, rfl⟩
  | @prepares c hf => cases c <;> exact ⟨hn, rfl⟩
  | _ => exact ⟨hn, rfl⟩

/-- **No pause is found once the run is over.** -/
theorem told_of_finished {h h' : Handshake} (hn : h.finished = true) {later : List Move}
    (hs : h.follow later = some h') : h'.log.count (.told true) = h.log.count (.told true) := by
  have hkept :=
    follow_induction (P := fun g => g.finished = true ∧ g.log.count (.told true) = h.log.count
    (.told true)) (fun hg hc => ⟨(hc.told hg.1).1, (hc.told hg.1).2.trans hg.2⟩) ⟨hn, rfl⟩ hs
  exact hkept.2

/-! ## Sessions -/

/-- What holds at every point of a session. -/
structure Lawful (d₀ : Debugger) (h : Handshake) : Prop where
  inStep : h.InStep
  balanced : h.Balanced
  matched : h.Matches (d₀.after h.log)

theorem Lawful.change {d₀ : Debugger} {h h' : Handshake} (hl : h.Lawful d₀) (hc : h.Change h') :
    h'.Lawful d₀ :=
  ⟨hl.inStep.change hc, hl.balanced.change hl.inStep hc, hl.matched.change hl.inStep hc⟩

/-- **Every session is lawful.** -/
theorem lawful_of_follow {program : Block} {m₀ : Machine} {supply : Supply} {moves : List Move}
    {h : Handshake} (hs : (opened program m₀ supply).follow moves = some h) :
    h.Lawful { program := program, machine := m₀, supply := supply } := by
  have hopened :
      (opened program m₀ supply).Lawful { program := program, machine := m₀, supply := supply } :=
    ⟨.busy trivial trivial, ⟨rfl, rfl, fun _ => rfl⟩, ⟨rfl, rfl, rfl, rfl, rfl⟩⟩
  exact follow_induction Lawful.change hopened hs

end Handshake

open Handshake in
/-- **The handshake loses no step and takes none twice**, in whatever order the two parties move.

When the front end has been told of a pause, the worker waits there and has not been released; the
session is then where a debugger is that has performed the same actions one at a time. Each release
ends one pause and lets one statement run, and as long as the worker pauses no other statement runs.
No release is left over when the worker announces a pause. Once the run has been reported over no
pause is found any more, and when the worker is gone a wait for a pause is answered in the negative.
A front end that waits does not wait for nothing. -/
theorem handshake_loses_and_duplicates_no_step (program : Block) (m₀ : Machine) (supply : Supply)
    {moves : List Move} {h : Handshake}
    (hs : (Handshake.opened program m₀ supply).follow moves = some h) :
    let d := Debugger.after { program := program, machine := m₀, supply := supply } h.log
    (h.front = .granted → ∃ m resume, h.worker = .waiting m resume ∧ h.released = false ∧
      h.finished = false ∧
      d.phase = .paused resume ∧ d.machine = m ∧ d.supply = h.supply) ∧
    (h.log.count .announced = h.log.count .ran + h.isHeld.toNat ∧
      h.log.countP SessionEvent.isRelease = h.log.count .ran + h.isLetGo.toNat ∧
      (h.stepping = true → h.log.count .passed = 0)) ∧
    (∀ m resume, h.worker = .pausing m resume → h.released = false) ∧
    (h.finished = true → ∀ later h', h.follow later = some h' →
      h'.log.count (.told true) = h.log.count (.told true)) ∧
    (∀ ending m, h.worker = .gone ending m →
      d.phase = .finished ending ∧ d.machine = m ∧ d.supply = h.supply ∧ h.finished = true ∧
      (h.front = .awaiting →
        ∃ h', h.follow [.front .goOn, .front .goOn, .front .goOn] = some h' ∧
          h'.log = .told false :: h.log)) ∧
    (h.front ≠ .free ∧ h.front ≠ .granted → (∀ program m, h.worker ≠ .unstarted program m) →
      (∃ h', h.step (.front .goOn) = some h') ∨ ∃ h', h.step .worker = some h') := by
  intro d
  obtain ⟨hi, hb, hm⟩ := lawful_of_follow hs
  have hfits : Fits h.worker h.front h.paused h.released h.finished := hi
  unfold Matches at hm
  refine ⟨fun hf => ?_, ⟨hb.pauses, hb.releases, hb.passed⟩, fun m resume hw => ?_,
    fun hn later h' hlater => told_of_finished hn hlater, fun ending m hw => ?_, hi.progress⟩
  · rw [hf] at hfits
    obtain ⟨m, resume, hw, -, hr, hn⟩ := hfits.knows trivial id fun hc => by cases hc
    rw [hw] at hm
    dsimp only at hm
    rw [hr, hf] at hm
    have hheld : HeldAs h.stepping h.supply m resume d := hm
    exact ⟨m, resume, hw, hr, hn, hheld.phase, hheld.machine, hheld.supply⟩
  · rw [hw] at hfits
    exact (hfits.lowered trivial).2.1
  · rw [hw] at hfits hm
    obtain ⟨hphase, hmachine, hsupply⟩ := hm
    obtain ⟨hp, hn⟩ := hfits.over
    refine ⟨hphase, hmachine, hsupply, hn, fun hf => ?_⟩
    obtain ⟨h', hanswer, hlog⟩ := answers hf hp
    rw [hn] at hlog
    exact ⟨h', hanswer, hlog⟩

/-- A program of two statements. -/
def twoLines : Block :=
  [.mk 1 (.output [.literal 1 (.text "a")]), .mk 2 (.output [.literal 2 (.text "b")])]

/-- Once the front end has given a step at the first pause, it waits, gives up, and waits again, all
before the worker has noticed that it is released. -/
def hastySession : List Move :=
  [.front .start, .worker, .worker, .front .await, .front .goOn, .front .goOn, .front .goOn,
    .front (.issue .step), .front .goOn, .front .goOn, .front .goOn, .front .await, .front .timeOut,
    .front .goOn, .front .await,
    .worker, .worker, .worker, .worker, .worker, .worker, .front .goOn, .front .goOn, .front .goOn]

/-- The wait that was given up finds no pause, and the next one finds the second pause, not the
first. -/
theorem hasty_wait_finds_the_next_pause :
    ∃ h, (Handshake.opened twoLines {} {}).follow hastySession = some h ∧ h.front = .granted ∧
      h.log.reverse = [.started, .announced, .told true, .raised .step, .told false, .ran,
        .announced, .told true] ∧
      ∃ m resume, h.worker = .waiting m resume ∧ h.released = false ∧
        (Debugger.after { program := twoLines } h.log).phase = .paused resume := by
  have hfront : ((Handshake.opened twoLines {} {}).follow hastySession).map Handshake.front =
      some .granted := by
    decide +kernel
  have hlog : ((Handshake.opened twoLines {} {}).follow hastySession).map (fun h => h.log.reverse) =
      some [.started, .announced, .told true, .raised .step, .told false, .ran,
        .announced, .told true] := by
    decide +kernel
  obtain ⟨h, hs, hf⟩ := Option.map_eq_some_iff.mp hfront
  rw [hs] at hlog
  obtain ⟨m, resume, hw, hr, -, hphase, -⟩ :=
    (handshake_loses_and_duplicates_no_step twoLines {} {} hs).1 hf
  exact ⟨h, hs, hf, Option.some.inj hlog, m, resume, hw, hr, hphase⟩

end Pseudocode
