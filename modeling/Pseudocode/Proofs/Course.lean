import Pseudocode.Proofs.Manners
import Pseudocode.Proofs.Roles

/-!
# The course of a run

A run is a tree, and every law about what happens while it is suspended is a law about all nodes of
that tree. `Course step p m r` says how the run `r` may go on from the machine `m` at the place `p`.
A place tells what the run is inside of: the statements under way and the calls in progress,
innermost first. Where a run stops, it is unwound from its place (`unwind`): each statement charges
what has no line yet to its own, and each call is left.

A course takes steps (`moves`), puts queries to the host, begins and ends statements, and enters and
leaves calls. What the steps between the queries may do is left open (`step`), as long as it allows
changes of variables, files, notes and known routines (`Covers`). The host may ask for a
cancellation and take the notes while the run is suspended (`HostChange`).

Results:
* `execute_runs`: a statement keeps to a course from any place where it may begin.
* `executeProgram_course`: so does a program.
-/

namespace Pseudocode

open Eval

/-- What a run can be inside of. -/
inductive Level where
  | stmt (s : Stmt)
  | call (f : CallFrame)

/-- The statements under way and the calls in progress, innermost first. -/
abbrev Place := List Level

/-- Where the next statement may begin: anywhere but directly inside a CALL, whose statements are
those of the call. -/
def Place.Admits : Place → Prop
  | .stmt s :: _ => s.form.isCall = false
  | _ => True

theorem Place.admits_nil : Place.Admits [] := trivial

theorem Place.admits_call (f : CallFrame) (p : Place) : Place.Admits (.call f :: p) := trivial

/-- The rest of a run that stops at a place. -/
def unwind : Place → Halt → Machine → Run
  | [], h, m => .finished (.error h) m.settled
  | .stmt s :: p, h, m =>
    let (h, m) := m.charge s.line h
    unwind p h m
  | .call f :: p, h, m => unwind p h (m.leaveCall f)

/-- What a host may do to the machine of a suspended run: ask for a cancellation and take the
notes. -/
def HostChange (m m' : Machine) : Prop :=
  ∃ cancel journal, m' = { m with cancelRequested := cancel, journal := journal }

theorem HostChange.refl (m : Machine) : HostChange m m :=
  ⟨m.cancelRequested, m.journal, rfl⟩

theorem HostChange.trans {m m₁ m₂ : Machine} (h₁ : HostChange m m₁) (h₂ : HostChange m₁ m₂) :
    HostChange m m₂ := by
  obtain ⟨_, _, rfl⟩ := h₁
  obtain ⟨cancel, journal, rfl⟩ := h₂
  exact ⟨cancel, journal, rfl⟩

/-- A run goes on to another, with some replies of a host that is discreet. -/
inductive Run.Reaches : Run → Run → Prop
  | refl (r : Run) : Run.Reaches r r
  | resumed {q : Query} {m m' : Machine} {resume : q.Reply → Machine → Run} {r : Run}
      (reply : q.Reply) (hc : HostChange m m') (rest : Run.Reaches (resume reply m') r) :
      Run.Reaches (.asking q m resume) r

theorem Run.Reaches.trans {r r₁ r₂ : Run} (h₁ : r.Reaches r₁) (h₂ : r₁.Reaches r₂) :
    r.Reaches r₂ := by
  induction h₁ with
  | refl => exact h₂
  | resumed reply hc _ ih => exact .resumed reply hc (ih h₂)

/-- A part of a run comes to its end with a result, with some replies of a host that is discreet. -/
def Action.Reaches {α : Type} (a : Action α) (m : Machine) (x : α) (m' : Machine) : Prop :=
  ∀ next stop, (a m next stop).Reaches (next x m')

/-- **How a run may go on** from a machine at a place, with `step` between its queries. -/
inductive Course (step : Machine → Machine → Prop) : Place → Machine → Run → Prop
  /-- The program has come to its end. -/
  | done (m : Machine) : Course step [] m (.finished (.ok ()) m.settled)
  | moves {p : Place} {m m' : Machine} {r : Run} (h : step m m') (rest : Course step p m' r) :
      Course step p m r
  /-- A step stops, for whatever reason. -/
  | halts {p : Place} {m : Machine} (h : Halt) : Course step p m (unwind p h m)
  /-- Output, input, or the text of a file. -/
  | asks {p : Place} {m : Machine} (q : Query) (resume : q.Reply → Machine → Run) (hq : q.IsInner)
      (answered : ∀ a m', HostChange m m' → Course step p m' (resume (.ok a) m'))
      (stopped : ∀ h m', resume (.error h) m' = unwind p h m') :
      Course step p m (.asking q m resume)
  /-- A statement is not dispatched. -/
  | refused {p : Place} {m m' : Machine} (line : Int) (h : Halt)
      (hd : dispatch line m = .error h m') :
      Course step p m (unwind p h m')
  /-- A statement is dispatched and announced; a cancellation that is asked for then stops the
  run. -/
  | begins {p : Place} {m m₁ : Machine} (s : Stmt) (resume : Query.Reply (.began s) → Machine → Run)
      (hp : p.Admits) (hd : dispatch s.line m = .ok () m₁)
      (cancelled : ∀ m', HostChange m₁ m' → m'.cancelRequested = true →
        resume (.ok ()) m' = unwind p (.cancelled m'.line) m')
      (performed : ∀ m', HostChange m₁ m' → m'.cancelRequested = false →
        Course step (.stmt s :: p) m' (resume (.ok ()) m'))
      (stopped : ∀ h m', resume (.error h) m' = unwind p h m') :
      Course step p m (.asking (.began s) m₁ resume)
  /-- A statement fails with its own line on the fault already. -/
  | charged {p : Place} {m : Machine} (s : Stmt) (cause : Fault) :
      Course step (.stmt s :: p) m (unwind p (.fault cause s.line) m)
  /-- A statement has been executed. -/
  | ends {p : Place} {m : Machine} (s : Stmt) (resume : Query.Reply (.ended s) → Machine → Run)
      (answered : ∀ m', HostChange m m' → Course step p m' (resume (.ok ()) m'))
      (stopped : ∀ h m', resume (.error h) m' = unwind p h m') :
      Course step (.stmt s :: p) m (.asking (.ended s) m resume)
  /-- A CALL of a known procedure that is not too deep. -/
  | enters {p : Place} {m : Machine} {r : Run} {s : Stmt} {name : String} {arguments : List Expr}
      {routine : Routine} (hs : s.form = .call name arguments)
      (hknown : m.procedures.find? name = some routine) (hd : m.checkDepth (m.depth + 1) = .ok ())
      (rest : Course step (.call ⟨routine.name, s.line, .procedure⟩ :: .stmt s :: p)
        (m.enterCall ⟨routine.name, s.line, .procedure⟩) r) :
      Course step (.stmt s :: p) m r
  | leaves {p : Place} {m : Machine} {r : Run} (f : CallFrame)
      (rest : Course step p (m.leaveCall f) r) : Course step (.call f :: p) m r

/-- A part of a run that keeps to a course at a place, if what follows it does. -/
def Action.Runs (step : Machine → Machine → Prop) (p : Place) {α : Type} (a : Action α) : Prop :=
  ∀ m next, (∀ x m', Course step p m' (next x m')) → Course step p m (a m next (unwind p))

/-! ## What the steps between the queries do -/

/-- Whether it ends or stops, a step leaves a machine that `step` allows. -/
def Leads (step : Machine → Machine → Prop) {α : Type} (e : Eval α) : Prop :=
  ∀ m, step m (e.leaves m)

/-- A relation between machines that allows whatever the steps inside a statement change. -/
structure Covers (step : Machine → Machine → Prop) : Prop where
  refl : ∀ m, step m m
  trans : ∀ {m m₁ m₂}, step m m₁ → step m₁ m₂ → step m m₂
  memory : ∀ (m : Machine) x, step m { m with memory := x }
  files : ∀ (m : Machine) x, step m { m with files := x }
  note : ∀ m n, step m (Machine.note m n)
  register : ∀ m form, step m (Machine.register m form)

section Parts

variable {step : Machine → Machine → Prop} {p : Place} {α β : Type}

/-- Steps that lead to what is covered, whether they end or stop. -/
def Covers.performing (C : Covers step) : Performing where
  pre _ := True
  go := step
  stop m _ n := step m n
  stable := stable_true
  memory := C.memory
  trans := C.trans
  after := C.trans
  failed m _ := C.refl m
  files := C.files
  shelved _ _ := trivial
  note m _ := C.note m _
  exhausted := C.refl

theorem Covers.obeys (C : Covers step) {e : Eval α} (h : Leads step e) :
    e.Obeys C.performing.toManner := by
  refine obeys_of_allows fun m _ => ?_
  cases he : e m with
  | ok x n => exact ⟨Eval.leaves_ok he ▸ h m, trivial⟩
  | error halt n => exact Eval.leaves_error he ▸ h m

theorem Action.runs_pure (x : α) : Action.Runs step p (pure x) :=
  fun m _ hnext => hnext x m

theorem Action.Runs.bind {a : Action α} {k : α → Action β} (ha : Action.Runs step p a)
    (hk : ∀ x, Action.Runs step p (k x)) : Action.Runs step p (a >>= k) :=
  fun m next hnext => ha m _ fun x m' => hk x m' next hnext

/-- A query inside a statement. -/
theorem Action.runs_ask {q : Query} (hq : q.IsInner) : Action.Runs step p (Action.ask q) :=
  fun _ _ hnext => .asks q _ hq (fun a m' _ => hnext a m') fun _ _ => rfl

/-- A step, and what follows it. -/
theorem Covers.runs_step (C : Covers step) {e : Eval α} {k : α → Action β}
    (he : e.Obeys C.performing.toManner)
    (hk : ∀ x, (∃ m n, True ∧ e m = .ok x n) → Action.Runs step p (k x)) :
    Action.Runs step p ((liftM e : Action α) >>= k) := by
  intro m next hnext
  show Course step p m ((liftM e : Action α) m (fun x m' => k x m' next (unwind p)) (unwind p))
  cases hm : e m with
  | ok x m' =>
    rw [Action.lift_ok _ _ hm]
    exact .moves (he.ok trivial hm).1 (hk x ⟨m, m', trivial, hm⟩ m' next hnext)
  | error h m' =>
    rw [Action.lift_error _ _ hm]
    exact .moves (he.error trivial hm) (.halts h)

/-- The parts of a run that keep to a course at a place. -/
def Covers.actions (C : Covers step) (p : Place) : C.performing.Class where
  Has := Action.Runs step p
  pure := Action.runs_pure
  bind := .bind
  step := C.runs_step

end Parts

/-! ## Statements -/

section Statements

variable {step : Machine → Machine → Prop} (C : Covers step) {p : Place}
  {expr : Scope → Expr → Eval Value} (hx : ∀ scope e, Leads step (expr scope e))
  {block : Scope → Block → Action Scope}
  (hblock : ∀ p : Place, p.Admits → ∀ scope b, Action.Runs step p (block scope b))

include C hx hblock

/-- CALL: the place of the body is inside the call. -/
theorem runs_performCall (scope : Scope) {s : Stmt} {name : String} {arguments : List Expr}
    (hs : s.form = .call name arguments) :
    Action.Runs step (.stmt s :: p) (performCall expr block scope name arguments s.line) := by
  intro m next hnext
  have hget : (get : Eval Machine) m = .ok m m := rfl
  show Course step _ m ((liftM (get : Eval Machine) : Action Machine) m _ (unwind _))
  rw [Action.lift_ok _ _ hget]
  dsimp only
  cases hknown : m.procedures.find? name with
  | some routine =>
    dsimp only
    split
    · exact (C.actions _).parts.lift (relates_fault (by simp)) m next hnext
    · unfold Action.inCall
      cases hd : m.checkDepth (m.depth + 1) with
      | error h => exact .halts h
      | ok _ =>
        have hcall : Action.Runs step (.call ⟨routine.name, s.line, .procedure⟩ :: .stmt s :: p)
            (do
              let callee
                ← (bindArguments expr scope freshScope routine.params arguments : Eval Scope)
              let _ ← block callee routine.body
              return ()) :=
          .bind ((C.actions _).parts.lift
            (relates_bindArguments (fun e _ => C.obeys (hx scope e)) freshScope _))
            fun callee => .bind (hblock _ (Place.admits_call _ _) callee routine.body) fun _ =>
            Action.runs_pure ()
        exact .enters hs hknown hd (hcall _ _ fun x m' => .leaves _ (hnext x _))
  | none =>
    dsimp only
    split
    · exact (C.actions _).parts.lift (relates_fault (by simp)) m next hnext
    · exact (C.actions _).parts.lift (relates_fault (by simp)) m next hnext

/-- **The forms of statement.** -/
theorem runs_perform (bound : Nat) (scope : Scope) (s : Stmt) :
    Action.Runs step (.stmt s :: p) (perform expr block bound scope s.line s.form) := by
  have hx' := fun scope e => C.obeys (hx scope e)
  have hinside : s.form.isCall = false →
      ∀ scope b, Action.Runs step (.stmt s :: p) (block scope b) :=
    fun hs => hblock _ hs
  cases hform : s.form.isCompound with
  | false =>
    exact (C.actions _).parts.has_performSimple Action.runs_ask hx' scope block block bound bound
      s.line hform fun _ => obeys_of_allows fun m _ => ⟨C.register m s.form, trivial⟩
  | true =>
    exact (C.actions _).parts.has_performCompound hx' block block rfl scope s.line hform
      (fun hs b _ scope => hinside hs scope b)
      fun name arguments hs => runs_performCall C hx hblock scope hs

/-- What a statement does once it is announced, up to the announcement of its end. -/
theorem course_performLocated (bound : Nat) (scope : Scope) (s : Stmt) {m : Machine}
    {next : Scope → Machine → Run} (hnext : ∀ x m', Course step (.stmt s :: p) m' (next x m')) :
    Course step (.stmt s :: p) m
      (performLocated expr block bound scope s.line s.form m next (unwind p)) := by
  have hperform := runs_perform (p := p) C hx hblock bound scope s m next hnext
  cases hs : s.form with
  | inert kind => exact .charged s _
  | _ =>
    rw [hs] at hperform
    exact hperform

theorem runs_executeDispatched (hp : p.Admits) (bound : Nat) (scope : Scope) (s : Stmt) :
    Action.Runs step p (executeDispatched expr block bound scope s) := by
  intro m next hnext
  show Course step p m ((liftM (dispatch s.line) : Action Unit) m _ (unwind p))
  cases hd : dispatch s.line m with
  | error h m' =>
    rw [Action.lift_error _ _ hd]
    exact .refused s.line h hd
  | ok u m₁ =>
    rw [Action.lift_ok _ _ hd]
    refine .begins s _ hp hd (fun m' _ hc => ?_) (fun m' _ hc => ?_) fun _ _ => rfl
    · have hstop : checkCancelled m' = .error (.cancelled m'.line) m' := by
        rw [checkCancelled_apply, if_pos hc]
      exact Action.lift_error _ _ hstop
    · have hgo : checkCancelled m' = .ok () m' := by
        rw [checkCancelled_apply, if_neg (by rw [hc]; exact Bool.false_ne_true)]
      show Course step _ m' ((liftM checkCancelled : Action Unit) m' _ (unwind p))
      rw [Action.lift_ok _ _ hgo]
      refine course_performLocated C hx hblock bound scope s fun after m₂ => ?_
      exact .ends s _ (fun m₃ _ => hnext after m₃) fun _ _ => rfl

end Statements

/-! ## Programs -/

section Programs

variable {step : Machine → Machine → Prop} (C : Covers step)
  (hx : ∀ n scope e, Leads step (evaluate n scope e))
include C hx

/-- **A statement keeps to a course**, from any place where it may begin. -/
theorem execute_runs (n : Nat) {p : Place} (hp : p.Admits) (scope : Scope) (s : Stmt) :
    Action.Runs step p (execute n scope s) := by
  induction n generalizing p scope s with
  | zero => exact (C.actions p).parts.lift C.performing.obeys_exhausted
  | succ n ih =>
    exact runs_executeDispatched C (hx n)
      (fun p hp scope b =>
        (C.actions p).executeBlock (fun s _ scope => ih hp scope s) scope) hp n scope s

/-- **So does a program.** -/
theorem executeProgram_course (n : Nat) (program : Block) (m : Machine) :
    Course step [] (m.rewound.registerAll program) (executeProgram n program m) :=
  (C.actions []).executeBlock (fun s _ scope =>
    execute_runs C hx n Place.admits_nil scope s) .global _ _ fun _ m' => .done m'

end Programs

end Pseudocode
