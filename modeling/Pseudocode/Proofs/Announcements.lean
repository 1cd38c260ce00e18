import Pseudocode.Proofs.Course

/-!
# The order of the queries of a run

A compound statement puts no queries of its own: between its announcements there are only the
announcements and queries of the statements inside it. A simple statement has no other statement
inside. Between its announcements it may ask for input and for files; then it prints at most one
line, and after that nothing can stop it any more.

`Run.InOrder stage r` says that the run `r` keeps to this order as long as the host answers its
queries, from a stage between two announcements or inside a simple statement.

Result: `executeProgram_inOrder`.
-/

namespace Pseudocode

/-- Where a run is: between announcements, or inside a simple statement, which may have printed its
line. -/
inductive Stage where
  | between
  | inside (t : Stmt) (printed : Bool)

/-- The stages in which a run may stop: all but that of a statement that has printed its line. -/
def Stage.MayStop : Stage → Prop
  | between => True
  | inside _ printed => printed = false

theorem mayStop_between : Stage.MayStop .between := trivial

theorem mayStop_inside (t : Stmt) : Stage.MayStop (.inside t false) := rfl

/-- The stage after a statement has begun. -/
def Stmt.stage (t : Stmt) : Stage :=
  if t.form.isCompound then .between else .inside t false

/-- What a statement asks the host for: input, or the text of a file. -/
def Query.IsRequest : Query → Prop
  | .input _ _ | .upload _ => True
  | _ => False

/-- **The order of the queries of a run**, as long as the host answers them and leaves the machine
alone. -/
inductive Run.InOrder : Stage → Run → Prop
  | done (m : Machine) : InOrder .between (.finished (.ok ()) m)
  | stops {stage : Stage} (hs : stage.MayStop) (h : Halt) (m : Machine) :
      InOrder stage (.finished (.error h) m)
  | begins (t : Stmt) {m : Machine} {resume : Query.Reply (.began t) → Machine → Run}
    (rest : InOrder t.stage (resume (.ok ()) m)) : InOrder .between (.asking (.began t) m resume)
  | requests {t : Stmt} {q : Query} (hq : q.IsRequest) {m : Machine}
      {resume : q.Reply → Machine → Run}
      (rest : ∀ a, InOrder (.inside t false) (resume (.ok a) m)) :
      InOrder (.inside t false) (.asking q m resume)
  | prints {t : Stmt} (line : String) {m : Machine}
      {resume : Query.Reply (.output line) → Machine → Run}
      (rest : InOrder (.inside t true) (resume (.ok ()) m)) :
    InOrder (.inside t false) (.asking (.output line) m resume)
  /-- A simple statement ends, whether or not it has printed a line. -/
  | ends {t : Stmt} {printed : Bool} (ht : t.form.isCompound = false) {m : Machine}
      {resume : Query.Reply (.ended t) → Machine → Run}
      (rest : InOrder .between (resume (.ok ()) m)) :
    InOrder (.inside t printed) (.asking (.ended t) m resume)
  /-- So does a compound one. -/
  | closes {t : Stmt} (ht : t.form.isCompound = true) {m : Machine}
      {resume : Query.Reply (.ended t) → Machine → Run}
      (rest : InOrder .between (resume (.ok ()) m)) :
    InOrder .between (.asking (.ended t) m resume)

/-- A run that has stopped. -/
def Run.Stopped (r : Run) : Prop :=
  ∃ h m, r = .finished (.error h) m

theorem Run.Stopped.inOrder {r : Run} (h : r.Stopped) {stage : Stage} (hs : stage.MayStop) :
    r.InOrder stage := by
  obtain ⟨halt, m, rfl⟩ := h
  exact .stops hs halt m

/-- A part of a run that leaves the stage as it is. -/
def Action.Keeps (stage : Stage) {α : Type} (a : Action α) : Prop :=
  ∀ m next stop, (∀ x m', (next x m').InOrder stage) → (∀ h m', (stop h m').Stopped) →
    (a m next stop).InOrder stage

/-- A part of a run inside a simple statement that may print its line. -/
def Action.Completes (t : Stmt) {α : Type} (a : Action α) : Prop :=
  ∀ m next stop, (∀ x m' printed, (next x m').InOrder (.inside t printed)) →
    (∀ h m', (stop h m').Stopped) →
    (a m next stop).InOrder (.inside t false)

/-! ## One part after the other -/

section Parts

variable {α β : Type} {stage : Stage} {t : Stmt}

theorem Action.keeps_pure (x : α) : Action.Keeps stage (pure x : Action α) :=
  fun m _ _ hnext _ => hnext x m

theorem Action.Keeps.bind {a : Action α} {k : α → Action β} (ha : a.Keeps stage)
    (hk : ∀ x, (k x).Keeps stage) : (a >>= k).Keeps stage :=
  fun m next stop hnext hstop => ha m _ stop (fun x m' => hk x m' next stop hnext hstop) hstop

/-- A step that needs nothing from the host, and what follows each of its values. -/
theorem Action.keeps_step (hs : stage.MayStop) {e : Eval α} {k : α → Action β}
    (hk : ∀ x, (∃ m n, e m = .ok x n) → (k x).Keeps stage) :
    ((liftM e : Action α) >>= k).Keeps stage := by
  intro m next stop hnext hstop
  show ((liftM e : Action α) m (fun x n => k x n next stop) stop).InOrder stage
  cases he : e m with
  | ok x n =>
    rw [Action.lift_ok _ stop he]
    exact hk x ⟨m, n, he⟩ n next stop hnext hstop
  | error halt n =>
    rw [Action.lift_error _ stop he]
    exact (hstop halt n).inOrder hs

theorem Action.Keeps.step (hs : stage.MayStop) {e : Eval α} {k : α → Action β}
    (hk : ∀ x, (k x).Keeps stage) : ((liftM e : Action α) >>= k).Keeps stage :=
  Action.keeps_step hs fun x _ => hk x

theorem Action.keeps_lift (hs : stage.MayStop) (e : Eval α) :
    Action.Keeps stage (liftM e : Action α) :=
  Action.keeps_step hs (k := pure) fun x _ => Action.keeps_pure x

theorem Action.keeps_ask {q : Query} (hq : q.IsRequest) :
    Action.Keeps (.inside t false) (Action.ask q) :=
  fun m _ _ hnext _ => .requests hq fun a => hnext a m

theorem Action.Keeps.located {a : Action α} (ha : a.Keeps stage) (line : Int) :
    (Action.located line a).Keeps stage :=
  fun m _ _ hnext hstop => ha m _ _ hnext fun _ _ => hstop _ _

theorem Action.Keeps.inCall {a : Action α} (hs : stage.MayStop)
    (ha : a.Keeps stage) (f : CallFrame) : (Action.inCall f a).Keeps stage := by
  intro m next stop hnext hstop
  unfold Action.inCall
  cases m.checkDepth (m.depth + 1) with
  | error halt => exact (hstop halt m).inOrder hs
  | ok _ => exact ha _ _ _ (fun x _ => hnext x _) fun halt _ => hstop halt _

theorem Action.Keeps.completes {a : Action α} (ha : a.Keeps (.inside t false)) : a.Completes t :=
  fun m next stop hnext hstop => ha m next stop (fun x m' => hnext x m' false) hstop

theorem Action.completes_lift (e : Eval α) : Action.Completes t (liftM e : Action α) :=
  (Action.keeps_lift (mayStop_inside t) e).completes

/-- The line of a statement. -/
theorem Action.completes_print (line : String) : Action.Completes t (Action.ask (.output line)) :=
  fun m _ _ hnext _ => .prints line (hnext () m true)

theorem Action.Completes.after {a : Action α} {k : α → Action β} (ha : a.Keeps (.inside t false))
    (hk : ∀ x, (k x).Completes t) : (a >>= k).Completes t :=
  fun m next stop hnext hstop => ha m _ stop (fun x m' => hk x m' next stop hnext hstop) hstop

theorem Action.Completes.step {e : Eval α} {k : α → Action β} (hk : ∀ x, (k x).Completes t) :
    ((liftM e : Action α) >>= k).Completes t :=
  .after (Action.keeps_lift (mayStop_inside t) e) hk

/-- After its line a statement does nothing that the host could see. -/
theorem Action.Completes.returning {a : Action α} (ha : a.Completes t) (y : β) :
    (a >>= fun _ => pure y).Completes t :=
  fun m _ stop hnext hstop => ha m _ stop (fun _ m' printed => hnext y m' printed) hstop

theorem Action.Completes.located {a : Action α} (ha : a.Completes t) (line : Int) :
    (Action.located line a).Completes t :=
  fun m _ _ hnext hstop => ha m _ _ hnext fun _ _ => hstop _ _

end Parts

open Pseudocode.Action (keeps_step keeps_lift keeps_pure keeps_ask completes_lift completes_print)

/-! ## Simple statements -/

section Simple

variable (expr : Scope → Expr → Eval Value) {t : Stmt}

theorem keeps_obtainUpload (name mode : String) :
    (obtainUpload name mode).Keeps (.inside t false) := by
  refine .step (mayStop_inside t) fun m => ?_
  split
  · exact keeps_ask trivial
  · exact keeps_pure _

theorem completes_performInput (scope : Scope) (target : Target) :
    (performInput expr scope target).Completes t := by
  refine .step fun m => ?_
  split
  · refine .step fun d => .step fun type => ?_
    refine .after (keeps_ask trivial) fun text => .step fun _ => ?_
    exact completes_print text
  · exact completes_lift _

theorem completes_performOpen (scope : Scope) (name : Expr) (mode : String) :
    (performOpen expr scope name mode).Completes t := by
  refine .step fun name => .after (keeps_obtainUpload name mode) fun upload => ?_
  refine .step fun h => .step fun _ => ?_
  exact completes_print _

theorem completes_performClose (scope : Scope) (name : Expr) :
    (performClose expr scope name).Completes t := by
  refine .step fun name => .step fun h => ?_
  exact .step fun _ => completes_print _

theorem completes_performRead (scope : Scope) (name : Expr) (target : Target) :
    (performRead expr scope name target).Completes t :=
  .step fun line => completes_print line

theorem completes_performWrite (scope : Scope) (name data : Expr) :
    (performWrite expr scope name data).Completes t := by
  refine .step fun written => .step fun m => ?_
  split
  · exact completes_print _
  · exact (keeps_pure ()).completes

/-- **A simple statement** puts its requests, then prints at most one line. -/
theorem completes_perform (block : Scope → Block → Action Scope) (bound : Nat) (scope : Scope)
    (line : Int) {form : Form} (hform : form.isCompound = false) :
    (perform expr block bound scope line form).Completes t := by
  cases form with
  | declare name typeName shape => exact completes_lift _
  | assign target value => exact (completes_lift _).returning scope
  | output values =>
    exact .step fun text => (completes_print text).returning scope
  | input target => exact (completes_performInput expr scope target).returning scope
  | fileOpen name mode => exact (completes_performOpen expr scope name mode).returning scope
  | fileClose name => exact (completes_performClose expr scope name).returning scope
  | fileRead name target => exact (completes_performRead expr scope name target).returning scope
  | fileWrite name data => exact (completes_performWrite expr scope name data).returning scope
  | returnValue e => exact completes_lift _
  | inert kind => exact completes_lift _
  | procedure name params body => exact (completes_lift _).returning scope
  | function name params returns body => exact (completes_lift _).returning scope
  | _ => cases hform

end Simple

/-! ## Compound statements -/

section Compound

variable {expr : Scope → Expr → Eval Value} {block : Scope → Block → Action Scope}

/-- Steps may lead anywhere. -/
theorem covers_any : Covers fun _ _ => True :=
  ⟨fun _ => trivial, fun _ _ => trivial, fun _ _ => trivial, fun _ _ => trivial, fun _ _ =>
    trivial, fun _ _ => trivial⟩

theorem keeps_steps {α β : Type} {e : Eval α} {k : α → Action β}
    (_ : e.Obeys covers_any.performing.toManner)
    (hk : ∀ x, (∃ m n, True ∧ e m = .ok x n) → (k x).Keeps .between) :
    ((liftM e : Action α) >>= k).Keeps .between := by
  refine keeps_step mayStop_between fun x hx => ?_
  obtain ⟨m, n, he⟩ := hx
  exact hk x ⟨m, n, trivial, he⟩

/-- The parts of a run between announcements. -/
def keeping : covers_any.performing.Class where
  Has := Action.Keeps .between
  pure := keeps_pure
  bind := .bind
  step := keeps_steps

variable (hblock : ∀ scope b, (block scope b).Keeps .between)
include hblock

theorem keeps_performCall (scope : Scope) (name : String) (arguments : List Expr) (line : Int) :
    (performCall expr block scope name arguments line).Keeps .between := by
  refine .step mayStop_between fun m => ?_
  split
  · split
    · exact keeps_lift mayStop_between _
    · refine .inCall mayStop_between (.step mayStop_between fun callee => ?_) _
      exact .bind (hblock callee _) fun _ => keeps_pure ()
  · split
    · exact keeps_lift mayStop_between _
    · exact keeps_lift mayStop_between _

/-- **A compound statement** puts no queries but those of the statements inside. -/
theorem keeps_perform (bound : Nat) (scope : Scope) (line : Int) {form : Form}
    (hform : form.isCompound = true) : (perform expr block bound scope line form).Keeps .between :=
  keeping.parts.has_performCompound (fun _ _ => covers_any.obeys fun _ =>
    trivial) block block rfl scope line hform (fun _ b _ scope => hblock scope b)
    fun name arguments _ => keeps_performCall hblock scope name arguments line

/-! ## Announced statements -/

theorem keeps_executeDispatched (bound : Nat) (scope : Scope) (s : Stmt) :
    (executeDispatched expr block bound scope s).Keeps .between := by
  refine .step mayStop_between fun _ m next stop hnext hstop => .begins s ?_
  cases hform : s.form.isCompound with
  | true =>
    have hstage : s.stage = .between := if_pos hform
    have hlocated : (performLocated expr block bound scope s.line s.form).Keeps .between := by
      have hperform := @keeps_perform expr _ hblock bound scope s.line _ hform
      cases hs : s.form with
      | inert kind => exact keeps_lift mayStop_between _
      | _ =>
        rw [hs] at hperform
        exact hperform.located s.line
    rw [hstage]
    refine (keeps_lift mayStop_between Eval.checkCancelled) m _ stop (fun _ m₁ => ?_) hstop
    exact hlocated m₁ _ stop (fun after m₂ => .closes hform (hnext after m₂)) hstop
  | false =>
    have hstage : s.stage = .inside s false := if_neg (by rw [hform]; exact Bool.false_ne_true)
    have hlocated : (performLocated expr block bound scope s.line s.form).Completes s := by
      have hperform := completes_perform (t := s) expr block bound scope s.line hform
      cases hs : s.form with
      | inert kind => exact completes_lift _
      | _ =>
        rw [hs] at hperform
        exact hperform.located s.line
    rw [hstage]
    refine (keeps_lift (mayStop_inside s) Eval.checkCancelled) m _ stop (fun _ m₁ => ?_) hstop
    exact hlocated m₁ _ stop (fun after m₂ _ => .ends hform (hnext after m₂)) hstop

end Compound

theorem execute_keeps (n : Nat) (scope : Scope) (s : Stmt) :
    (execute n scope s).Keeps .between := by
  induction n generalizing scope s with
  | zero => exact keeps_lift mayStop_between _
  | succ n ih =>
    exact keeps_executeDispatched (fun scope b =>
      keeping.executeBlock (fun s _ scope => ih scope s) scope) n scope s

/-- **The run of a program keeps to the order.** -/
theorem executeProgram_inOrder (bound : Nat) (program : Block) (m : Machine) :
    (executeProgram bound program m).InOrder .between :=
  keeping.executeBlock (fun s _ scope => execute_keeps bound scope s) .global _ _ _ (fun _ m' =>
    .done m'.settled) fun h m' => ⟨h, m'.settled, rfl⟩

end Pseudocode
