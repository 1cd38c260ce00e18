import Pseudocode.Execute
import Pseudocode.Proofs.Comparison

/-!
# Runs that are cut short

Two executions of one program are compared, of which the first may be cut short: it stops for a
reason that `cut` names, where the second goes on. Up to that point no rule tells them apart.
`Truncation cut R` says this of the machines: `R` relates machines that agree on all that a rule
reads, apart from limits, and a limit by which they differ stops the first for a reason in `cut`.

`TrimsAt` compares two steps from given machines and `Trims` from all related ones. Bounds may
differ too, if running out of the smaller one is a reason in `cut` (`Within`). That the rules keep
this up is `Comparison`'s account of them; only calls, the count of statements and the charging of
faults are looked at here.

Results:
* `trims_runForm`, `trims_evaluateForm`: every rule keeps the comparison.
* `evaluate_runStatement_trims`: expressions and function bodies.
-/

namespace Pseudocode

open Eval

/-- Machines that agree on what dispatches and calls read, limits apart. -/
structure Machine.InStep (m m' : Machine) : Prop extends m.Agrees m' where
  stack : m'.stack = m.stack
  depth : m'.depth = m.depth
  dispatches : m'.dispatches = m.dispatches
  cancelRequested : m'.cancelRequested = m.cancelRequested

/-- What a run does to a machine, apart from making routines known. -/
inductive Machine.Update : (Machine → Machine) → Prop
  | memory (x : Memory) : Update ({ · with memory := x })
  | files (x : FileTable) : Update ({ · with files := x })
  | random (x : Number.Generator) : Update ({ · with random := x })
  | calls (depth : Nat) (stack : CallStack) : Update ({ · with depth := depth, stack := stack })
  | counted : Update Machine.counted
  | reached (line : Int) : Update (Machine.reached · line)
  | note (n : Note) : Update (Machine.note · n)
  | rewound : Update Machine.rewound
  | settled : Update Machine.settled

/-- Machines related by `R` agree on what the rules read and stay related under what the rules do;
where their limits differ, the first machine stops for a reason in `cut`. -/
structure Truncation (cut : Halt → Prop) (R : Machine → Machine → Prop) : Prop where
  inStep : ∀ {m m'}, R m m' → m.InStep m'
  /-- A statement's number is allowed to both or to neither, or the first stops. -/
  dispatchLimit : ∀ {m m'}, R m m' → ∀ count,
    m'.settings.maxDispatches.allows count = m.settings.maxDispatches.allows count ∨
      m.settings.maxDispatches.allows count = .ok false ∧ ∀ line, cut (.fault .dispatchLimit line)
  /-- A call is allowed to both or to neither, or the first stops. -/
  depthLimit : ∀ {m m'}, R m m' → ∀ depth,
    m'.checkDepth depth = m.checkDepth depth ∨
      m.checkDepth depth = fail .depthLimit ∧ cut (.fault .depthLimit 0)
  charge : ∀ {h}, cut h → ∀ (m : Machine) line, cut (m.charge line h).1
  update : ∀ {m m' f}, R m m' → Machine.Update f → R (f m) (f m')
  register : ∀ {m m'}, R m m' → ∀ form, R (m.register form) (m'.register form)

/-- A bound for the first execution and one for the second: the same, or a smaller one of which the
first may run out. -/
def Within (cut : Halt → Prop) (n n' : Nat) : Prop :=
  n = n' ∨ n ≤ n' ∧ cut .exhausted

theorem Within.pred {cut : Halt → Prop} {n n' : Nat} (h : Within cut (n + 1) (n' + 1)) :
    Within cut n n' := by
  rcases h with h | ⟨h, hc⟩
  · exact Or.inl (by omega)
  · exact Or.inr ⟨by omega, hc⟩

/-- A second bound that is not used up before the first. -/
theorem Within.succ_left {cut : Halt → Prop} {n n' : Nat} (h : Within cut (n + 1) n') :
    ∃ k, n' = k + 1 := by
  rcases h with rfl | ⟨h, -⟩
  · exact ⟨n, rfl⟩
  · exact ⟨n' - 1, by omega⟩

/-- From `m` and `m'` two steps give the same, or the first is cut short. -/
inductive TrimsAt (cut : Halt → Prop) (R : Machine → Machine → Prop) {α : Type} (m m' : Machine)
    (e e' : Eval α) : Prop
  | cut (h : Halt) (n : Machine) (he : e m = .error h n) (hc : cut h)
  | ends (a : α) (n n' : Machine) (he : e m = .ok a n) (he' : e' m' = .ok a n') (hR : R n n')
  | stops (h : Halt) (n n' : Machine) (he : e m = .error h n) (he' : e' m' = .error h n')
      (hR : R n n')

/-- From all related machines two steps give the same, or the first is cut short. -/
def Trims (cut : Halt → Prop) (R : Machine → Machine → Prop) {α : Type} (e e' : Eval α) : Prop :=
  ∀ m m', R m m' → TrimsAt cut R m m' e e'

/-! ## One step after the other -/

section Steps

variable {cut : Halt → Prop} {R : Machine → Machine → Prop} {α β : Type} {m m' : Machine}

theorem trimsAt_pure (hR : R m m') (a : α) : TrimsAt cut R m m' (pure a) (pure a) :=
  .ends a m m' rfl rfl hR

theorem trimsAt_throw (hR : R m m') (h : Halt) : TrimsAt cut R m m' (throw h : Eval α) (throw h) :=
  .stops h m m' rfl rfl hR

theorem trimsAt_bind {e e' : Eval α} {k k' : α → Eval β} (he : TrimsAt cut R m m' e e')
    (hk : ∀ a n n', e m = .ok a n → R n n' → TrimsAt cut R n n' (k a) (k' a)) :
    TrimsAt cut R m m' (e >>= k) (e' >>= k') := by
  rcases he with ⟨h, n, he, hc⟩ | ⟨a, n, n', he, he', hR⟩ | ⟨h, n, n', he, he', hR⟩
  · exact .cut h n (bind_eq_error.mpr (Or.inl he)) hc
  · rcases hk a n n' he hR with ⟨h, n₁, hk, hc⟩ | ⟨b, n₁, n₁', hk, hk', hR⟩ | ⟨h,
      n₁, n₁', hk, hk', hR⟩
    · exact .cut h n₁ (bind_eq_error.mpr (Or.inr ⟨a, n, he, hk⟩)) hc
    · exact .ends b n₁ n₁' (bind_eq_ok.mpr ⟨a, n, he, hk⟩) (bind_eq_ok.mpr ⟨a, n', he', hk'⟩) hR
    · exact .stops h n₁ n₁' (bind_eq_error.mpr (Or.inr ⟨a, n, he, hk⟩))
        (bind_eq_error.mpr (Or.inr ⟨a, n', he', hk'⟩)) hR
  · exact .stops h n n' (bind_eq_error.mpr (Or.inl he)) (bind_eq_error.mpr (Or.inl he')) hR

/-- Reading the machine. -/
theorem trimsAt_get {k k' : Machine → Eval β} (hk : TrimsAt cut R m m' (k m) (k' m')) :
    TrimsAt cut R m m' (get >>= k) (get >>= k') := by
  rcases hk with ⟨h, n, he, hc⟩ | ⟨a, n, n', he, he', hR⟩ | ⟨h, n, n', he, he', hR⟩
  · exact .cut h n he hc
  · exact .ends a n n' he he' hR
  · exact .stops h n n' he he' hR

/-- A loop that has used up the first bound: both have, or the first is cut short. -/
theorem trims_exhausted {n' : Nat} (rounds' : Nat → Eval α) (hw : Within cut 0 n')
    (h0 : rounds' 0 = throw .exhausted) : Trims cut R (throw .exhausted) (rounds' n') := by
  intro m m' hR
  rcases hw with rfl | ⟨-, hc⟩
  · rw [h0]
    exact trimsAt_throw hR _
  · exact .cut .exhausted m rfl hc

variable (T : Truncation cut R)
include T

/-- What stops both is charged to a statement alike. -/
theorem Truncation.charged (hR : R m m') (line : Int) (h : Halt) :
    (m'.charge line h).1 = (m.charge line h).1 ∧ R (m.charge line h).2 (m'.charge line h).2 := by
  unfold Machine.charge
  split
  · exact ⟨rfl, T.update hR (.note _)⟩
  · exact ⟨rfl, hR⟩

theorem Truncation.enterCall (hR : R m m') (f : CallFrame) :
    R (m.enterCall f) (m'.enterCall f) := by
  unfold Machine.enterCall
  rw [(T.inStep hR).depth, (T.inStep hR).stack]
  exact T.update (T.update hR (.calls _ _)) (.note _)

theorem Truncation.leaveCall (hR : R m m') (f : CallFrame) :
    R (m.leaveCall f) (m'.leaveCall f) := by
  unfold Machine.leaveCall
  rw [(T.inStep hR).depth, (T.inStep hR).stack]
  exact T.update (T.update hR (.calls _ _)) (.note _)

theorem trimsAt_located {e e' : Eval α} (line : Int) (he : TrimsAt cut R m m' e e') :
    TrimsAt cut R m m' (located line e) (located line e') := by
  rcases he with ⟨h, n, he, hc⟩ | ⟨a, n, n', he, he', hR⟩ | ⟨h, n, n', he, he', hR⟩
  · exact .cut _ _ (located_error line he) (T.charge hc n line)
  · exact .ends a n n' (located_ok line he) (located_ok line he') hR
  · obtain ⟨hcause, hR⟩ := T.charged hR line h
    refine .stops _ _ _ (located_error line he) ?_ hR
    rw [← hcause]
    exact located_error line he'

theorem trims_inCall {e e' : Eval α} (f : CallFrame) (he : Trims cut R e e') :
    Trims cut R (inCall f e) (inCall f e') := by
  intro m m' hR
  rcases T.depthLimit hR (m.depth + 1) with hsame | ⟨hd, hc⟩
  · rw [← (T.inStep hR).depth] at hsame
    cases hd : m.checkDepth (m.depth + 1) with
    | error h =>
      have hd' : m'.checkDepth (m'.depth + 1) = .error h := by rw [hsame, (T.inStep hR).depth, hd]
      exact .stops h m m' (inCall_refused hd) (inCall_refused hd') hR
    | ok u =>
      have hd' : m'.checkDepth (m'.depth + 1) = .ok u := by rw [hsame, (T.inStep hR).depth, hd]
      rcases he _ _ (T.enterCall hR f) with
        ⟨h, n, he, hc⟩ | ⟨a, n, n', he, he', hR⟩ | ⟨h, n, n', he, he', hR⟩
      · exact .cut h (n.leaveCall f) (inCall_error hd he) hc
      · exact .ends a _ _ (inCall_ok hd he) (inCall_ok hd' he') (T.leaveCall hR f)
      · exact .stops h _ _ (inCall_error hd he) (inCall_error hd' he') (T.leaveCall hR f)
  · exact .cut _ m (inCall_refused hd) hc

theorem trims_dispatch (line : Int) : Trims cut R (dispatch line) (dispatch line) := by
  intro m m' hR
  have hcounted := T.update hR .counted
  rcases T.dispatchLimit hR (m.dispatches + 1) with hlimit | ⟨hlimit, hc⟩
  · have hm := dispatch_apply line m
    have hm' := dispatch_apply line m'
    rw [(T.inStep hR).dispatches, hlimit, (T.inStep hR).cancelRequested, (T.inStep hR).line] at hm'
    cases hallows : m.settings.maxDispatches.allows (m.dispatches + 1) with
    | error h =>
      rw [hallows] at hm hm'
      exact .stops h _ _ hm hm' hcounted
    | ok allowed =>
      rw [hallows] at hm hm'
      cases allowed with
      | false => exact .stops _ _ _ hm hm' hcounted
      | true =>
        cases hcancel : m.cancelRequested with
        | true =>
          rw [hcancel] at hm hm'
          exact .stops _ _ _ hm hm' hcounted
        | false =>
          rw [hcancel] at hm hm'
          exact .ends () _ _ hm hm' (T.update hcounted (.reached line))
  · refine .cut (.fault .dispatchLimit line) m.counted ?_ (hc line)
    rw [dispatch_apply, hlimit]

theorem trimsAt_write {e e' : Eval α} {x : α} {memory : Memory} (hR : R m m')
    (he : e m = .ok x { m with memory := memory })
    (he' : e' m' = .ok x { m' with memory := memory }) : TrimsAt cut R m m' e e' :=
  .ends x _ _ he he' (T.update hR (.memory memory))

theorem trimsAt_draw (hR : R m m') (x : Number.Generator) : TrimsAt cut R m m'
    (modify fun m => { m with random := x } : Eval Unit) (modify fun m => { m with random := x }) :=
  .ends () _ _ rfl rfl (T.update hR (.random x))

theorem trimsAt_shelve (hR : R m m') (x : FileTable) : TrimsAt cut R m m'
    (modify fun m => { m with files := x } : Eval Unit) (modify fun m => { m with files := x }) :=
  .ends () _ _ rfl rfl (T.update hR (.files x))

theorem trimsAt_note (hR : R m m') (x : Note) : TrimsAt cut R m m' (note x) (note x) :=
  .ends () _ _ rfl rfl (T.update hR (.note x))

end Steps

/-! ## The rules -/

namespace Truncation

variable {cut : Halt → Prop} {R : Machine → Machine → Prop}

theorem agrees (T : Truncation cut R) {m m' : Machine} (hR : R m m') : m.Agrees m' :=
  (T.inStep hR).toAgrees

def comparison (T : Truncation cut R) : Comparison where
  R := R
  At := TrimsAt cut R
  agrees := T.agrees
  pure := trimsAt_pure
  failed hR _ := trimsAt_throw hR _
  write := trimsAt_write T
  get := trimsAt_get
  bind := trimsAt_bind

/-- Statements of all kinds are good. -/
def calling (T : Truncation cut R) : CallingComparison where
  toComparison := T.comparison
  good _ := True
  known _ _ _ _ := trivial
  draw := trimsAt_draw T
  inCall := trims_inCall T

def performing (T : Truncation cut R) : PerformingComparison where
  toComparison := T.comparison
  shelve := trimsAt_shelve T
  note hR _ := trimsAt_note T hR _
  Within := Within cut
  pred := Within.pred
  succ_left := Within.succ_left
  exhausted := trims_exhausted

end Truncation

section Rules

variable {cut : Halt → Prop} {R : Machine → Machine → Prop} (T : Truncation cut R)
  {expr expr' : Scope → Expr → Eval Value} {run run' : Scope → Stmt → Eval Outcome}
  (hx : ∀ scope e, Trims cut R (expr scope e) (expr' scope e))
  (hs : ∀ scope s, Trims cut R (run scope s) (run' scope s))
include T hx hs

theorem trims_evaluateForm (scope : Scope) (e : Expr) :
    Trims cut R (evaluateForm ⟨expr, run⟩ scope e) (evaluateForm ⟨expr', run'⟩ scope e) :=
  @relates_evaluateForm T.calling ⟨expr, run⟩ ⟨expr', run'⟩ scope (fun scope s _ => hs scope s) e
    fun part _ => hx scope part

theorem trims_runForm {n n' : Nat} (hw : Within cut n n') (scope : Scope) (form : Form) :
    Trims cut R (runForm ⟨expr, run⟩ n scope form) (runForm ⟨expr', run'⟩ n' scope form) :=
  @relates_runForm T.performing ⟨expr, run⟩ ⟨expr', run'⟩ hx n n' hw scope form fun _ _ scope =>
    relates_runBlock (L := T.comparison) (fun s _ scope => hs scope s) scope

theorem trims_runDispatched {n n' : Nat} (hw : Within cut n n') (scope : Scope) (s : Stmt) :
    Trims cut R (runDispatched ⟨expr, run⟩ n scope s) (runDispatched ⟨expr', run'⟩ n' scope s) := by
  intro m m' hR
  refine trimsAt_bind (trims_dispatch T s.line m m' hR) fun _ l l' _ hR => ?_
  split
  · exact trimsAt_located T s.line (trims_runForm T hx hs hw scope s.form l l' hR)
  · exact trimsAt_throw hR _

end Rules

/-- **Expressions and function bodies** under a bound and under one that is within it. -/
theorem evaluate_runStatement_trims {cut : Halt → Prop} {R : Machine → Machine → Prop}
    (T : Truncation cut R) {n n' : Nat} (hw : Within cut n n') :
    (∀ scope e, Trims cut R (evaluate n scope e) (evaluate n' scope e)) ∧
      ∀ scope s, Trims cut R (runStatement n scope s) (runStatement n' scope s) := by
  induction n generalizing n' with
  | zero =>
    refine ⟨fun scope e => ?_, fun scope s => ?_⟩
    · rw [evaluate]
      exact trims_exhausted (evaluate · scope e) hw (by rw [evaluate])
    · rw [runStatement]
      exact trims_exhausted (runStatement · scope s) hw (by rw [runStatement])
  | succ n ih =>
    obtain ⟨k, rfl⟩ := hw.succ_left
    obtain ⟨hx, hs⟩ := ih hw.pred
    refine ⟨fun scope e => ?_, fun scope s => ?_⟩
    · rw [evaluate, evaluate]
      exact trims_evaluateForm T hx hs scope e
    · rw [runStatement, runStatement]
      exact trims_runDispatched T hx hs hw.pred scope s

end Pseudocode
