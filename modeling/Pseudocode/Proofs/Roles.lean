import Pseudocode.Proofs.Execution
import Pseudocode.Proofs.Streaming

/-!
# Everything acts in its role

Whatever an expression or a statement does is activity of its role, under every bound and without
any assumption about the program: a loop may be cut short by its bound, and anything may stop a
step. So a law of all activity is a law of everything that is evaluated or executed.

The regime `unguarded` assumes nothing. The regime `knowing F` fixes the functions that are known,
so that what an expression lends can be read off its text (`Expr.Lends`): evaluating an expression
makes no function known, and a statement that does is not part of one.

Results:
* `evaluate_computes`: an expression calls at most, and lends no more than its text tells.
* `runStatement_unguarded`, `execute_unguarded`: statements act as bodies, in a function body and in
  a run that a discreet host answers.
* `executeCall_settles`: a CALL lends what its arguments give to parameters by reference.
* `Settles.acts`, `Action.Settles.acts`: the machine that is left is where the activity led.
-/

namespace Pseudocode

open Eval Filter

/-! ## What is lent -/

/-- An expression passes a variable by reference, in a call at any depth of its text. -/
inductive Expr.Lends (functions : Table Routine) : Expr → String → Prop
  | passed {line : Int} {name : String} {arguments : List Expr} {f : Routine} {x : String}
      (hname : Builtin.ofName? name = none) (hf : functions.find? name = some f)
      (hx : f.Borrows arguments x) : Lends functions (.call line name arguments) x
  | inside {e part : Expr} {x : String} (hpart : part ∈ e.parts) (h : Lends functions part x) :
      Lends functions e x

/-- A CALL passes a variable by reference, or one of its arguments does. -/
def Machine.CallLends (m : Machine) (name : String) (arguments : List Expr) (x : String) : Prop :=
  (∃ p, m.procedures.find? name = some p ∧ p.Borrows arguments x) ∨
    ∃ e ∈ arguments, e.Lends m.functions x

/-! ## Everything acts in its role -/

/-- Nothing is assumed but that certain functions are known; anything may stop a step. -/
def knowing (F : Table Routine) : Regime where
  ok _ := True
  pre m := m.functions = F
  good _ := True
  ok_of_ne _ := trivial
  stable := stable_functions F
  function_good _ _ _ _ := trivial

/-- Nothing is assumed at all. -/
def unguarded : Regime where
  ok _ := True
  pre _ := True
  good _ := True
  ok_of_ne _ := trivial
  stable := stable_true
  function_good _ _ _ _ := trivial

/-- What holds under any regime holds under the one that assumes nothing. -/
theorem Settles.unguard {T : Regime} {r : Role} {scope : Scope} {m : Machine} {α : Type}
    {e : Nat → Eval α} {after : α → Scope} {Q : α → Machine → Prop}
    (h : Settles T r scope m e after Q) : Settles unguarded r scope m e after Q :=
  h.weaken (fun _ _ => trivial) fun _ _ => trivial

/-- Rounds may be cut short by a fixed bound. -/
theorem lasts_const {ok : Halt → Prop} (hok : ok .exhausted) (bound : Nat) (m : Machine) :
    Lasts ok (fun _ _ => True) (fun _ => bound) m := by
  induction bound generalizing m with
  | zero => exact .spent (.of_forall fun _ => rfl) hok
  | succ bound ih => exact .more (.of_forall fun _ => nofun) fun m' _ => ih m'

theorem Form.roundsLast_const {T : Regime} (hok : T.ok .exhausted) (bound : Nat) (form : Form) :
    form.RoundsLast T fun _ => bound := by
  cases form with
  | whileDo => exact ⟨_, fun _ _ _ => trivial, fun m _ => lasts_const hok bound m⟩
  | repeatUntil => exact ⟨_, fun _ _ _ => trivial, fun m _ => lasts_const hok bound m⟩
  | forTo => exact fun _ _ => ⟨_, fun _ _ _ _ _ _ => trivial, fun m _ => lasts_const hok bound m⟩
  | _ => trivial

variable {F : Table Routine}

/-- Expressions and statements of function bodies, under every bound: an expression lends no more
than its text tells. -/
theorem evaluate_runStatement_settle (n : Nat) :
    (∀ (lent : String → Prop) (scope : Scope) (e : Expr), (∀ x, e.Lends F x → lent x) →
      Settled (knowing F) lent scope (fun _ => evaluate n) e) ∧
    ∀ s, Performs (knowing F) (fun _ => runStatement n) s := by
  induction n with
  | zero => exact ⟨fun _ _ _ _ _ _ => settles_throw trivial, fun _ _ _ _ _ => settles_throw trivial⟩
  | succ n ih =>
    obtain ⟨ihe, ihs⟩ := ih
    constructor
    · intro lent scope e hlent m hm
      have hparts : ∀ part ∈ e.parts, Settled (knowing F) lent scope (fun _ => evaluate n) part :=
        fun part hpart => ihe lent scope part fun x hx => hlent x (.inside hpart hx)
      have hform : Computes (knowing F) lent scope m
          (fun _ => evaluateForm ⟨evaluate n, runStatement n⟩ scope e) fun _ _ => True := by
        refine settles_evaluateForm hparts (fun s _ => ihs s) ?_ hm
        rintro line name arguments rfl hname f hf x hx
        exact hlent x (.passed hname (hm ▸ hf) hx)
      exact hform.congr (.of_forall fun _ => congrFun (by rw [evaluate]) m)
    · intro s held scope m hm
      have hdispatched : Settles (knowing F) (.running Everything held Nothing) scope m
          (fun _ => runDispatched ⟨evaluate n, runStatement n⟩ n scope s) Prod.fst
          fun _ m' => Counts m m' :=
        settles_runDispatched hm fun m₁ hm₁ _ =>
          settles_runForm (fun scope e => ihe Everything scope e fun _ _ => trivial)
            (fun _ _ t _ => ihs t) (Form.roundsLast_const trivial n s.form) hm₁
      exact hdispatched.congr (.of_forall fun _ => congrFun (by rw [runStatement]) m)

/-- Expressions act as calls that lend no more than the expression tells. -/
theorem evaluate_computes (n : Nat) (scope : Scope) (e : Expr) (m : Machine) :
    Computes unguarded (e.Lends m.functions) scope m (fun _ => evaluate n scope e)
      fun _ _ => True :=
  ((evaluate_runStatement_settle n).1 _ scope e (fun _ h => h) m rfl).unguard

/-- Statements of function bodies act as bodies. -/
theorem runStatement_unguarded (n : Nat) (s : Stmt) :
    Performs unguarded (fun _ => runStatement n) s := fun held scope m _ =>
  ((evaluate_runStatement_settle n).2 s held scope m rfl).unguard

section Hosts

variable {σ : Type} {host : Host σ}

theorem unguarded_hosted (h : host.Discreet) : unguarded.Hosted host :=
  ⟨h, fun _ => trivial, fun _ _ => trivial, fun _ _ _ _ => trivial⟩

/-- Statements act as bodies, whatever a discreet host answers. -/
theorem execute_unguarded (h : host.Discreet) (n : Nat) (t : Stmt) :
    Executes unguarded host (fun _ => execute n) t := by
  induction n generalizing t with
  | zero => exact fun _ _ _ _ _ => Action.settles_lift (settles_throw trivial)
  | succ n ih =>
    intro held scope m s hm
    have hx : ∀ scope e, Settled unguarded Everything scope (fun _ => evaluate n) e :=
      fun scope e m _ =>
        ((evaluate_runStatement_settle n).1 Everything scope e (fun _ _ => trivial) m rfl).unguard
    exact settles_executeDispatched (unguarded_hosted h) hm fun m₁ s₁ hm₁ _ _ =>
      settles_perform (unguarded_hosted h) hx (fun _ => trivial) (fun _ _ _ _ => trivial)
        (fun t _ => ih t) (Form.roundsLast_const trivial n t.form) hm₁ t.line

/-- **A CALL lends what its arguments give to parameters by reference**, and nothing else of its
caller's. -/
theorem executeCall_settles (h : host.Discreet) (n : Nat) {t : Stmt} {name : String}
    {arguments : List Expr} (ht : t.form = .call name arguments) (scope : Scope)
    (m : Machine) (s : σ) :
    Action.Settles unguarded host
      (.running (m.CallLends name arguments) Unheld (Outside unguarded.good)) scope m s
      (fun _ => execute n scope t) id fun _ _ => True := by
  cases n with
  | zero => exact Action.settles_lift (settles_throw trivial)
  | succ n =>
    refine (settles_executeDispatched (unguarded_hosted h) trivial
      fun m₁ s₁ hm₁ _ hbegun => ?_).done
    have hprocedures : m₁.procedures = m.procedures := by obtain ⟨_, _, rfl⟩ := hbegun; rfl
    have hfunctions : m₁.functions = m.functions := by obtain ⟨_, _, rfl⟩ := hbegun; rfl
    have hbind : ∀ p frame, m₁.procedures.find? name = some p →
        Settles unguarded (.binding scope (m.CallLends name arguments)) freshScope
          (m₁.enterCall frame) (fun _ =>
          bindArguments (evaluate n) scope freshScope p.params arguments) id fun _ _ => True := by
      intro p frame hp
      have hx : ∀ e ∈ arguments, Settled (knowing m.functions) (m.CallLends name arguments) scope
          (fun _ => evaluate n) e := fun e he =>
        (evaluate_runStatement_settle n).1 _ scope e fun x hx => Or.inr ⟨e, he, hx⟩
      have hlent : ∀ q line x, (q, Expr.var line x) ∈ p.params.zip arguments → q.mode = .byRef →
          m.CallLends name arguments x := fun q line x hq hmode =>
        Or.inl ⟨p, hprocedures ▸ hp, q, line, hq, hmode⟩
      have hentered : (knowing m.functions).pre (m₁.enterCall frame) := hfunctions
      exact (settles_bindArguments hx hlent hentered).unguard
    rw [ht]
    exact ((settles_performCall (unguarded_hosted h) hbind (fun t _ => execute_unguarded h n t) hm₁
        t.line).inner fun _ h => h).bind fun _ m₂ s₂ hm₂ _ _ => Action.settles_pure hm₂ trivial rfl

end Hosts

/-! ## What is left behind -/

/-- The machine that a step leaves, whether it ends or stops. -/
def Eval.leaves {α : Type} (e : Eval α) (m : Machine) : Machine :=
  match e m with
  | .ok _ m' | .error _ m' => m'

theorem Eval.leaves_ok {α : Type} {e : Eval α} {m m' : Machine} {x : α} (h : e m = .ok x m') :
    e.leaves m = m' := by
  rw [Eval.leaves, h]

theorem Eval.leaves_error {α : Type} {e : Eval α} {m m' : Machine} {h : Halt}
    (he : e m = .error h m') : e.leaves m = m' := by
  rw [Eval.leaves, he]

/-- The machine that a part of a run leaves, whether it ends or stops, with the answers of a
host. -/
def Action.leaves {α σ : Type} (a : Action α) (host : Host σ) (s : σ) (m : Machine) : Machine :=
  ((a.alone m).drain host s).2.1

section Leaving

variable {T : Regime} {r : Role} {scope : Scope} {m : Machine} {α : Type} {after : α → Scope}
  {Q : α → Machine → Prop}

theorem Settles.acts {e : Eval α} (h : Settles T r scope m (fun _ => e) after Q) :
    ∃ scope', Acts r scope m scope' (e.leaves m) := by
  rcases h with ⟨x, m', hx, acts, -, -⟩ | ⟨h, m', scope', hh, acts, -⟩
  · obtain ⟨-, hx⟩ := hx.exists
    exact ⟨_, by rwa [Eval.leaves, hx]⟩
  · obtain ⟨-, hh⟩ := hh.exists
    exact ⟨scope', by rwa [Eval.leaves, hh]⟩

theorem Action.Settles.acts {σ : Type} {host : Host σ} {s : σ} {a : Action α}
    (h : Action.Settles T host r scope m s (fun _ => a) after Q) :
    ∃ scope', Acts r scope m scope' (a.leaves host s m) := by
  rcases h with ⟨x, m', s', ha, acts, -, -⟩ | ⟨h, m', s', scope', ha, acts, -⟩
  · obtain ⟨-, ha⟩ := ha.exists
    exact ⟨_, by rwa [Action.leaves, Action.alone, ha]⟩
  · obtain ⟨-, ha⟩ := ha.exists
    exact ⟨scope', by rwa [Action.leaves, Action.alone, ha]⟩

end Leaving

end Pseudocode
